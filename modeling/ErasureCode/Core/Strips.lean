import ErasureCode.Core.Buffer
import ErasureCode.Core.Memory

/-!
# Strips

A strip is a stretch of bytes in memory; `Strips mem v L` says that the `c`
pointers `v` are strips of `L` bytes each, no two of which share a byte.

`Rewritten mem mem' v S len val` says that `mem'` is `mem` with the first `len`
bytes of the strips `S` set to `val`, and nothing else changed. It is what a
loop over windows amounts to when each round writes its window
(`windows_rewritten`).
-/
namespace ErasureCode.Core

/-- Byte `p` of strip `r`. -/
def stripByte {c : Nat} (mem : Mem) (v : Vector Ptr c) (r p : Nat) : UInt8 :=
  byteAt mem ((cell v r).add p)

/-- `c` strips of `L` bytes, pairwise disjoint. -/
structure Strips {c : Nat} (mem : Mem) (v : Vector Ptr c) (L : Nat) : Prop where
  valid : ∀ r, r < c → Valid mem (cell v r) L
  disj : ∀ r, r < c → ∀ r', r' < c → r ≠ r' →
    ∀ p, p < L → ∀ p', p' < L → (cell v r).add p ≠ (cell v r').add p'

instance {c : Nat} (mem : Mem) (v : Vector Ptr c) (L : Nat) : Decidable (Strips mem v L) :=
  decidable_of_iff ((∀ r, r < c → Valid mem (cell v r) L) ∧ ∀ r, r < c → ∀ r', r' < c → r ≠ r' →
    ∀ p, p < L → ∀ p', p' < L → (cell v r).add p ≠ (cell v r').add p')
    ⟨fun h => ⟨h.1, h.2⟩, fun h => ⟨h.valid, h.disj⟩⟩

/-- `c` strips that end after `L` bytes. -/
structure ExactStrips {c : Nat} (mem : Mem) (v : Vector Ptr c) (L : Nat) : Prop extends Strips mem v L where
  ends : ∀ r, r < c → ∀ p, L ≤ p → load mem ((cell v r).add p) = none

instance {c : Nat} (mem : Mem) (v : Vector Ptr c) (L : Nat) : Decidable (ExactStrips mem v L) :=
  decidable_of_iff (Strips mem v L ∧ ∀ r, r < c → (mem[(cell v r).buf]?.getD #[]).size ≤ (cell v r).off + L)
    ⟨fun h => ⟨h.1, fun r hr _ hp => load_eq_none_iff.2 (Nat.le_trans (h.2 r hr) (Nat.add_le_add_left hp _))⟩,
      fun h => ⟨h.toStrips, fun r hr => load_eq_none_iff.1 (h.ends r hr L (Nat.le_refl L))⟩⟩

/-- Strips in buffers of their own, `b` being the first. -/
def ownBuffers (b c : Nat) : Vector Ptr c := Vector.ofFn fun i => ⟨b + i, 0⟩

/-- The bytes `lo ≤ p < hi` of the strips `S`. -/
def StripCells {c : Nat} (v : Vector Ptr c) (S : Nat → Prop) (lo hi : Nat) (q : Ptr) : Prop :=
  ∃ r, r < c ∧ S r ∧ ∃ p, lo ≤ p ∧ p < hi ∧ q = (cell v r).add p

/-- The first `len` bytes of the strips `S` are set to `val`. -/
structure Rewritten {c : Nat} (mem mem' : Mem) (v : Vector Ptr c) (S : Nat → Prop) (len : Nat)
    (val : Nat → Nat → UInt8) : Prop where
  size : mem'.size = mem.size
  set : ∀ r, r < c → S r → ∀ p, p < len → load mem' ((cell v r).add p) = some (val r p)
  frame : ∀ q, ¬ StripCells v S 0 len q → load mem' q = load mem q

variable {c L len : Nat} {mem mem' mem'' : Mem} {v : Vector Ptr c} {S : Nat → Prop}
  {val : Nat → Nat → UInt8}

namespace Strips

/-- Two bytes of the strips are the same byte only if they are the same byte
of the same strip. -/
theorem add_inj (h : Strips mem v L) {r r' p p' : Nat} (hr : r < c) (hr' : r' < c) (hp : p < L)
    (hp' : p' < L) (e : (cell v r).add p = (cell v r').add p') : r = r' ∧ p = p' := by
  by_cases hrr : r = r'
  · subst hrr
    exact ⟨rfl, Ptr.add_inj.1 e⟩
  · exact absurd e (h.disj r hr r' hr' hrr p hp p' hp')

/-- Only the buffers' sizes matter. -/
theorem of_isSome (h : Strips mem v L) (hs : ∀ q, (load mem q).isSome → (load mem' q).isSome) :
    Strips mem' v L :=
  ⟨fun r hr p hp => hs _ (h.valid r hr p hp), h.disj⟩

/-- Values given strip by strip are values given byte by byte. -/
theorem exists_values (h : Strips mem v L) (val : Nat → Nat → UInt8) :
    ∃ T : Ptr → UInt8, ∀ r, r < c → ∀ p, p < L → T ((cell v r).add p) = val r p := by
  classical
  refine ⟨fun q => if hq : ∃ x : Nat × Nat, x.1 < c ∧ x.2 < L ∧ q = (cell v x.1).add x.2 then
    val hq.choose.1 hq.choose.2 else 0, fun r hr p hp => ?_⟩
  have hex : ∃ x : Nat × Nat, x.1 < c ∧ x.2 < L ∧ (cell v r).add p = (cell v x.1).add x.2 :=
    ⟨(r, p), hr, hp, rfl⟩
  obtain ⟨h1, h2, h3⟩ := hex.choose_spec
  obtain ⟨e1, e2⟩ := h.add_inj hr h1 hp h2 h3
  simp only [dif_pos hex]
  rw [← e1, ← e2]

end Strips

namespace Rewritten

theorem isSome (h : Rewritten mem mem' v S len val) {q : Ptr} (hq : (load mem q).isSome) :
    (load mem' q).isSome := by
  by_cases hd : StripCells v S 0 len q
  · obtain ⟨r, hr, hS, p, -, hp, rfl⟩ := hd
    rw [h.set r hr hS p hp]; rfl
  · rw [h.frame q hd]; exact hq

theorem strips (h : Rewritten mem mem' v S len val) {d K : Nat} {w : Vector Ptr d} (hv : Strips mem w K) :
    Strips mem' w K :=
  hv.of_isSome fun _ => h.isSome

theorem stripByte_set (h : Rewritten mem mem' v S len val) {r p : Nat} (hr : r < c) (hS : S r)
    (hp : p < len) : stripByte mem' v r p = val r p := by
  rw [stripByte, byteAt, h.set r hr hS p hp]; rfl

theorem stripByte_frame (h : Rewritten mem mem' v S len val) (hv : Strips mem v L) (hlen : len ≤ L)
    {r p : Nat} (hr : r < c) (hp : p < L) (hS : ¬ (S r ∧ p < len)) :
    stripByte mem' v r p = stripByte mem v r p := by
  rw [stripByte, byteAt, h.frame, stripByte, byteAt]
  rintro ⟨r', hr', hS', p', -, hp', e⟩
  obtain ⟨rfl, rfl⟩ := hv.add_inj hr hr' hp (by omega) e
  exact hS ⟨hS', hp'⟩

theorem congrSet (h : Rewritten mem mem' v S len val) {S' : Nat → Prop}
    (hS : ∀ r, r < c → (S r ↔ S' r)) : Rewritten mem mem' v S' len val := by
  refine ⟨h.size, fun r hr hr' => h.set r hr ((hS r hr).2 hr'), fun q hq => h.frame q ?_⟩
  rintro ⟨r, hr, hr', hq'⟩
  exact hq ⟨r, hr, (hS r hr).1 hr', hq'⟩

theorem congrVal (h : Rewritten mem mem' v S len val) {val' : Nat → Nat → UInt8}
    (hval : ∀ r, r < c → S r → ∀ p, p < len → val r p = val' r p) :
    Rewritten mem mem' v S len val' :=
  ⟨h.size, fun r hr hS p hp => by rw [h.set r hr hS p hp, hval r hr hS p hp], h.frame⟩

/-- There is one way to rewrite a memory. -/
theorem unique (h : Rewritten mem mem' v S len val) (h' : Rewritten mem mem'' v S len val) : mem' = mem'' := by
  refine mem_ext (h.size.trans h'.size.symm) fun q => ?_
  by_cases hq : StripCells v S 0 len q
  · obtain ⟨r, hr, hS, p, -, hp, rfl⟩ := hq
    rw [h.set r hr hS p hp, h'.set r hr hS p hp]
  · rw [h.frame q hq, h'.frame q hq]

end Rewritten

/-- `B` rounds, each of which writes its window of `M` bytes. -/
theorem windows_rewritten {B M : Nat} (hv : Strips mem v L) (hL : B * M ≤ L)
    {body : Nat → Mem → Option Mem}
    (hstep : ∀ b t, b < B → ∀ T, (∀ r, r < c → ∀ p, p < L → T ((cell v r).add p) = val r p) →
      Written mem t (StripCells v S 0 (b * M)) T →
      Returns (body b t) fun t' => Written t t' (StripCells v S (b * M) (b * M + M)) T) :
    Returns (forUp 0 B mem body) fun t => Rewritten mem t v S (B * M) val := by
  obtain ⟨T, hT⟩ := hv.exists_values val
  refine (forUp_written (W := fun b => StripCells v S (b * M) (b * M + M)) (T := T) (Nat.zero_le B)
    fun b t _ hb ht => hstep b t hb T hT (ht.congr fun q => ?_)).mono fun t ht => ?_
  · constructor
    · rintro ⟨b', _, hb', r, hr, hS, p, h1, h2, rfl⟩
      have : b' * M + M ≤ b * M := by rw [← Nat.succ_mul]; exact Nat.mul_le_mul_right M hb'
      exact ⟨r, hr, hS, p, Nat.zero_le _, by omega, rfl⟩
    · rintro ⟨r, hr, hS, p, -, hp, rfl⟩
      obtain ⟨b', x, hb', hx, rfl⟩ := pos_surj hp
      exact ⟨b', Nat.zero_le _, hb', r, hr, hS, _, by omega, by omega, rfl⟩
  · refine ⟨ht.size, fun r hr hS p hp => ?_, fun q hq => ht.frame q ?_⟩
    · obtain ⟨b, x, hb, hx, rfl⟩ := pos_surj hp
      rw [ht.set _ ⟨b, Nat.zero_le _, hb, r, hr, hS, _, by omega, by omega, rfl⟩, hT r hr _ (by omega)]
    · rintro ⟨b, _, hb, r, hr, hS, p, h1, h2, rfl⟩
      have : b * M + M ≤ B * M := by rw [← Nat.succ_mul]; exact Nat.mul_le_mul_right M hb
      exact hq ⟨r, hr, hS, p, Nat.zero_le _, by omega, rfl⟩

end ErasureCode.Core
