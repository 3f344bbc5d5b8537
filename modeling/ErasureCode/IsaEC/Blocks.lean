import ErasureCode.Core.Strips
import ErasureCode.IsaEC.Object

/-!
# Block loops

Every method runs `ec_encode_data` on one window of `maxSize` bytes after the
other: from `srcs` strips `σ j` to `dests` strips `τ l`, through pointer arrays
it fills first. When no destination is a source, the loop sets every byte of
the destinations it covers to the product of the table row with the sources'
bytes at that position (`blocks_spec`).
-/
namespace ErasureCode.IsaEC

open ErasureCode.Core Isal

/-! ## Pointer arrays -/

theorem slot_upd {c : Nat} (a : Vector (Option Ptr) c) {i : Nat} (hi : i < c) (x : Option Ptr) (j : Nat) :
    slot (upd a i x) j = if j = i then x else slot a j := by
  unfold slot upd
  split
  · rename_i h
    subst h
    simp [hi]
  · rename_i h
    simp [Ne.symm h]

theorem fillPtrs_spec {c : Nat} {f : Nat → Option Ptr} {g : Nat → Ptr} (hf : ∀ i, i < c → f i = some (g i)) :
    Returns (fillPtrs c f) fun a => ∀ i, i < c → slot a i = some (g i) := by
  unfold fillPtrs
  refine (forUp_writes (fun a : Vector (Option Ptr) c => slot a) (fun i x => x = i) (fun i => some (g i))
    (fun _ => True) (Nat.zero_le _) trivial ?_).mono fun a ⟨_, hw, _⟩ i hi => hw i i (Nat.zero_le _) hi rfl
  intro i t _ hi _ _ _
  simp only [hf i hi, Option.bind_eq_bind, Option.bind_some, wr_eq t hi]
  refine returns_some ⟨trivial, ?_, fun x hx => ?_⟩
  · rintro x rfl
    rw [slot_upd t hi, if_pos rfl]
  · rw [slot_upd t hi, if_neg hx]

section
variable {k n : Nat}

theorem cell_append (in_ : Vector Ptr k) (out : Vector Ptr n) {i : Nat} (hi : i < k + n) :
    cell (in_ ++ out) i = if i < k then cell in_ i else cell out (i - k) := by
  rw [cell_eq_getElem _ hi, Vector.getElem_append]
  split
  · rename_i h
    rw [cell_eq_getElem _ h]
  · rw [cell_eq_getElem _ (show i - k < n by omega)]

/-- The pointers `in` and `out` make up one array of `k + n` strips. -/
theorem fragPtr_eq (in_ : Vector Ptr k) (out : Vector Ptr n) (index : Nat) {i : Nat} (hi : i < k + n) :
    fragPtr in_ out index i = some ((cell (in_ ++ out) i).add index) := by
  rw [cell_append in_ out hi]
  unfold fragPtr
  by_cases h : i < k
  · rw [if_pos h, if_pos h, rd_eq in_ h]
    rfl
  · rw [if_neg h, if_neg h, rd_eq out (show i - k < n by omega)]
    rfl

theorem stripPtr_eq (matrix : Vector Ptr (k + n)) (index : Nat) {r : UInt8} (hr : r.toNat < k + n) :
    stripPtr matrix index r = some ((cell matrix r.toNat).add index) := by
  unfold stripPtr
  rw [rd_eq matrix hr]
  rfl

end

/-! ## One window, and all of them -/

section
variable {c N srcs dests M L : Nat} {v : Vector Ptr c} {tbl : Vector UInt8 N} {σ τ : Nat → Nat}
  {mem : Mem} {val : Nat → Nat → UInt8}

/-- `ec_encode_data` from the strips `σ j` to the strips `τ l`, on the window
of `M` bytes at offset `off`. -/
def window {c N : Nat} (M srcs dests : Nat) (tbl : Vector UInt8 N) (v : Vector Ptr c) (σ τ : Nat → Nat)
    (off : Nat) (mem : Mem) : Option Mem :=
  ecEncodeData M srcs dests tbl (fun j => some ((cell v (σ j)).add off))
    (fun l => some ((cell v (τ l)).add off)) mem

/-- The strips written to. -/
def Targets (dests : Nat) (τ : Nat → Nat) (r : Nat) : Prop := ∃ l, l < dests ∧ τ l = r

theorem window_spec (hs : Strips mem v L) (hσ : ∀ j, j < srcs → σ j < c) (hτ : ∀ l, l < dests → τ l < c)
    (hne : ∀ j, j < srcs → ∀ l, l < dests → σ j ≠ τ l) (htbl : dests * srcs * 32 ≤ N) {off : Nat}
    (hL : off + M ≤ L) {T : Ptr → UInt8}
    (hT : ∀ l, l < dests → ∀ p, off ≤ p → p < off + M → T ((cell v (τ l)).add p) =
      dotBytes srcs (coef tbl srcs l) fun j => stripByte mem v (σ j) p) :
    Returns (window M srcs dests tbl v σ τ off mem) fun mem' =>
      Written mem mem' (StripCells v (Targets dests τ) off (off + M)) T := by
  have hw : Windows mem srcs dests L (fun j => cell v (σ j)) (fun l => cell v (τ l)) :=
    ⟨fun j hj => hs.valid _ (hσ j hj), fun l hl => hs.valid _ (hτ l hl), fun j hj l hl p hp p' hp' =>
      hs.disj _ (hσ j hj) _ (hτ l hl) (hne j hj l hl) p hp p' hp'⟩
  refine (ecEncodeData_spec htbl (fun j _ => rfl) (fun l _ => rfl) hw hL hT).mono fun mem' h =>
    h.congr fun q => ?_
  constructor
  · rintro ⟨l, hl, p, h1, h2, rfl⟩
    exact ⟨τ l, hτ l hl, ⟨l, hl, rfl⟩, p, h1, h2, rfl⟩
  · rintro ⟨_, _, ⟨l, hl, rfl⟩, p, h1, h2, rfl⟩
    exact ⟨l, hl, p, h1, h2, rfl⟩

/-- All windows of the first `B * M` bytes, one after another. -/
theorem blocks_spec (val : Nat → Nat → UInt8) (σ τ : Nat → Nat) (hs : Strips mem v L) (hσ : ∀ j, j < srcs → σ j < c) (hτ : ∀ l, l < dests → τ l < c)
    (hne : ∀ j, j < srcs → ∀ l, l < dests → σ j ≠ τ l) (htbl : dests * srcs * 32 ≤ N) {B : Nat}
    (hB : B * M ≤ L)
    (hval : ∀ l, l < dests → ∀ p, p < B * M →
      val (τ l) p = dotBytes srcs (coef tbl srcs l) fun j => stripByte mem v (σ j) p) :
    Returns (forUp 0 B mem fun b t => window M srcs dests tbl v σ τ (b * M) t) fun mem' =>
      Rewritten mem mem' v (Targets dests τ) (B * M) val := by
  refine windows_rewritten hs hB fun b t hb T hT ht => ?_
  have hlt : b * M + M ≤ B * M := by rw [← Nat.succ_mul]; exact Nat.mul_le_mul_right M hb
  refine window_spec (hs.of_isSome fun _ => ht.isSome) hσ hτ hne htbl (by omega) fun l hl p h1 h2 => ?_
  rw [hT _ (hτ l hl) p (by omega), hval l hl p (by omega)]
  -- the sources are not written to
  refine dotBytes_congr (fun _ _ => rfl) fun j hj => (ht.byteAt_frame ?_).symm
  rintro ⟨_, _, ⟨l', hl', rfl⟩, p', _, hp', e⟩
  exact hne j hj l' hl' (hs.add_inj (hσ j hj) (hτ l' hl') (by omega) (by omega) e).1

end

end ErasureCode.IsaEC
