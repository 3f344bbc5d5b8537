import ErasureCode.Core.Writes
import ErasureCode.IsaEC.Histories
import ErasureCode.Ssd.Transfer

/-!
# Encoding in segments

The strips need not be encoded in one call: the SSD pipeline calls `encode_ptr`
on one segment after the other, with each strip pointer advanced to the segment
(`test/para_ssd_read.cpp:106-124`).

A call gives the parity bytes of its segment what a call on the whole strips
gives them (`encodeSegment_spec`). So neither the cuts, nor the order of the
calls, nor the block size matters (`cuts_agree`).
-/
namespace ErasureCode.Ssd

open ErasureCode.Core Isal IsaEC

variable {k n : Nat}

/-- `encode_ptr` on the segment of `s.2` bytes that starts at `s.1`.
mirrors test/para_ssd_read.cpp:111-121 -/
def encodeSegment (ec : IsaEC k n) (in_ : Vector Ptr k) (out : Vector Ptr n) (s : Nat × Nat) (mem : Mem) :
    Option Mem := do
  return (← encodePtr ec (advance in_ s.1) (advance out s.1) s.2 mem).1

section
variable {c : Nat} {v : Vector Ptr c} {mem mem' : Mem} {S : Nat → Prop} {off len : Nat} {val : Nat → Nat → UInt8}

/-- Rewriting advanced strips writes a segment. -/
theorem advance_written (h : Rewritten mem mem' (advance v off) S len val) {T : Ptr → UInt8}
    (hT : ∀ r, r < c → S r → ∀ x, x < len → T ((cell v r).add (off + x)) = val r x) :
    Written mem mem' (StripCells v S off (off + len)) T := by
  refine ⟨h.size, ?_, fun q hq => h.frame q ?_⟩
  · rintro _ ⟨r, hr, hS, p, h1, h2, rfl⟩
    obtain ⟨x, rfl⟩ := Nat.exists_eq_add_of_le h1
    have hset := h.set r hr hS x (by omega)
    rw [cell_advance hr, Ptr.add_add] at hset
    rw [hset, hT r hr hS x (by omega)]
  · rintro ⟨r, hr, hS, x, -, hx, rfl⟩
    rw [cell_advance hr, Ptr.add_add] at hq
    exact hq ⟨r, hr, hS, off + x, Nat.le_add_right _ _, by omega, rfl⟩

end

section
variable {in_ : Vector Ptr k} {out : Vector Ptr n} {mem : Mem} {L : Nat}

/-- The byte a call on advanced strips writes. -/
theorem encodedByte_advance (ec : IsaEC k n) (mem : Mem) (in_ : Vector Ptr k) (out : Vector Ptr n) (off r x : Nat) :
    ec.encodedByte mem (advance in_ off) (advance out off) r x = ec.encodedByte mem in_ out r (off + x) := by
  rw [encodedByte, encodedByte]
  refine dotBytes_congr (fun _ _ => rfl) fun j hj => ?_
  rw [advance_append, stripByte_advance (by omega)]

/-- What the strips are to hold: the data, and the parity of the data in `mem`. -/
def encodedStrips (ec : IsaEC k n) (mem : Mem) (in_ : Vector Ptr k) (out : Vector Ptr n) (r p : Nat) : UInt8 :=
  if r < k then stripByte mem (in_ ++ out) r p else ec.encodedByte mem in_ out r p

/-- A call on a segment, wherever the strips already hold what they are to hold. -/
theorem encodeSegment_spec {ec : IsaEC k n} (hM : 0 < ec.maxSize) (hs : Strips mem (in_ ++ out) L) {s : Nat × Nat}
    (hlt : s.2 < 2 ^ 31) (hin : s.1 + s.2 ≤ L) (hdvd : ec.maxSize ∣ s.2) {t : Mem} {D : Ptr → Prop} {T : Ptr → UInt8}
    (hT : ∀ r, r < k + n → ∀ p, p < L → T ((cell (in_ ++ out) r).add p) = encodedStrips ec mem in_ out r p)
    (ht : Written mem t D T) :
    Returns (encodeSegment ec in_ out s t) fun t' =>
      Written t t' (StripCells (in_ ++ out) (fun r => k ≤ r) s.1 (s.1 + s.2)) T := by
  have hst : Strips t (advance (in_ ++ out) s.1) s.2 := advance_strips (hs.of_isSome fun _ => ht.isSome) hin
  rw [← advance_append] at hst
  refine (encodePtr_mul ec hM hst hdvd hlt).bind fun e ⟨_, he⟩ => returns_some ?_
  rw [advance_append] at he
  refine advance_written he fun r hr hkr x hx => ?_
  rw [hT r hr _ (by omega), encodedStrips, if_neg (Nat.not_lt.2 hkr), encodedByte_advance, encodedByte, encodedByte]
  -- the data strips hold what they held, written over or not
  refine dotBytes_congr (fun _ _ => rfl) fun j hj => ?_
  by_cases hD : D ((cell (in_ ++ out) j).add (s.1 + x))
  · have hbyte := hT j (by omega) (s.1 + x) (by omega)
    rw [encodedStrips, if_pos hj] at hbyte
    rw [← hbyte, stripByte, byteAt, ht.set _ hD, Option.getD_some]
  · rw [stripByte, stripByte, ht.byteAt_frame hD]

/-- The calls on all segments, in any order. -/
theorem encodeSegments_spec {ec : IsaEC k n} (hM : 0 < ec.maxSize) (hs : Strips mem (in_ ++ out) L) (hlt : L < 2 ^ 31)
    {lens : List Nat} (hL : lens.sum = L) (hdvd : ∀ len ∈ lens, ec.maxSize ∣ len) {order : List (Nat × Nat)}
    (horder : order.Perm (stretches 0 lens)) :
    Returns (run (encodeSegment ec in_ out) order mem) fun t =>
      Rewritten mem t (in_ ++ out) (fun r => k ≤ r) L (ec.encodedByte mem in_ out) := by
  refine (stretches_rewritten (encodedStrips ec mem in_ out) horder hs hL
    fun s hin hmem t D T hT ht => ?_).mono fun t ht => ht.congrVal fun r _ hkr p _ => ?_
  · exact encodeSegment_spec hM hs (by omega) hin (hdvd s.2 hmem) hT ht
  · exact if_neg (Nat.not_lt.2 hkr)

/-- **The parity does not depend on the cuts.** `encode_ptr` on the segments, with
blocks of `s₁` bytes and in any order, leaves what one call with blocks of `s₂`
bytes leaves. -/
theorem cuts_agree {s₁ s₂ thread_num₁ thread_num₂ : Nat} {raw₁ raw₂ ec₁ ec₂ : IsaEC k n}
    (h₁ : new raw₁ s₁ thread_num₁ = some ec₁) (h₂ : new raw₂ s₂ thread_num₂ = some ec₂) (hs₁ : 0 < s₁) (hs₂ : 0 < s₂)
    (hlt : L < 2 ^ 31) (hdvd : s₂ ∣ L) (hs : Strips mem (in_ ++ out) L) {lens : List Nat} (hL : lens.sum = L)
    (hlens : ∀ len ∈ lens, s₁ ∣ len) {order : List (Nat × Nat)} (horder : order.Perm (stretches 0 lens)) :
    ∃ mem', run (encodeSegment ec₁ in_ out) order mem = some mem' ∧ encodePtr ec₂ in_ out L mem = some (mem', true) := by
  have hf₁ := new_fresh h₁
  have hf₂ := new_fresh h₂
  obtain rfl := hf₁.maxSize_eq
  obtain rfl := hf₂.maxSize_eq
  have htbl : ec₁.g_tbls = ec₂.g_tbls := g_tbls_eq hf₁.sound hf₂.sound hf₁.intact hf₂.intact
  obtain ⟨m₁, hrun, hw₁⟩ := encodeSegments_spec hs₁ hs hlt hL hlens horder
  obtain ⟨⟨m₂, r⟩, hcall, hr, hw₂⟩ := encodePtr_mul ec₂ hs₂ hs hdvd hlt
  dsimp only at hr hw₂
  subst hr
  have hval : ec₁.encodedByte mem in_ out = ec₂.encodedByte mem in_ out := by
    funext r p
    rw [encodedByte, encodedByte, htbl]
  rw [hval] at hw₁
  obtain rfl := hw₁.unique hw₂
  exact ⟨m₁, hrun, hcall⟩

end

/-- One byte and three bytes, the three first, in blocks of one byte; and all four
in blocks of two. -/
theorem cuts_agree_four : ∃ ec₁ ec₂ : IsaEC 1 1, new default 1 4 = some ec₁ ∧ new default 2 4 = some ec₂ ∧
    ∃ mem', run (encodeSegment ec₁ (ownBuffers 0 1) (ownBuffers 1 1)) [(1, 3), (0, 1)]
        #[#[5, 6, 7, 8], #[0, 0, 0, 0]] = some mem' ∧
      encodePtr ec₂ (ownBuffers 0 1) (ownBuffers 1 1) 4 #[#[5, 6, 7, 8], #[0, 0, 0, 0]] = some (mem', true) := by
  obtain ⟨ec₁, h₁⟩ := new_isSome (default : IsaEC 1 1) 1 4 (by decide)
  obtain ⟨ec₂, h₂⟩ := new_isSome (default : IsaEC 1 1) 2 4 (by decide)
  exact ⟨ec₁, ec₂, h₁, h₂, cuts_agree h₁ h₂ (by decide) (by decide) (by decide) (by decide) (by decide)
    (show [1, 3].sum = 4 by decide) (by decide) (by decide)⟩

end ErasureCode.Ssd
