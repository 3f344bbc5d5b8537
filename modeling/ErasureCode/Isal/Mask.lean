import ErasureCode.Isal.Nibble

/-!
# Products under a mask

When a last register overlaps the one before, the kernels that add to a parity let
only the products of the bytes pass that no round has reached. The SSE, AVX and AVX2
kernels compare signed bytes for their mask (`tailMask`); the AVX512 kernels fill a
mask register by an arithmetic shift (`tailLanes`).

* `Multiplies.masked`, `mulAvx512Masked_multiplies` with `getLsbD_tailLanes`: either
  way, from the position that the rounds have reached on.
-/
namespace ErasureCode.Isal

open ErasureCode.Core

variable {w : Nat}

/-- Byte `i` is `-(i + 1)`.
mirrors lib/isa-l/erasure_code/gf_6vect_mad_avx2.asm:395-397 -/
def constip (w : Nat) : Vector UInt8 w := Vector.ofFn fun i => UInt8.ofNat (0xff - i)

/-- The low byte of `len - w - pos` is compared with the bytes of `constip`.
mirrors lib/isa-l/erasure_code/gf_3vect_mad_sse.asm:239-244 -/
def tailMask (w len pos : Nat) : Vector UInt8 w := pcmpgtb (broadcastb w (UInt8.ofInt ((len : Int) - w - pos))) (constip w)

def LaneMul.masked (m : LaneMul w) (mask : Vector UInt8 w) : LaneMul w :=
  { m with lookup := fun xgft s => pand (m.lookup xgft s) mask }

/-- Both lookups are masked.
mirrors lib/isa-l/erasure_code/gf_vect_mad_avx512.asm:134-155 -/
def mulAvx512Masked (k1 : BitVec 64) : LaneMul 64 where
  Parts := Vector UInt8 64 × Vector UInt8 64
  split := splitNibbles
  lookup t s :=
    let xgft := Vector.ofFn fun i : Fin 64 => cell t i
    let xgft_hi := vshufi64x2 xgft xgft 0x55
    let xgft_lo := vshufi64x2 xgft xgft 0x00
    pxor (maskz k1 (pshufb xgft_hi s.2)) (maskz k1 (pshufb xgft_lo s.1))

/-- mirrors lib/isa-l/erasure_code/gf_vect_mad_avx512.asm:168-172 -/
def tailLanes (len : Nat) : BitVec 64 := (1#64 <<< 63).sshiftRight ((len - 1) % 64)

/-- It multiplies the bytes that satisfy `P`, and clears the others. -/
def LaneMul.MultipliesOn (m : LaneMul w) (P : Nat → Prop) : Prop :=
  ∀ (c : UInt8) (t : Vector UInt8 32) (x : Vector UInt8 w), (∀ b, b < 32 → cell t b = tableByte c b) →
    ∀ i, i < w → (P i → cell (m.lookup t (m.split x)) i = gfMul (cell x i) c) ∧
      (¬ P i → cell (m.lookup t (m.split x)) i = 0)

theorem LaneMul.Multiplies.on {m : LaneMul w} (hm : m.Multiplies) : m.MultipliesOn fun _ => True :=
  fun c t x ht i hi => ⟨fun _ => hm c t x ht i hi, fun h => absurd trivial h⟩

theorem LaneMul.MultipliesOn.congr {m : LaneMul w} {P Q : Nat → Prop} (h : m.MultipliesOn P)
    (hPQ : ∀ i, i < w → (P i ↔ Q i)) : m.MultipliesOn Q := fun c t x ht i hi => by
  rw [← hPQ i hi]
  exact h c t x ht i hi

theorem cell_constip {i : Nat} (hi : i < w) : cell (constip w) i = UInt8.ofNat (0xff - i) := cell_ofFn _ hi

/-- The mask has the bytes from `pos` on. -/
theorem cell_tailMask {len pos i : Nat} (hw : w ≤ 128) (hlen : w ≤ len) (hpos : pos < len) (hend : len < pos + w)
    (hi : i < w) : cell (tailMask w len pos) i = if pos ≤ len - w + i then 0xff else 0 := by
  rw [tailMask, cell_pcmpgtb _ _ hi, cell_broadcastb hi, cell_constip hi]
  simp only [Int8.lt_iff_toInt_lt, toInt8_complement (show i < 128 by omega),
    toInt8_ofInt (show -128 ≤ (len : Int) - w - pos by omega) (by omega)]
  congr 1
  simp only [eq_iff_iff]
  omega

theorem LaneMul.Multiplies.masked {m : LaneMul w} (hm : m.Multiplies) {len pos : Nat} (hw : w ≤ 128) (hlen : w ≤ len)
    (hpos : pos < len) (hend : len < pos + w) : (m.masked (tailMask w len pos)).MultipliesOn fun i => pos ≤ len - w + i := by
  intro c t x ht i hi
  change (_ → cell (pand (m.lookup t (m.split x)) _) i = _) ∧ (_ → cell (pand (m.lookup t (m.split x)) _) i = _)
  rw [cell_pand _ _ hi, hm c t x ht i hi, cell_tailMask hw hlen hpos hend hi]
  constructor
  · intro h
    rw [if_pos h]
    exact UInt8.and_neg_one
  · intro h
    rw [if_neg h]
    exact UInt8.and_zero

theorem mulAvx512Masked_multiplies (k1 : BitVec 64) : (mulAvx512Masked k1).MultipliesOn fun i => k1.getLsbD i = true := by
  intro c t x ht i hi
  have hboth := mulAvx512_multiplies c t x ht i hi
  change cell (pxor (pshufb _ _) (pshufb _ _)) i = _ at hboth
  rw [cell_pxor _ _ hi] at hboth
  change (_ → cell (pxor (maskz k1 (pshufb _ _)) (maskz k1 (pshufb _ _))) i = _) ∧
    (_ → cell (pxor (maskz k1 (pshufb _ _)) (maskz k1 (pshufb _ _))) i = _)
  rw [cell_pxor _ _ hi, cell_maskz _ _ hi, cell_maskz _ _ hi]
  constructor
  · intro h
    rw [if_pos h, if_pos h]
    exact hboth
  · intro h
    rw [if_neg h, if_neg h]
    rfl

/-- The shift leaves the bits from `pos` on. -/
theorem getLsbD_tailLanes {len pos i : Nat} (hpos : pos % 64 = 0) (hlen : 64 ≤ len) (hlt : pos < len)
    (hend : len < pos + 64) (hi : i < 64) : (tailLanes len).getLsbD i = true ↔ pos ≤ len - 64 + i := by
  have htop : ∀ n, n < 64 → (1#64 <<< 63).getLsbD n = decide (n = 63) := by decide
  have hmsb : (1#64 <<< 63).msb = true := by decide
  unfold tailLanes
  generalize 1#64 <<< 63 = top at htop hmsb
  have hin : decide (64 ≤ i) = false := decide_eq_false (by omega)
  rw [BitVec.getLsbD_sshiftRight, hmsb, hin, Bool.not_false, Bool.true_and, show (len - 1) % 64 = len - 1 - pos by omega]
  by_cases h : len - 1 - pos + i < 64
  · rw [if_pos h, htop _ h, decide_eq_true_iff]
    omega
  · rw [if_neg h, eq_self_iff_true, true_iff]
    omega

end ErasureCode.Isal
