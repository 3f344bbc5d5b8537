import Mathlib.Data.Nat.Digits.Lemmas
import ErasureCode.Core.Simd
import ErasureCode.Isal.Encode

/-!
# The tables multiply

The 32 bytes that `gf_vect_mul_init` stores for `c` are its products with the
nibbles (`gfVectMulBytes_eq`). Where a word has 64 bits it stores them as four
words, and elsewhere one by one: the bytes are the same (`tableByte_eq`). So two
lookups and a sum multiply by `c` (`lookup_nibbles`), which is what the vector
kernels do on a whole register: `LaneMul.Multiplies`, for each of their ways to
look the nibbles up.
-/
namespace ErasureCode.Isal

open ErasureCode.Core

/-! ## The two branches of `gf_vect_mul_init` -/

/-- The bytes `gf_vect_mul_init` stores where a word does not have 64 bits.
mirrors lib/isa-l/erasure_code/ec_base.c:170-172,204-270 -/
def gfVectMulBytes (c : UInt8) : Vector UInt8 32 :=
  let c2 := mulTwo c
  let c4 := mulTwo c2
  let c8 := mulTwo c4
  let c3 := c2 ^^^ c
  let c5 := c4 ^^^ c
  let c6 := c4 ^^^ c2
  let c7 := c4 ^^^ c3
  let c9 := c8 ^^^ c
  let c10 := c8 ^^^ c2
  let c11 := c8 ^^^ c3
  let c12 := c8 ^^^ c4
  let c13 := c8 ^^^ c5
  let c14 := c8 ^^^ c6
  let c15 := c8 ^^^ c7
  let c17 := mulTwo c8
  let c18 := mulTwo c17
  let c19 := c18 ^^^ c17
  let c20 := mulTwo c18
  let c21 := c20 ^^^ c17
  let c22 := c20 ^^^ c18
  let c23 := c20 ^^^ c19
  let c24 := mulTwo c20
  let c25 := c24 ^^^ c17
  let c26 := c24 ^^^ c18
  let c27 := c24 ^^^ c19
  let c28 := c24 ^^^ c20
  let c29 := c24 ^^^ c21
  let c30 := c24 ^^^ c22
  let c31 := c24 ^^^ c23
  #v[0, c, c2, c3, c4, c5, c6, c7, c8, c9, c10, c11, c12, c13, c14, c15,
    0, c17, c18, c19, c20, c21, c22, c23, c24, c25, c26, c27, c28, c29, c30, c31]

/-- Byte `j` of a word. -/
def byteOf (x : UInt64) (j : Nat) : UInt8 := (x >>> UInt64.ofNat (8 * j)).toUInt8

theorem byteOf_xor (x y : UInt64) (j : Nat) : byteOf (x ^^^ y) j = byteOf x j ^^^ byteOf y j := by
  apply UInt8.toBitVec_inj.1
  simp [byteOf, BitVec.ushiftRight_xor_distrib]

theorem byteOf_toNat (x : UInt64) {j : Nat} (hj : j < 8) : (byteOf x j).toNat = x.toNat / 256 ^ j % 256 := by
  rw [byteOf]
  simp only [UInt64.toNat_toUInt8, UInt64.toNat_shiftRight, UInt64.toNat_ofNat', Nat.shiftRight_eq_div_pow]
  rw [show (256 : Nat) = 2 ^ 8 from rfl, ← Nat.pow_mul]
  congr 3
  omega

/-- The product with a word of zeros and ones puts the byte where the ones are. -/
theorem byteOf_mul (c : UInt8) {K : UInt64} {m : List Nat} (hK : K.toNat = Nat.ofDigits 256 m) (hm : ∀ d ∈ m, d ≤ 1)
    (hl : m.length = 8) {j : Nat} (hj : j < 8) : byteOf (c.toUInt64 * K) j = if m.getD j 0 = 0 then 0 else c := by
  have hc := c.toNat_lt
  have hdig : ∀ d ∈ m.map (c.toNat * ·), d < 256 := by
    intro d hd
    obtain ⟨x, hx, rfl⟩ := List.mem_map.1 hd
    exact Nat.lt_of_le_of_lt (Nat.mul_le_mul_left _ (hm x hx)) (by omega)
  have hprod : (c.toUInt64 * K).toNat = Nat.ofDigits 256 (m.map (c.toNat * ·)) := by
    have hlt : Nat.ofDigits 256 (m.map (c.toNat * ·)) < 2 ^ 64 := by
      have h := Nat.ofDigits_lt_base_pow_length (by decide : 1 < 256) hdig
      rwa [List.length_map, hl] at h
    rw [UInt64.toNat_mul, UInt8.toNat_toUInt64, hK, Nat.mul_ofDigits, Nat.mod_eq_of_lt hlt]
  have hjm : j < m.length := by rw [hl]; exact hj
  have hjc : j < (m.map (c.toNat * ·)).length := by rw [List.length_map]; exact hjm
  have hd := hm m[j] (List.getElem_mem hjm)
  apply UInt8.toNat_inj.1
  rw [byteOf_toNat _ hj, hprod, Nat.ofDigits_div_pow_eq_ofDigits_drop j (by decide) _ hdig,
    List.drop_eq_getElem_cons hjc, Nat.ofDigits_cons, Nat.add_mul_mod_self_left, List.getElem_map,
    List.getD_eq_getElem?_getD, List.getElem?_eq_getElem hjm, Option.getD_some]
  obtain h | h : m[j] = 0 ∨ m[j] = 1 := by omega
  · rw [if_pos h, h, Nat.mul_zero]
    rfl
  · rw [if_neg (by omega), h, Nat.mul_one, Nat.mod_eq_of_lt (by omega)]

section
variable (c : UInt8) {j : Nat} (hj : j < 8)
include hj

theorem byteOf_mul1 :
    byteOf (c.toUInt64 * 0x0100010001000100) j = if [0, 1, 0, 1, 0, 1, 0, 1].getD j 0 = 0 then 0 else c :=
  byteOf_mul c (by decide) (by decide) rfl hj

theorem byteOf_mul2 :
    byteOf (c.toUInt64 * 0x0101000001010000) j = if [0, 0, 1, 1, 0, 0, 1, 1].getD j 0 = 0 then 0 else c :=
  byteOf_mul c (by decide) (by decide) rfl hj

theorem byteOf_mul4 :
    byteOf (c.toUInt64 * 0x0101010100000000) j = if [0, 0, 0, 0, 1, 1, 1, 1].getD j 0 = 0 then 0 else c :=
  byteOf_mul c (by decide) (by decide) rfl hj

theorem byteOf_mul8 :
    byteOf (c.toUInt64 * 0x0101010101010101) j = if [1, 1, 1, 1, 1, 1, 1, 1].getD j 0 = 0 then 0 else c :=
  byteOf_mul c (by decide) (by decide) rfl hj

end

/-- **The branches agree.** -/
theorem tableByte_eq (c : UInt8) {b : Nat} (hb : b < 32) : tableByte c b = cell (gfVectMulBytes c) b := by
  change byteOf (cell (gfVectMulWords c) (b / 8)) (b % 8) = _
  have hj : b % 8 < 8 := Nat.mod_lt _ (by decide)
  interval_cases b <;>
  · unfold gfVectMulWords gfVectMulBytes cell
    simp [byteOf_xor, byteOf_mul1, byteOf_mul2, byteOf_mul4, byteOf_mul8] <;> ac_rfl

/-! ## The bytes are products -/

theorem xor_gfMul (a b c : UInt8) : gfMul (a ^^^ b) c = gfMul a c ^^^ gfMul b c := by
  rw [gfMul_comm, gfMul_xor, gfMul_comm c a, gfMul_comm c b]

theorem gfMul_two (c : UInt8) : gfMul 2 c = mulTwo c := by
  rw [gfMul_eq_iterate (by decide)]
  rfl

theorem mulTwo_gfMul (a c : UInt8) : mulTwo (gfMul a c) = gfMul (mulTwo a) c := by
  rw [← gfMul_two, ← gfMul_assoc, gfMul_two]

/-- The nibble that entry `b` of a table is for. -/
def nibble (b : Nat) : UInt8 := if b < 16 then UInt8.ofNat b else UInt8.ofNat (16 * (b - 16))

theorem gfVectMulBytes_eq (c : UInt8) {b : Nat} (hb : b < 32) : cell (gfVectMulBytes c) b = gfMul (nibble b) c := by
  have hsum : ∀ x y, gfMul x c ^^^ gfMul y c = gfMul (x ^^^ y) c := fun x y => (xor_gfMul x y c).symm
  have hzero : (0 : UInt8) = gfMul 0 c := by rw [gfMul_comm, gfMul_zero]
  -- every byte is the product of a constant and `1 * c`
  have hone : cell (gfVectMulBytes (gfMul 1 c)) b = gfMul (nibble b) c := by
    unfold gfVectMulBytes cell
    simp only [mulTwo_gfMul, hsum]
    interval_cases b
    case «0» => exact hzero
    case «16» => exact hzero
    all_goals exact congrArg (gfMul · c) (by decide)
  rwa [one_gfMul] at hone

/-- Two lookups multiply. -/
theorem lookup_nibbles (c x : UInt8) : tableByte c (16 + x.toNat / 16) ^^^ tableByte c (x.toNat % 16) = gfMul x c := by
  have hx := x.toNat_lt
  have hparts : nibble (16 + x.toNat / 16) ^^^ nibble (x.toNat % 16) = x := by
    have hall : ∀ y : Fin 256, nibble (16 + y.val / 16) ^^^ nibble (y.val % 16) = UInt8.ofNat y.val := by decide +kernel
    have h := hall ⟨x.toNat, x.toNat_lt⟩
    rwa [UInt8.ofNat_toNat] at h
  rw [tableByte_eq c (by omega), tableByte_eq c (by omega), gfVectMulBytes_eq c (by omega),
    gfVectMulBytes_eq c (by omega), ← xor_gfMul, hparts]

/-! ## On a register -/

/-- How a kernel multiplies a register of `w` bytes by what a table of 32 bytes is
for: `split` is done once for a source, and `lookup` for each table. -/
structure LaneMul (w : Nat) where
  Parts : Type
  split : Vector UInt8 w → Parts
  lookup : Vector UInt8 32 → Parts → Vector UInt8 w

/-- It multiplies each byte. -/
def LaneMul.Multiplies {w : Nat} (m : LaneMul w) : Prop :=
  ∀ (c : UInt8) (t : Vector UInt8 32) (x : Vector UInt8 w), (∀ b, b < 32 → cell t b = tableByte c b) →
    ∀ i, i < w → cell (m.lookup t (m.split x)) i = gfMul (cell x i) c

/-- The low and the high nibbles, each in its byte. -/
def splitNibbles {w : Nat} (x : Vector UInt8 w) : Vector UInt8 w × Vector UInt8 w :=
  (pand x (broadcastb w 0x0f), pand (psraw x 4) (broadcastb w 0x0f))

/-- mirrors lib/isa-l/erasure_code/gf_vect_dot_prod_sse.asm:215-229 -/
def mulSse : LaneMul 16 where
  Parts := Vector UInt8 16 × Vector UInt8 16
  split := splitNibbles
  lookup t s :=
    let xgft_lo := Vector.ofFn fun i : Fin 16 => cell t i
    let xgft_hi := Vector.ofFn fun i : Fin 16 => cell t (16 + i)
    pxor (pshufb xgft_hi s.2) (pshufb xgft_lo s.1)

/-- `lo | lo` and `hi | hi`.
mirrors lib/isa-l/erasure_code/gf_vect_dot_prod_avx2.asm:226-242 -/
def mulAvx2 : LaneMul 32 where
  Parts := Vector UInt8 32 × Vector UInt8 32
  split := splitNibbles
  lookup t s :=
    let xgft_hi := vperm2i128 t t 0x11
    let xgft_lo := vperm2i128 t t 0x00
    pxor (pshufb xgft_hi s.2) (pshufb xgft_lo s.1)

/-- The table as it is, and with its halves swapped: instead, the nibbles of the
high lane are swapped.
mirrors lib/isa-l/erasure_code/gf_4vect_dot_prod_avx2.asm:345-393 -/
def mulAvx2Swapped : LaneMul 32 where
  Parts := Vector UInt8 32 × Vector UInt8 32
  split x :=
    let s := splitNibbles x
    (vperm2i128 s.1 s.2 0x30, vperm2i128 s.1 s.2 0x12)
  lookup t s := pxor (pshufb (vperm2i128 t t 0x01) s.2) (pshufb t s.1)

/-- The table is loaded to the low half of the register.
mirrors lib/isa-l/erasure_code/gf_vect_dot_prod_avx512.asm:151-163 -/
def mulAvx512 : LaneMul 64 where
  Parts := Vector UInt8 64 × Vector UInt8 64
  split := splitNibbles
  lookup t s :=
    let xgft := Vector.ofFn fun i : Fin 64 => cell t i
    let xgft_hi := vshufi64x2 xgft xgft 0x55
    let xgft_lo := vshufi64x2 xgft xgft 0x00
    pxor (pshufb xgft_hi s.2) (pshufb xgft_lo s.1)

section
variable {w : Nat} {x : Vector UInt8 w} {i : Nat}

theorem cell_split_lo (hi : i < w) : cell (splitNibbles x).1 i = UInt8.ofNat ((cell x i).toNat % 16) :=
  cell_pand_mask x hi

theorem cell_split_hi (hi : i < w) : cell (splitNibbles x).2 i = UInt8.ofNat ((cell x i).toNat / 16) :=
  cell_pand_psraw x hi

/-- A byte whose high nibble looks up the high half of the table, and whose low
nibble the low half. -/
theorem cell_lookup {c : UInt8} {t : Vector UInt8 32} (ht : ∀ b, b < 32 → cell t b = tableByte c b)
    {hi lo : Vector UInt8 w} {y : UInt8} (h : i < w)
    (hhi : ∀ d, d < 16 → cell hi (i / 16 * 16 + d) = cell t (16 + d))
    (hlo : ∀ d, d < 16 → cell lo (i / 16 * 16 + d) = cell t d) {u v : Vector UInt8 w}
    (hu : cell u i = UInt8.ofNat (y.toNat / 16)) (hv : cell v i = UInt8.ofNat (y.toNat % 16)) :
    cell (pxor (pshufb hi u) (pshufb lo v)) i = gfMul y c := by
  have hy := y.toNat_lt
  have hdiv : y.toNat / 16 < 16 := by omega
  have hmod : y.toNat % 16 < 16 := Nat.mod_lt _ (by decide)
  rw [cell_pxor _ _ h, cell_pshufb h hdiv hu, cell_pshufb h hmod hv, hhi _ hdiv, hlo _ hmod, ht _ (by omega),
    ht _ (by omega), lookup_nibbles]

end

theorem mulSse_multiplies : mulSse.Multiplies := by
  intro c t x ht i hi
  have hlane : i / 16 = 0 := by omega
  refine cell_lookup ht hi (fun d hd => ?_) (fun d hd => ?_) (cell_split_hi hi) (cell_split_lo hi)
  · rw [hlane, Nat.zero_mul, Nat.zero_add, cell_ofFn _ hd]
  · rw [hlane, Nat.zero_mul, Nat.zero_add, cell_ofFn _ hd]

theorem mulAvx2_multiplies : mulAvx2.Multiplies := by
  intro c t x ht i hi
  have hlane : i / 16 < 2 := by omega
  have hsel : 0x11 / 16 ^ (i / 16) % 16 = 1 ∧ 0x00 / 16 ^ (i / 16) % 16 = 0 := by
    obtain h | h : i / 16 = 0 ∨ i / 16 = 1 := by omega
    all_goals rw [h]; decide
  refine cell_lookup ht hi (fun d hd => ?_) (fun d hd => ?_) (cell_split_hi hi) (cell_split_lo hi)
  · rw [cell_vperm2i128 hlane hd hsel.1 (by decide), ite_self]
  · rw [cell_vperm2i128 hlane hd hsel.2 (by decide), ite_self, Nat.zero_mod, Nat.zero_mul, Nat.zero_add]

theorem mulAvx2Swapped_multiplies : mulAvx2Swapped.Multiplies := by
  intro c t x ht i hi
  have hmod : i % 16 < 16 := Nat.mod_lt _ (by decide)
  have htbl : 0x01 / 16 ^ 0 % 16 = 1 ∧ 0x01 / 16 ^ 1 % 16 = 0 := by decide
  have hlo : 0x30 / 16 ^ 0 % 16 = 0 ∧ 0x30 / 16 ^ 1 % 16 = 3 := by decide
  have hhi : 0x12 / 16 ^ 0 % 16 = 2 ∧ 0x12 / 16 ^ 1 % 16 = 1 := by decide
  change cell (pxor (pshufb _ (vperm2i128 (splitNibbles x).1 (splitNibbles x).2 0x12))
    (pshufb _ (vperm2i128 (splitNibbles x).1 (splitNibbles x).2 0x30))) i = _
  obtain h | h : i / 16 = 0 ∨ i / 16 = 1 := by omega
  · obtain ⟨l, hl, hil⟩ : ∃ l, l < 16 ∧ i = 0 * 16 + l := ⟨i % 16, hmod, by omega⟩
    refine cell_lookup ht hi (fun d hd => ?_) (fun d hd => ?_) ?_ ?_
    · rw [h, cell_vperm2i128 (by decide) hd htbl.1 (by decide), ite_self]
    · rw [h, Nat.zero_mul, Nat.zero_add]
    · rw [← cell_split_hi hi, hil, cell_vperm2i128 (by decide) hl hhi.1 (by decide), if_neg (by decide)]
    · rw [← cell_split_lo hi, hil, cell_vperm2i128 (by decide) hl hlo.1 (by decide), if_pos (by decide)]
  · -- in the high lane both the halves of the table and the nibbles are swapped
    obtain ⟨l, hl, hil⟩ : ∃ l, l < 16 ∧ i = 1 * 16 + l := ⟨i % 16, hmod, by omega⟩
    rw [pxor_comm]
    refine cell_lookup ht hi (fun d hd => ?_) (fun d hd => ?_) ?_ ?_
    · rw [h, Nat.one_mul]
    · rw [h, cell_vperm2i128 (by decide) hd htbl.2 (by decide), ite_self, Nat.zero_mod, Nat.zero_mul, Nat.zero_add]
    · rw [← cell_split_hi hi, hil, cell_vperm2i128 (by decide) hl hlo.2 (by decide), if_neg (by decide)]
    · rw [← cell_split_lo hi, hil, cell_vperm2i128 (by decide) hl hhi.2 (by decide), if_pos (by decide)]

theorem mulAvx512_multiplies : mulAvx512.Multiplies := by
  intro c t x ht i hi
  have hlane : i / 16 < 4 := by omega
  have hsel : 0x55 / 4 ^ (i / 16) % 4 = 1 ∧ 0x00 / 4 ^ (i / 16) % 4 = 0 := by
    obtain h | h | h | h : i / 16 = 0 ∨ i / 16 = 1 ∨ i / 16 = 2 ∨ i / 16 = 3 := by omega
    all_goals rw [h]; decide
  refine cell_lookup ht hi (fun d hd => ?_) (fun d hd => ?_) (cell_split_hi hi) (cell_split_lo hi)
  · rw [cell_vshufi64x2 hlane hd hsel.1, ite_self, cell_ofFn _ (by omega)]
  · rw [cell_vshufi64x2 hlane hd hsel.2, ite_self, cell_ofFn _ (by omega)]
    exact congrArg (cell t) (by dsimp only; omega)

end ErasureCode.Isal
