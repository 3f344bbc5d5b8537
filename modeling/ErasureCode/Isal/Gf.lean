import Mathlib.Algebra.Field.Basic
import Mathlib.Algebra.CharP.Two
import Mathlib.Logic.Function.Iterate
import Mathlib.Tactic.Ring

/-!
# GF(2^8) as ISA-L computes it

`gf_mul` and `gf_inv` (`lib/isa-l/erasure_code/ec_base.c:47-71`) go through
two 256-byte tables, the powers of 2 modulo `0x11d` and their logarithms.
The build does not define `GF_LARGE_TABLES`, so these are the bodies used.

The field laws come from one observation: for `a ≠ 0`, multiplying by `a` is
`log a` applications of "multiply by 2" (`mulTwo`), which is additive
(`gfMul_eq_iterate`). Only two facts about the tables are checked entry by
entry: each entry of `gffBase` is `mulTwo` of the one before
(`gffBase_step`), and `gffBase` undoes `gflogBase` (`gffBase_log`).

`GF256` wraps a byte, so that `+` can be exclusive or; it is a `Field`.
-/
namespace ErasureCode.Isal

/-- mirrors lib/isa-l/erasure_code/ec_base.h:35-62 -/
def gffBase : List UInt8 := [
  0x01, 0x02, 0x04, 0x08, 0x10, 0x20, 0x40, 0x80, 0x1d, 0x3a, 0x74, 0xe8,
  0xcd, 0x87, 0x13, 0x26, 0x4c, 0x98, 0x2d, 0x5a, 0xb4, 0x75, 0xea, 0xc9,
  0x8f, 0x03, 0x06, 0x0c, 0x18, 0x30, 0x60, 0xc0, 0x9d, 0x27, 0x4e, 0x9c,
  0x25, 0x4a, 0x94, 0x35, 0x6a, 0xd4, 0xb5, 0x77, 0xee, 0xc1, 0x9f, 0x23,
  0x46, 0x8c, 0x05, 0x0a, 0x14, 0x28, 0x50, 0xa0, 0x5d, 0xba, 0x69, 0xd2,
  0xb9, 0x6f, 0xde, 0xa1, 0x5f, 0xbe, 0x61, 0xc2, 0x99, 0x2f, 0x5e, 0xbc,
  0x65, 0xca, 0x89, 0x0f, 0x1e, 0x3c, 0x78, 0xf0, 0xfd, 0xe7, 0xd3, 0xbb,
  0x6b, 0xd6, 0xb1, 0x7f, 0xfe, 0xe1, 0xdf, 0xa3, 0x5b, 0xb6, 0x71, 0xe2,
  0xd9, 0xaf, 0x43, 0x86, 0x11, 0x22, 0x44, 0x88, 0x0d, 0x1a, 0x34, 0x68,
  0xd0, 0xbd, 0x67, 0xce, 0x81, 0x1f, 0x3e, 0x7c, 0xf8, 0xed, 0xc7, 0x93,
  0x3b, 0x76, 0xec, 0xc5, 0x97, 0x33, 0x66, 0xcc, 0x85, 0x17, 0x2e, 0x5c,
  0xb8, 0x6d, 0xda, 0xa9, 0x4f, 0x9e, 0x21, 0x42, 0x84, 0x15, 0x2a, 0x54,
  0xa8, 0x4d, 0x9a, 0x29, 0x52, 0xa4, 0x55, 0xaa, 0x49, 0x92, 0x39, 0x72,
  0xe4, 0xd5, 0xb7, 0x73, 0xe6, 0xd1, 0xbf, 0x63, 0xc6, 0x91, 0x3f, 0x7e,
  0xfc, 0xe5, 0xd7, 0xb3, 0x7b, 0xf6, 0xf1, 0xff, 0xe3, 0xdb, 0xab, 0x4b,
  0x96, 0x31, 0x62, 0xc4, 0x95, 0x37, 0x6e, 0xdc, 0xa5, 0x57, 0xae, 0x41,
  0x82, 0x19, 0x32, 0x64, 0xc8, 0x8d, 0x07, 0x0e, 0x1c, 0x38, 0x70, 0xe0,
  0xdd, 0xa7, 0x53, 0xa6, 0x51, 0xa2, 0x59, 0xb2, 0x79, 0xf2, 0xf9, 0xef,
  0xc3, 0x9b, 0x2b, 0x56, 0xac, 0x45, 0x8a, 0x09, 0x12, 0x24, 0x48, 0x90,
  0x3d, 0x7a, 0xf4, 0xf5, 0xf7, 0xf3, 0xfb, 0xeb, 0xcb, 0x8b, 0x0b, 0x16,
  0x2c, 0x58, 0xb0, 0x7d, 0xfa, 0xe9, 0xcf, 0x83, 0x1b, 0x36, 0x6c, 0xd8,
  0xad, 0x47, 0x8e, 0x01]

/-- mirrors lib/isa-l/erasure_code/ec_base.h:64-91 -/
def gflogBase : List UInt8 := [
  0x00, 0xff, 0x01, 0x19, 0x02, 0x32, 0x1a, 0xc6, 0x03, 0xdf, 0x33, 0xee,
  0x1b, 0x68, 0xc7, 0x4b, 0x04, 0x64, 0xe0, 0x0e, 0x34, 0x8d, 0xef, 0x81,
  0x1c, 0xc1, 0x69, 0xf8, 0xc8, 0x08, 0x4c, 0x71, 0x05, 0x8a, 0x65, 0x2f,
  0xe1, 0x24, 0x0f, 0x21, 0x35, 0x93, 0x8e, 0xda, 0xf0, 0x12, 0x82, 0x45,
  0x1d, 0xb5, 0xc2, 0x7d, 0x6a, 0x27, 0xf9, 0xb9, 0xc9, 0x9a, 0x09, 0x78,
  0x4d, 0xe4, 0x72, 0xa6, 0x06, 0xbf, 0x8b, 0x62, 0x66, 0xdd, 0x30, 0xfd,
  0xe2, 0x98, 0x25, 0xb3, 0x10, 0x91, 0x22, 0x88, 0x36, 0xd0, 0x94, 0xce,
  0x8f, 0x96, 0xdb, 0xbd, 0xf1, 0xd2, 0x13, 0x5c, 0x83, 0x38, 0x46, 0x40,
  0x1e, 0x42, 0xb6, 0xa3, 0xc3, 0x48, 0x7e, 0x6e, 0x6b, 0x3a, 0x28, 0x54,
  0xfa, 0x85, 0xba, 0x3d, 0xca, 0x5e, 0x9b, 0x9f, 0x0a, 0x15, 0x79, 0x2b,
  0x4e, 0xd4, 0xe5, 0xac, 0x73, 0xf3, 0xa7, 0x57, 0x07, 0x70, 0xc0, 0xf7,
  0x8c, 0x80, 0x63, 0x0d, 0x67, 0x4a, 0xde, 0xed, 0x31, 0xc5, 0xfe, 0x18,
  0xe3, 0xa5, 0x99, 0x77, 0x26, 0xb8, 0xb4, 0x7c, 0x11, 0x44, 0x92, 0xd9,
  0x23, 0x20, 0x89, 0x2e, 0x37, 0x3f, 0xd1, 0x5b, 0x95, 0xbc, 0xcf, 0xcd,
  0x90, 0x87, 0x97, 0xb2, 0xdc, 0xfc, 0xbe, 0x61, 0xf2, 0x56, 0xd3, 0xab,
  0x14, 0x2a, 0x5d, 0x9e, 0x84, 0x3c, 0x39, 0x53, 0x47, 0x6d, 0x41, 0xa2,
  0x1f, 0x2d, 0x43, 0xd8, 0xb7, 0x7b, 0xa4, 0x76, 0xc4, 0x17, 0x49, 0xec,
  0x7f, 0x0c, 0x6f, 0xf6, 0x6c, 0xa1, 0x3b, 0x52, 0x29, 0x9d, 0x55, 0xaa,
  0xfb, 0x60, 0x86, 0xb1, 0xbb, 0xcc, 0x3e, 0x5a, 0xcb, 0x59, 0x5f, 0xb0,
  0x9c, 0xa9, 0xa0, 0x51, 0x0b, 0xf5, 0x16, 0xeb, 0x7a, 0x75, 0x2c, 0xd7,
  0x4f, 0xae, 0xd5, 0xe9, 0xe6, 0xe7, 0xad, 0xe8, 0x74, 0xd6, 0xf4, 0xea,
  0xa8, 0x50, 0x58, 0xaf]

/-- mirrors lib/isa-l/erasure_code/ec_base.c:47-59 -/
def gfMul (a b : UInt8) : UInt8 :=
  if a = 0 ∨ b = 0 then 0
  else
    let i := (gflogBase.getD a.toNat 0).toNat + (gflogBase.getD b.toNat 0).toNat
    gffBase.getD (if i > 254 then i - 255 else i) 0

/-- mirrors lib/isa-l/erasure_code/ec_base.c:61-71 -/
def gfInv (a : UInt8) : UInt8 :=
  if a = 0 then 0 else gffBase.getD (255 - (gflogBase.getD a.toNat 0).toNat) 0

/-- "Mult by GF{2}" of `gf_vect_mul_init`: one shift, reduced by `0x11d`.
mirrors lib/isa-l/erasure_code/ec_base.c:170 -/
def mulTwo (c : UInt8) : UInt8 := (c <<< 1) ^^^ (if c &&& 0x80 ≠ 0 then 0x1d else 0)

/-! ## Multiplication by 2 -/

theorem and80 : ∀ c : Fin 256, UInt8.ofNat c.val &&& 0x80 = 0 ∨ UInt8.ofNat c.val &&& 0x80 = 0x80 := by
  decide +kernel

theorem and80_cases (c : UInt8) : c &&& 0x80 = 0 ∨ c &&& 0x80 = 0x80 := by
  have h := and80 ⟨c.toNat, c.toNat_lt⟩
  simpa using h

theorem mulTwo_zero : mulTwo 0 = 0 := by decide

theorem xor_and (a b c : UInt8) : (a ^^^ b) &&& c = (a &&& c) ^^^ (b &&& c) := by
  apply UInt8.toBitVec_inj.1
  ext i hi
  simp [Bool.and_xor_distrib_right]

theorem mulTwo_xor (a b : UInt8) : mulTwo (a ^^^ b) = mulTwo a ^^^ mulTwo b := by
  unfold mulTwo
  rw [UInt8.shiftLeft_xor, xor_and]
  generalize a <<< 1 = x
  generalize b <<< 1 = y
  have hc : ∀ u v : UInt8, x ^^^ y ^^^ (u ^^^ v) = x ^^^ u ^^^ (y ^^^ v) := fun u v => by
    rw [UInt8.xor_assoc x u, ← UInt8.xor_assoc u, UInt8.xor_comm u y, UInt8.xor_assoc y,
      ← UInt8.xor_assoc x]
  rw [← hc]
  rcases and80_cases a with ha | ha <;> rcases and80_cases b with hb | hb <;> rw [ha, hb] <;> rfl

theorem mulTwo_iterate_zero (n : Nat) : mulTwo^[n] 0 = 0 :=
  Function.iterate_fixed mulTwo_zero n

theorem mulTwo_iterate_xor (n : Nat) (a b : UInt8) :
    mulTwo^[n] (a ^^^ b) = mulTwo^[n] a ^^^ mulTwo^[n] b := by
  induction n with
  | zero => rfl
  | succ n ih => simp only [Function.iterate_succ_apply', ih, mulTwo_xor]

/-! ## The tables -/

theorem gffBase_step : gffBase.tail = gffBase.dropLast.map mulTwo := by decide +kernel

theorem gflogBase_ne_zero : ∀ l ∈ gflogBase.tail, l ≠ 0 := by decide +kernel

/-- `gffBase` at the logarithm of `i` is `i`, for the bytes 1, ..., 255. -/
theorem gffBase_gflogBase :
    gflogBase.tail.map (fun l => gffBase[l.toNat]?) =
      (List.range' 1 255).map (fun i => some (UInt8.ofNat i)) := by
  decide +kernel

/-- The logarithm of a nonzero byte, as the table has it (`log 1` is 255). -/
def log (a : UInt8) : Nat := (gflogBase.getD a.toNat 0).toNat

/-- The power of 2 with exponent `i`, periodic in `i`. -/
def exp (i : Nat) : UInt8 := gffBase.getD (i % 255) 0

theorem gffBase_length : gffBase.length = 256 := by decide +kernel
theorem gflogBase_length : gflogBase.length = 256 := by decide +kernel

theorem gffBase_getD {i : Nat} (h : i ≤ 255) : gffBase.getD i 0 = exp i := by
  unfold exp
  rcases Nat.lt_or_eq_of_le h with h | rfl
  · rw [Nat.mod_eq_of_lt h]
  · decide

theorem exp_add_period (i : Nat) : exp (i + 255) = exp i := by simp [exp]

theorem gffBase_succ {i : Nat} (h : i < 255) : gffBase.getD (i + 1) 0 = mulTwo (gffBase.getD i 0) := by
  have hs := congrArg (fun l => l[i]?) gffBase_step
  simp only [List.getElem?_tail, List.getElem?_map, List.getElem?_dropLast, gffBase_length,
    if_pos (show i < 256 - 1 from h)] at hs
  have hi : i < gffBase.length := by rw [gffBase_length]; omega
  simp only [List.getD_eq_getElem?_getD, hs, List.getElem?_eq_getElem hi, Option.map_some,
    Option.getD_some]

theorem exp_succ (i : Nat) : exp (i + 1) = mulTwo (exp i) := by
  have hm : i % 255 < 255 := Nat.mod_lt _ (by decide)
  have h1 : exp (i + 1) = exp (i % 255 + 1) := by unfold exp; rw [Nat.mod_add_mod]
  rw [h1, ← gffBase_getD (by omega), gffBase_succ hm]; rfl

theorem exp_add (i j : Nat) : exp (i + j) = mulTwo^[i] (exp j) := by
  induction i with
  | zero => simp
  | succ i ih => rw [Function.iterate_succ_apply', ← ih, ← exp_succ]; congr 1; omega

theorem log_le (a : UInt8) : log a ≤ 255 := by
  have := (gflogBase.getD a.toNat 0).toNat_lt
  unfold log; omega

theorem gffBase_log {a : UInt8} (h : a ≠ 0) : 1 ≤ log a ∧ exp (log a) = a := by
  have h0 : a.toNat ≠ 0 := fun e => h (UInt8.toNat_inj.1 e)
  obtain ⟨i, hi⟩ : ∃ i, a.toNat = i + 1 := ⟨a.toNat - 1, by omega⟩
  have hlt := a.toNat_lt
  have hl : i < gflogBase.tail.length := by rw [List.length_tail, gflogBase_length]; omega
  have hlog : gflogBase.getD a.toNat 0 = gflogBase.tail[i] := by
    rw [List.getElem_tail, hi, List.getD_eq_getElem?_getD, List.getElem?_eq_getElem, Option.getD_some]
  refine ⟨?_, ?_⟩
  · have hne := gflogBase_ne_zero _ (List.getElem_mem hl)
    rw [← hlog] at hne
    exact Nat.one_le_iff_ne_zero.2 fun e => hne (UInt8.toNat_inj.1 e)
  · have hs := congrArg (fun l => l[i]?) gffBase_gflogBase
    simp only [List.getElem?_map, List.getElem?_eq_getElem hl, Option.map_some, ← hlog,
      List.getElem?_range' (show i < 255 by omega), Nat.one_mul] at hs
    rw [← gffBase_getD (log_le a), log, List.getD_eq_getElem?_getD, Option.some.inj hs,
      Option.getD_some, Nat.add_comm, ← hi, UInt8.ofNat_toNat]

/-! ## Multiplication and inverse -/

theorem gfMul_zero (a : UInt8) : gfMul a 0 = 0 := by simp [gfMul]

theorem gfMul_comm (a b : UInt8) : gfMul a b = gfMul b a := by
  unfold gfMul
  rw [Nat.add_comm]
  simp only [or_comm]

theorem gfMul_eq_exp {a b : UInt8} (ha : a ≠ 0) (hb : b ≠ 0) : gfMul a b = exp (log a + log b) := by
  have h1 := log_le a
  have h2 := log_le b
  have hu : gfMul a b = gffBase.getD (if log a + log b > 254 then log a + log b - 255
      else log a + log b) 0 := by simp [gfMul, ha, hb, log]
  rw [hu]
  split
  · rw [gffBase_getD (by omega), ← exp_add_period, Nat.sub_add_cancel (by omega)]
  · rw [gffBase_getD (by omega)]

/-- Multiplying by `a ≠ 0` is doubling `log a` times. -/
theorem gfMul_eq_iterate {a : UInt8} (ha : a ≠ 0) (b : UInt8) : gfMul a b = mulTwo^[log a] b := by
  by_cases hb : b = 0
  · rw [hb, gfMul_zero, mulTwo_iterate_zero]
  · rw [gfMul_eq_exp ha hb, exp_add, (gffBase_log hb).2]

theorem one_gfMul (b : UInt8) : gfMul 1 b = b := by
  by_cases hb : b = 0
  · rw [hb, gfMul_zero]
  · have hl : log 1 = 255 := by decide
    rw [gfMul_eq_exp (by decide) hb, hl, Nat.add_comm, exp_add_period, (gffBase_log hb).2]

theorem gfMul_xor (a b c : UInt8) : gfMul a (b ^^^ c) = gfMul a b ^^^ gfMul a c := by
  by_cases ha : a = 0
  · simp [gfMul, ha]
  · simp only [gfMul_eq_iterate ha, mulTwo_iterate_xor]

/-- Two factors slide past each other: iterates of `mulTwo` commute. -/
theorem gfMul_left_comm (a b c : UInt8) : gfMul a (gfMul b c) = gfMul b (gfMul a c) := by
  by_cases ha : a = 0
  · simp [gfMul, ha]
  by_cases hb : b = 0
  · simp [gfMul, hb]
  simp only [gfMul_eq_iterate ha, gfMul_eq_iterate hb, ← Function.iterate_add_apply, Nat.add_comm]

theorem gfMul_assoc (a b c : UInt8) : gfMul (gfMul a b) c = gfMul a (gfMul b c) := by
  rw [gfMul_comm (gfMul a b) c, gfMul_left_comm c a b, gfMul_comm c b]

theorem gfInv_zero : gfInv 0 = 0 := by decide

theorem gfMul_gfInv {a : UInt8} (ha : a ≠ 0) : gfMul a (gfInv a) = 1 := by
  have hu : gfInv a = gffBase.getD (255 - log a) 0 := by simp [gfInv, ha, log]
  have h1 := (gffBase_log ha).1
  have h2 := log_le a
  rw [hu, gffBase_getD (by omega), gfMul_eq_iterate ha, ← exp_add, Nat.add_sub_cancel' h2]
  decide

/-! ## The field -/

/-- A byte read as an element of GF(2^8). -/
@[ext] structure GF256 where
  byte : UInt8
  deriving DecidableEq

namespace GF256

instance : Zero GF256 := ⟨⟨0⟩⟩
instance : One GF256 := ⟨⟨1⟩⟩
instance : Add GF256 := ⟨fun a b => ⟨a.byte ^^^ b.byte⟩⟩
instance : Neg GF256 := ⟨fun a => a⟩
instance : Mul GF256 := ⟨fun a b => ⟨gfMul a.byte b.byte⟩⟩
instance : Inv GF256 := ⟨fun a => ⟨gfInv a.byte⟩⟩

@[simp] theorem byte_zero : (0 : GF256).byte = 0 := rfl
@[simp] theorem byte_one : (1 : GF256).byte = 1 := rfl
@[simp] theorem byte_add (a b : GF256) : (a + b).byte = a.byte ^^^ b.byte := rfl
@[simp] theorem byte_neg (a : GF256) : (-a).byte = a.byte := rfl
@[simp] theorem byte_mul (a b : GF256) : (a * b).byte = gfMul a.byte b.byte := rfl
@[simp] theorem byte_inv (a : GF256) : (a⁻¹).byte = gfInv a.byte := rfl

@[simp] theorem mk_zero : (⟨0⟩ : GF256) = 0 := rfl
@[simp] theorem mk_one : (⟨1⟩ : GF256) = 1 := rfl
@[simp] theorem mk_xor (a b : UInt8) : (⟨a ^^^ b⟩ : GF256) = ⟨a⟩ + ⟨b⟩ := rfl
@[simp] theorem mk_gfMul (a b : UInt8) : (⟨gfMul a b⟩ : GF256) = ⟨a⟩ * ⟨b⟩ := rfl
@[simp] theorem mk_gfInv (a : UInt8) : (⟨gfInv a⟩ : GF256) = (⟨a⟩ : GF256)⁻¹ := rfl

instance : Field GF256 where
  add_assoc a b c := GF256.ext (UInt8.xor_assoc _ _ _)
  zero_add a := GF256.ext UInt8.zero_xor
  add_zero a := GF256.ext UInt8.xor_zero
  add_comm a b := GF256.ext (UInt8.xor_comm _ _)
  neg_add_cancel a := GF256.ext UInt8.xor_self
  left_distrib a b c := GF256.ext (gfMul_xor _ _ _)
  right_distrib a b c := GF256.ext (by
    simp only [byte_mul, byte_add, gfMul_comm _ c.byte, gfMul_xor])
  zero_mul a := GF256.ext (by simp [gfMul])
  mul_zero a := GF256.ext (gfMul_zero _)
  mul_assoc a b c := GF256.ext (gfMul_assoc _ _ _)
  one_mul a := GF256.ext (one_gfMul _)
  mul_one a := GF256.ext ((gfMul_comm _ _).trans (one_gfMul _))
  mul_comm a b := GF256.ext (gfMul_comm _ _)
  exists_pair_ne := ⟨0, 1, by decide⟩
  mul_inv_cancel a h := GF256.ext (gfMul_gfInv fun e => h (GF256.ext e))
  inv_zero := GF256.ext gfInv_zero
  nsmul := nsmulRec
  zsmul := zsmulRec
  nnqsmul := _
  qsmul := _

theorem sub_eq_add (a b : GF256) : a - b = a + b := rfl

end GF256

end ErasureCode.Isal
