import Mathlib.Data.Int.ModEq
import Mathlib.Tactic.NormNum
import ErasureCode.Core.Loop

/-!
# `int` and `size_t`

A 64-bit unsigned value and a nonnegative `int` are natural numbers, an `int`
in general is an integer. Storing a `size_t` in an `int` keeps the low 32 bits,
read as signed (`toInt`); using an `int` as a `size_t` extends the sign
(`toSize`). Sums, differences and products of 64-bit values wrap (`addSize`,
`subSize`, `mulSize`); an `int` result that does not fit is undefined behaviour
(`addInt`, `subInt`, `mulInt`), as is a division by zero (`divSize`, `modSize`,
`remInt`).

`forStep` is the OpenMP loop over a `size_t` index with a step; its number of
rounds is computed before the first.
-/
namespace ErasureCode.Core

/-- `int x = n;` for a `size_t n`. -/
def toInt (n : Nat) : Int := Int.bmod n (2 ^ 32)

/-- An `int` converted to `size_t`. -/
def toSize (x : Int) : Nat := (x % 2 ^ 64).toNat

/-- `a * b` for nonnegative `int`s. -/
def mulInt (a b : Nat) : Option Nat := if a * b < 2 ^ 31 then some (a * b) else none

/-- `a + b` for nonnegative `int`s. -/
def addInt (a b : Nat) : Option Nat := if a + b < 2 ^ 31 then some (a + b) else none

/-- `a - b` for `int`s. -/
def subInt (a b : Int) : Option Int := if -2 ^ 31 ≤ a - b ∧ a - b < 2 ^ 31 then some (a - b) else none

/-- `a % b` for `int`s; the sign is that of `a`. -/
def remInt (a b : Int) : Option Int := if b = 0 then none else some (a.tmod b)

def addSize (a b : Nat) : Nat := (a + b) % 2 ^ 64

def mulSize (a b : Nat) : Nat := a * b % 2 ^ 64

def subSize (a b : Nat) : Nat := toSize (a - b)

/-- `a / b` for unsigned values. -/
def divSize (a b : Nat) : Option Nat := if b = 0 then none else some (a / b)

/-- `a % b` for unsigned values. -/
def modSize (a b : Nat) : Option Nat := if b = 0 then none else some (a % b)

theorem toInt_eq {n : Nat} (h : n < 2 ^ 31) : toInt n = n :=
  Int.bmod_eq_of_le_mul_two (by omega) (by omega)

theorem toInt_le (n : Nat) : (toInt n).toNat ≤ n := by
  have hb : ∀ m : Nat, Int.bmod n m ≤ n := fun m => by
    have hmod : (n : Int) % m ≤ n := by exact_mod_cast Nat.mod_le n m
    rw [Int.bmod_def]
    split <;> omega
  exact Int.toNat_le.2 (hb _)

theorem toInt_lt (n : Nat) : toInt n < 2 ^ 31 :=
  Int.bmod_lt (by decide)

theorem neg_le_toInt (n : Nat) : -2 ^ 31 ≤ toInt n :=
  Int.le_bmod (by decide)

/-- Narrowing loses a multiple of 2^32. -/
theorem dvd_sub_toInt (n : Nat) : (2 ^ 32 : Int) ∣ n - toInt n :=
  Int.dvd_self_sub_bmod

theorem toSize_eq {n : Nat} (h : n < 2 ^ 64) : toSize n = n := by
  rw [toSize, Int.emod_eq_of_lt (by omega) (by exact_mod_cast h)]
  rfl

theorem mulInt_eq {a b : Nat} (h : a * b < 2 ^ 31) : mulInt a b = some (a * b) := if_pos h

theorem mulInt_some {a b x : Nat} (h : mulInt a b = some x) : a * b < 2 ^ 31 ∧ x = a * b := by
  unfold mulInt at h
  split at h
  · rename_i hlt
    cases h
    exact ⟨hlt, rfl⟩
  · cases h

theorem addInt_eq {a b : Nat} (h : a + b < 2 ^ 31) : addInt a b = some (a + b) := if_pos h

theorem subInt_eq {a b : Nat} (h : b ≤ a) (ha : a < 2 ^ 31) : subInt a b = some ((a - b : Nat) : Int) := by
  rw [subInt, if_pos (by omega), Int.ofNat_sub h]

theorem remInt_eq {a b : Nat} (h : 0 < b) : remInt a b = some ((a % b : Nat) : Int) := by
  rw [remInt, if_neg (by omega)]
  rfl

theorem addSize_eq {a b : Nat} (h : a + b < 2 ^ 64) : addSize a b = a + b := Nat.mod_eq_of_lt h

theorem mulSize_eq {a b : Nat} (h : a * b < 2 ^ 64) : mulSize a b = a * b := Nat.mod_eq_of_lt h

/-- In `size_t` arithmetic a negative `int` counts like the integer it is. -/
theorem toSize_emod (x : Int) : (toSize x : Int) ≡ x [ZMOD 2 ^ 64] := by
  rw [toSize, Int.toNat_of_nonneg (Int.emod_nonneg _ (by decide))]
  exact Int.mod_modEq x _

theorem addSize_emod (a b : Nat) : (addSize a b : Int) = ((a : Int) + b) % 2 ^ 64 := by
  rw [addSize]
  push_cast
  rfl

theorem mulSize_emod (a b : Nat) : (mulSize a b : Int) ≡ a * b [ZMOD 2 ^ 64] := by
  rw [mulSize]
  push_cast
  exact Int.mod_modEq _ _

theorem subSize_eq {a b : Nat} (h : b ≤ a) (ha : a < 2 ^ 64) : subSize a b = a - b := by
  rw [subSize, ← Int.ofNat_sub h, toSize_eq (by omega)]

/-- A difference below zero wraps past what it is taken from. -/
theorem lt_subSize {a b : Nat} (h : a < b) (hb : b < 2 ^ 64) : a < subSize a b := by
  rw [subSize, toSize]
  omega

theorem divSize_eq {a b : Nat} (h : 0 < b) : divSize a b = some (a / b) := if_neg (Nat.ne_of_gt h)

theorem modSize_eq {a b : Nat} (h : 0 < b) : modSize a b = some (a % b) := if_neg (Nat.ne_of_gt h)

/-! ## Rounding up -/

/-- A multiple is not rounded. -/
theorem ceil_mul {d : Nat} (h : 0 < d) (B : Nat) : (B * d + d - 1) / d = B := by
  rw [show B * d + d - 1 = d - 1 + d * B by rw [Nat.mul_comm B]; omega, Nat.add_mul_div_left _ _ h,
    Nat.div_eq_of_lt (by omega), Nat.zero_add]

/-- Padding to the next multiple of `d`. -/
theorem add_padding {d : Nat} (h : 0 < d) (x : Nat) : x + (d - x % d) % d = (x + d - 1) / d * d := by
  have hx := Nat.div_add_mod x d
  have hm := Nat.mod_lt x h
  by_cases h0 : x % d = 0
  · have hq := ceil_mul h (x / d)
    rw [h0, Nat.add_zero, Nat.mul_comm] at hx
    rw [h0, Nat.sub_zero, Nat.mod_self, Nat.add_zero, ← hx, ceil_mul h, hx]
  · have hq : (x + d - 1) / d = x / d + 1 := by
      rw [show x + d - 1 = x % d - 1 + d * (x / d + 1) by rw [Nat.mul_add]; omega, Nat.add_mul_div_left _ _ h,
        Nat.div_eq_of_lt (by omega), Nat.zero_add]
    rw [Nat.mod_eq_of_lt (show d - x % d < d by omega), hq, Nat.add_mul, Nat.mul_comm (x / d)]
    omega

/-- Rounding up twice is rounding up to the product. -/
theorem ceil_ceil {c d : Nat} (hc : 0 < c) (hd : 0 < d) (x : Nat) :
    ((x + c - 1) / c + d - 1) / d = (x + d * c - 1) / (d * c) := by
  have hdc : c ≤ d * c := Nat.le_mul_of_pos_left c hd
  rw [Nat.mul_comm d c, ← Nat.div_div_eq_div_mul, Nat.add_sub_assoc hd, ← Nat.add_mul_div_left _ _ hc]
  congr 2
  rw [Nat.mul_sub_one]
  rw [Nat.mul_comm d c] at hdc
  omega

variable {σ : Type}

/-- `#pragma omp parallel for` over `for (size_t index = 0; index < bound; index += step)`,
its rounds in order. Their number is that of the loop as written; a compiler's count
in 64 bits, which wraps where `bound + step - 1` does, is left out. -/
def forStep (bound step : Nat) (s : σ) (body : Nat → σ → Option σ) : Option σ :=
  if step = 0 then none else forUp 0 ((bound + step - 1) / step) s fun b s => body (b * step) s

theorem forStep_eq {bound step : Nat} (h : 0 < step) (s : σ) (body : Nat → σ → Option σ) :
    forStep bound step s body = forUp 0 ((bound + step - 1) / step) s fun b s => body (b * step) s :=
  if_neg (Nat.ne_of_gt h)

end ErasureCode.Core
