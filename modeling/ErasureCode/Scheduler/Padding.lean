import Mathlib.Tactic.NormNum
import ErasureCode.Core.CInt

/-!
# The scheduler's sizes

The constructor of `scheduler` (`src/IsaEC.cpp:352-366`) pads `total_size` to
whole chunks and the chunks to whole stripes of `k`. It computes with 64-bit
sizes, but keeps the missing bytes of the last chunk, the number of chunks and
the number of missing chunks in `int`s.

`new_eq`: while chunk size and padded chunk count are below 2^31, the padded
size is `stripeNum` stripes, the least multiple of `k * chunk_size` that holds
the data.
-/
namespace ErasureCode

open ErasureCode.Core

/-- The sizes; the two pointers the class also has are what its methods return.
mirrors src/IsaEC.hpp:115-128 -/
structure Scheduler (k n : Nat) where
  total_size : Nat
  strip_len : Nat
  append_total_size : Nat
  append_len : Nat
  chunk_size : Nat
  deriving DecidableEq, Repr, Inhabited

namespace Scheduler

/-- mirrors src/IsaEC.cpp:352-366 -/
def new (k n total_size_ chunk_size_ : Nat) : Option (Scheduler k n) := do
  let chunk_size := if chunk_size_ = 2 ^ 64 - 1 then 1024 else chunk_size_
  -- the difference does not wrap
  let append_chunk := toInt (← modSize (chunk_size - (← modSize total_size_ chunk_size)) chunk_size)
  let chunk_num := toInt (← divSize (addSize total_size_ (toSize append_chunk)) chunk_size)
  let append_num ← remInt (← subInt k (← remInt chunk_num k)) k
  let append_len := addSize (mulSize (toSize append_num) chunk_size) (toSize append_chunk)
  let append_total_size := addSize total_size_ append_len
  let strip_len ← divSize append_total_size k
  return { total_size := total_size_, strip_len, append_total_size, append_len, chunk_size }

/-- Stripes of `k` chunks that hold `total_size` bytes. -/
def stripeNum (k chunk_size total_size : Nat) : Nat := (total_size + k * chunk_size - 1) / (k * chunk_size)

variable {k n chunk_size total_size : Nat}

/-- Padding the chunk, then the stripe. -/
theorem stripeNum_eq (hk : 0 < k) (hc : 0 < chunk_size) :
    ((total_size + chunk_size - 1) / chunk_size + k - 1) / k = stripeNum k chunk_size total_size :=
  ceil_ceil hc hk total_size

theorem total_le (hk : 0 < k) (hc : 0 < chunk_size) :
    total_size ≤ stripeNum k chunk_size total_size * (k * chunk_size) := by
  have h := add_padding (Nat.mul_pos hk hc) total_size
  rw [stripeNum, ← h]
  exact Nat.le_add_right _ _

theorem new_eq (n : Nat) (hk : 0 < k) (hk31 : k < 2 ^ 31) (hc : 0 < chunk_size) (hc31 : chunk_size < 2 ^ 31)
    (hpad : stripeNum k chunk_size total_size * k < 2 ^ 31) :
    new k n total_size chunk_size = some
      { total_size, chunk_size
        strip_len := stripeNum k chunk_size total_size * chunk_size
        append_total_size := stripeNum k chunk_size total_size * (k * chunk_size)
        append_len := stripeNum k chunk_size total_size * (k * chunk_size) - total_size } := by
  have hchunk := add_padding hc total_size
  have hnum := add_padding hk ((total_size + chunk_size - 1) / chunk_size)
  rw [stripeNum_eq hk hc] at hnum
  have hle := @total_le k chunk_size total_size hk hc
  generalize hS : stripeNum k chunk_size total_size = S at *
  generalize hA : (chunk_size - total_size % chunk_size) % chunk_size = A at *
  generalize hC : (total_size + chunk_size - 1) / chunk_size = C at *
  generalize hN : (k - C % k) % k = N at *
  have hA' : A < chunk_size := hA ▸ Nat.mod_lt _ hc
  have hN' : N < k := hN ▸ Nat.mod_lt _ hk
  have hmod := Nat.mod_lt C hk
  have htot : S * (k * chunk_size) = C * chunk_size + N * chunk_size := by
    rw [← Nat.mul_assoc, ← hnum, Nat.add_mul]
  have hlt : S * (k * chunk_size) < 2 ^ 62 := by
    rw [← Nat.mul_assoc]
    exact Nat.lt_of_lt_of_eq (Nat.mul_lt_mul'' hpad hc31) (by norm_num)
  unfold new
  rw [if_neg (by omega)]
  simp only [modSize_eq hc, divSize_eq hc, divSize_eq hk, Option.bind_eq_bind, Option.bind_some, hA]
  rw [toInt_eq (show A < 2 ^ 31 by omega), toSize_eq (show A < 2 ^ 64 by omega),
    addSize_eq (show total_size + A < 2 ^ 64 by omega), hchunk, Nat.mul_div_cancel _ hc,
    toInt_eq (show C < 2 ^ 31 by omega), remInt_eq hk, Option.bind_some, subInt_eq (by omega) hk31,
    Option.bind_some, remInt_eq hk, Option.bind_some, hN, toSize_eq (show N < 2 ^ 64 by omega)]
  rw [mulSize_eq (show N * chunk_size < 2 ^ 64 by omega), addSize_eq (show N * chunk_size + A < 2 ^ 64 by omega),
    addSize_eq (show total_size + (N * chunk_size + A) < 2 ^ 64 by omega),
    show total_size + (N * chunk_size + A) = S * (k * chunk_size) by omega,
    show S * (k * chunk_size) / k = S * chunk_size by
      rw [Nat.mul_left_comm, Nat.mul_div_cancel_left _ hk]]
  rw [show N * chunk_size + A = S * (k * chunk_size) - total_size by omega]
  rfl

end Scheduler

end ErasureCode
