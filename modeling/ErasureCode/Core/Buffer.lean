import Mathlib.Data.Nat.Init
import Mathlib.Tactic.Ring
import ErasureCode.Core.Loop

/-!
# C arrays of a fixed length

An array of `N` elements is a `Vector α N`. A read `b[i]?` and a write
`wr b i x` outside the array are faults (`none`). `cell` and `upd` are their
total counterparts, for statements: inside the array they agree with the
checked operations (`rd_eq`, `wr_eq`).

`r * n + c` is the position of row `r`, column `c` in a matrix with `n`
columns stored row by row.
-/
namespace ErasureCode.Core

variable {α : Type} {N : Nat}

/-- The array with `x` at `i` (unchanged when `i` is outside). -/
def upd (b : Vector α N) (i : Nat) (x : α) : Vector α N := b.setIfInBounds i x

/-- `b[i] = x`. -/
def wr (b : Vector α N) (i : Nat) (x : α) : Option (Vector α N) :=
  if i < N then some (upd b i x) else none

theorem wr_none (b : Vector α N) {i : Nat} (h : N ≤ i) (x : α) : wr b i x = none := by
  simp [wr, Nat.not_lt.2 h]

theorem wr_eq (b : Vector α N) {i : Nat} (h : i < N) (x : α) : wr b i x = some (upd b i x) := by
  simp [wr, h]

variable [Inhabited α]

/-- The element at `i`; the default outside. -/
def cell (b : Vector α N) (i : Nat) : α := b[i]?.getD default

theorem rd_eq (b : Vector α N) {i : Nat} (h : i < N) : b[i]? = some (cell b i) := by
  simp [cell, h]

theorem cell_eq_getElem (b : Vector α N) {i : Nat} (h : i < N) : cell b i = b[i] := by
  simp [cell, h]

theorem cell_upd_self (b : Vector α N) {i : Nat} (h : i < N) (x : α) : cell (upd b i x) i = x := by
  simp [cell, upd, h]

theorem cell_upd_ne (b : Vector α N) {i j : Nat} (h : i ≠ j) (x : α) :
    cell (upd b i x) j = cell b j := by
  simp [cell, upd, h]

theorem buffer_ext {b b' : Vector α N} (h : ∀ i, i < N → cell b i = cell b' i) : b = b' := by
  apply Vector.ext
  intro i hi
  rw [← cell_eq_getElem b hi, ← cell_eq_getElem b' hi, h i hi]

/-! ## Row-major positions -/

theorem pos_lt {r c R n : Nat} (hr : r < R) (hc : c < n) : r * n + c < R * n := by
  have h1 : (r + 1) * n ≤ R * n := Nat.mul_le_mul_right n hr
  rw [Nat.succ_mul] at h1
  omega

theorem pos_inj {r c r' c' n : Nat} (hc : c < n) (hc' : c' < n) (h : r * n + c = r' * n + c') :
    r = r' ∧ c = c' := by
  have hn : 0 < n := by omega
  have h1 : (r * n + c) / n = r := by
    rw [Nat.mul_comm, Nat.mul_add_div hn, Nat.div_eq_of_lt hc, Nat.add_zero]
  have h2 : (r' * n + c') / n = r' := by
    rw [Nat.mul_comm, Nat.mul_add_div hn, Nat.div_eq_of_lt hc', Nat.add_zero]
  have hr : r = r' := by rw [← h1, h, h2]
  subst hr
  exact ⟨rfl, by omega⟩

/-- Every position below `R * n` is that of one row and one column. -/
theorem pos_surj {x R n : Nat} (h : x < R * n) : ∃ r c, r < R ∧ c < n ∧ x = r * n + c := by
  have hn : 0 < n := Nat.pos_of_ne_zero fun e => by simp [e] at h
  refine ⟨x / n, x % n, (Nat.div_lt_iff_lt_mul hn).2 h, Nat.mod_lt x hn, ?_⟩
  rw [Nat.mul_comm]
  exact (Nat.div_add_mod x n).symm

end ErasureCode.Core
