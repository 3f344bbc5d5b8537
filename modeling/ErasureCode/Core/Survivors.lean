import Mathlib.Data.Nat.Nth

/-!
# The indices outside a finite set, in order

`survivor E i` is the `i`-th smallest index outside `E`. A scan that skips
the members of `E` meets them in this order (`survivor_next`): the number of
outside indices already passed, `passed E r`, says which one comes next.
-/
namespace ErasureCode.Core

/-- The `i`-th smallest index outside `E`. -/
noncomputable def survivor (E : Finset Nat) (i : Nat) : Nat := Nat.nth (fun r => r ∉ E) i

/-- How many indices below `r` are outside `E`. -/
def passed (E : Finset Nat) (r : Nat) : Nat := Nat.count (fun r => r ∉ E) r

variable {E : Finset Nat}

theorem outside_infinite (E : Finset Nat) : (Set.ofPred fun r => r ∉ E).Infinite :=
  E.finite_toSet.infinite_compl

theorem survivor_not_mem (E : Finset Nat) (i : Nat) : survivor E i ∉ E :=
  Nat.nth_mem_of_infinite (outside_infinite E) i

theorem survivor_inj {i j : Nat} (h : survivor E i = survivor E j) : i = j :=
  Nat.nth_injective (outside_infinite E) h

theorem survivor_strictMono (E : Finset Nat) : StrictMono (survivor E) :=
  Nat.nth_strictMono (outside_infinite E)

theorem survivor_lt_iff {i m : Nat} : survivor E i < m ↔ i < passed E m :=
  (Nat.lt_nth_iff_count_lt (outside_infinite E)).symm

theorem passed_eq_card (E : Finset Nat) (m : Nat) : passed E m = (Finset.range m \ E).card := by
  rw [passed, Nat.count_eq_card_filter_range, Finset.sdiff_eq_filter]

/-- `m` indices, `k` of them survivors of any `m - k` erasures. -/
theorem le_passed {k m : Nat} (hE : E.card + k ≤ m) : k ≤ passed E m := by
  rw [passed_eq_card]
  have := Finset.le_card_sdiff E (Finset.range m)
  rw [Finset.card_range] at this
  omega

theorem passed_mono {m m' : Nat} (h : m ≤ m') : passed E m ≤ passed E m' := Nat.count_monotone _ h

/-- An index outside `E` is the survivor that comes after those it has passed. -/
theorem survivor_passed {r : Nat} (hr : r ∉ E) : survivor E (passed E r) = r :=
  Nat.nth_count (p := fun r => r ∉ E) hr

theorem passed_survivor (E : Finset Nat) (i : Nat) : passed E (survivor E i + 1) = i + 1 :=
  Nat.count_nth_succ_of_infinite (outside_infinite E) i

theorem passed_zero : passed E 0 = 0 := Nat.count_zero _

/-- The first outside index from `r` on is the next survivor. -/
theorem survivor_next {i r r' : Nat} (hi : passed E r = i) (hr : r ≤ r')
    (hskip : ∀ j, r ≤ j → j < r' → j ∈ E) (hr' : r' ∉ E) :
    survivor E i = r' ∧ passed E (r' + 1) = i + 1 := by
  have hp : passed E r' = i := by
    obtain ⟨c, rfl⟩ := Nat.exists_eq_add_of_le hr
    clear hr hr'
    induction c with
    | zero => exact hi
    | succ c ih =>
      have hc := hskip (r + c) (by omega) (by omega)
      rw [passed, ← Nat.add_assoc, Nat.count_succ, if_neg (by simpa using hc)]
      exact ih fun j h1 h2 => hskip j h1 (by omega)
  refine ⟨?_, ?_⟩
  · rw [← hp, survivor_passed hr']
  · rw [passed, Nat.count_succ, if_pos hr']
    exact congrArg (· + 1) hp

end ErasureCode.Core
