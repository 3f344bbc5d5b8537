import ErasureCode.Core.CInt
import ErasureCode.Core.Run

/-!
# The indices of a stepped loop

`TakesIndex bound step i l`: the loop
`for (size_t index = i; index < bound; index += step)`, its rounds taken one
after another, ends, and `l` lists the values of `index`. The addition wraps, so
a loop whose bound is close to 2^64 need not end.

`takesIndex_iff`: when the multiples of `step` listed do not wrap, the loop goes
through them exactly if the bound is past the last and not past the next.
`forStep_eq_run`: the parallel loop, whose rounds are counted before the first,
goes through `multiples step (ceil (bound / step))`.
-/
namespace ErasureCode.Core

/-- `0, step, 2 * step, ..`, `count` of them. -/
def multiples (step count : Nat) : List Nat := List.range' 0 count step

inductive TakesIndex (bound step : Nat) : Nat → List Nat → Prop where
  | exit {index : Nat} (h : bound ≤ index) : TakesIndex bound step index []
  | round {index : Nat} {l : List Nat} (h : index < bound) (hl : TakesIndex bound step (addSize index step) l) :
      TakesIndex bound step index (index :: l)

variable {σ : Type} {bound step count index : Nat} {l : List Nat}

theorem takesIndex_nil : TakesIndex bound step index [] ↔ bound ≤ index := by
  constructor
  · intro h
    cases h with
    | exit h => exact h
  · exact .exit

theorem takesIndex_cons :
    TakesIndex bound step index (index :: l) ↔ index < bound ∧ TakesIndex bound step (addSize index step) l := by
  constructor
  · intro h
    cases h with
    | round h hl => exact ⟨h, hl⟩
  · exact fun ⟨h, hl⟩ => .round h hl

theorem takesIndex_range' (hw : index + count * step < 2 ^ 64) :
    TakesIndex bound step index (List.range' index count step) ↔
      bound ≤ index + count * step ∧ (0 < count → index + (count - 1) * step < bound) := by
  induction count generalizing index with
  | zero => simp [takesIndex_nil]
  | succ count ih =>
    rw [Nat.succ_mul] at hw
    rw [List.range'_succ, takesIndex_cons, addSize_eq (by omega), ih (by omega), Nat.succ_mul]
    cases count with
    | zero => simp; omega
    | succ count =>
      have : (count + 1) * step = count * step + step := Nat.succ_mul count step
      simp only [Nat.add_sub_cancel, this]
      omega

/-- The loop takes `count` multiples exactly if the bound lies between the last
and the next. -/
theorem takesIndex_iff (hw : count * step < 2 ^ 64) :
    TakesIndex bound step 0 (multiples step count) ↔
      bound ≤ count * step ∧ (0 < count → (count - 1) * step < bound) := by
  have h := @takesIndex_range' bound step count 0 (by omega)
  simp only [Nat.zero_add] at h
  exact h

/-- The number of multiples below a bound. -/
theorem ceil_eq_iff (h : 0 < step) :
    (bound + step - 1) / step = count ↔ bound ≤ count * step ∧ (0 < count → (count - 1) * step < bound) := by
  rw [Nat.div_eq_iff h]
  cases count with
  | zero =>
    simp only [Nat.zero_mul, Nat.lt_irrefl, false_imp_iff, and_true]
    omega
  | succ c =>
    have : (c + 1) * step = c * step + step := Nat.succ_mul c step
    simp only [Nat.add_sub_cancel, Nat.succ_pos, true_imp_iff]
    omega

/-- Taken one after another or counted first, the rounds are the same. -/
theorem takesIndex_iff_ceil (h : 0 < step) (hw : count * step < 2 ^ 64) :
    TakesIndex bound step 0 (multiples step count) ↔ (bound + step - 1) / step = count := by
  rw [takesIndex_iff hw, ceil_eq_iff h]

/-- A run over multiples counts the rounds. -/
theorem run_multiples (s : σ) (body : Nat → σ → Option σ) :
    run body (multiples step count) s = forUp 0 count s fun b s => body (b * step) s := by
  have hmap : multiples step count = (List.range count).map (· * step) := by
    induction count with
    | zero => rfl
    | succ c ih =>
      rw [multiples, List.range'_concat, ← multiples, ih, List.range_succ, List.map_append, Nat.zero_add,
        Nat.mul_comm step]
      rfl
  rw [hmap, run_map, run_range]

/-- The parallel loop, as the run of its indices. -/
theorem forStep_eq_run (h : 0 < step) (s : σ) (body : Nat → σ → Option σ) :
    forStep bound step s body = run body (multiples step ((bound + step - 1) / step)) s := by
  rw [forStep_eq h, run_multiples]

end ErasureCode.Core
