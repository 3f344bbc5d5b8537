import Mathlib.LinearAlgebra.Lagrange
import Mathlib.LinearAlgebra.Matrix.NonsingularInverse
import Mathlib.Data.Matrix.ColumnRowPartitioned

/-!
# Systematic Cauchy codes

A linear code is given by its generator `G : Matrix ι κ F`: the word of the
data vector `d` is `G *ᵥ d`. `systematic x y` is the generator whose first
rows are the identity and whose other rows are the Cauchy rows
`(x p - y j)⁻¹`.

* `systematic_isUnit`: any `card κ` different rows of it are independent, so
  any `card κ` symbols of a word determine the word.
* `recover G σ w e` is the symbol at `e` of the only word that agrees with `w`
  at the positions `σ`. A row vector `D` with `D * B = G e`, `B` the rows at
  `σ`, computes it from these positions alone (`dot_eq_recover`).
-/
namespace ErasureCode.Core.Mds

open Polynomial Matrix

variable {F : Type} [Field F] {κ π ι : Type} [DecidableEq κ]

/-- The identity on top of the Cauchy matrix of `x` and `y`. -/
def systematic (x : π → F) (y : κ → F) : Matrix (κ ⊕ π) κ F :=
  Matrix.fromRows 1 (Matrix.of fun p j => (x p - y j)⁻¹)

/-! ## Any `card κ` rows are independent -/

/-- The numerator of `∑ j ∈ T, v j / (X - y j)`. -/
noncomputable def numerator (y : κ → F) (v : κ → F) (T : Finset κ) : F[X] :=
  ∑ j ∈ T, C (v j) * ∏ l ∈ T.erase j, (X - C (y l))

theorem numerator_degree_lt (y : κ → F) (v : κ → F) {T : Finset κ} (hT : T.Nonempty) :
    (numerator y v T).degree < T.card := by
  have hpos := hT.card_pos
  refine lt_of_le_of_lt (degree_sum_le _ _) ((Finset.sup_lt_iff (WithBot.bot_lt_coe _)).2 ?_)
  intro j hj
  rw [← smul_eq_C_mul]
  refine lt_of_le_of_lt (degree_smul_le _ _) ?_
  simp only [degree_prod, degree_X_sub_C, Finset.sum_const, nsmul_eq_mul, mul_one,
    Finset.card_erase_of_mem hj]
  exact_mod_cast Nat.sub_lt hpos Nat.one_pos

theorem numerator_eval_of_ne (y : κ → F) (v : κ → F) (T : Finset κ) {z : F}
    (hz : ∀ j ∈ T, z ≠ y j) :
    (numerator y v T).eval z = (∏ l ∈ T, (z - y l)) * ∑ j ∈ T, (z - y j)⁻¹ * v j := by
  simp only [numerator, eval_finsetSum, eval_mul, eval_C, eval_prod, eval_sub, eval_X,
    Finset.mul_sum]
  refine Finset.sum_congr rfl fun j hj => ?_
  have hne : z - y j ≠ 0 := sub_ne_zero.2 (hz j hj)
  rw [← Finset.mul_prod_erase T (fun l => z - y l) hj]
  field_simp

theorem numerator_eval_node (y : κ → F) (v : κ → F) {T : Finset κ} {j : κ} (hj : j ∈ T) :
    (numerator y v T).eval (y j) = v j * ∏ l ∈ T.erase j, (y j - y l) := by
  simp only [numerator, eval_finsetSum, eval_mul, eval_C, eval_prod, eval_sub, eval_X]
  refine Finset.sum_eq_single_of_mem j hj fun i hi hij => ?_
  rw [Finset.prod_eq_zero (Finset.mem_erase.2 ⟨Ne.symm hij, hj⟩) (sub_self _), mul_zero]

/-- As many zeros of `∑ j ∈ T, v j / (X - y j)` as poles: `v` vanishes on `T`. -/
theorem eq_zero_of_cauchy {P : Finset ι} {x : ι → F} {y : κ → F} (v : κ → F) {T : Finset κ}
    (hx : Set.InjOn x P) (hy : Function.Injective y) (hxy : ∀ p ∈ P, ∀ j ∈ T, x p ≠ y j)
    (hc : T.card ≤ P.card) (hz : ∀ p ∈ P, ∑ j ∈ T, (x p - y j)⁻¹ * v j = 0) :
    ∀ j ∈ T, v j = 0 := by
  intro j hj
  have h0 : numerator y v T = 0 := by
    refine eq_zero_of_degree_lt_of_eval_index_eq_zero P hx
      (lt_of_lt_of_le (numerator_degree_lt y v ⟨j, hj⟩) (by exact_mod_cast hc)) fun p hp => ?_
    rw [numerator_eval_of_ne y v T (hxy p hp), hz p hp, mul_zero]
  have hj0 := numerator_eval_node y v hj
  rw [h0, eval_zero] at hj0
  refine (mul_eq_zero.1 hj0.symm).resolve_right (Finset.prod_ne_zero_iff.2 fun l hl => ?_)
  exact sub_ne_zero.2 fun e => (Finset.mem_erase.1 hl).1 (hy e).symm

section
variable [Fintype κ] {x : π → F} {y : κ → F} {σ : κ → κ ⊕ π}

/-- The columns whose identity row is not among the rows `σ`. -/
def missing (σ : κ → κ ⊕ π) : Finset κ := {j | ∀ i, (σ i).getLeft? ≠ some j}

/-- The selected Cauchy rows. -/
def parity (σ : κ → κ ⊕ π) : Finset κ := {i | (σ i).isRight}

/-- Each selected identity row accounts for one column. -/
theorem card_missing_le (hσ : Function.Injective σ) : (missing σ).card ≤ (parity σ).card := by
  rw [← Nat.sub_le_sub_iff_left (Finset.card_le_univ (missing σ)), ← Finset.card_compl,
    ← Finset.card_compl]
  refine Finset.card_le_card_of_injOn (fun i => (σ i).elim id fun _ => i) ?_ ?_
  · intro i hi
    have hl : ¬ (σ i).isRight := by simpa [parity] using hi
    cases hs : σ i with
    | inl j => simpa [missing, hs] using ⟨i, by simp [hs]⟩
    | inr p => simp [hs] at hl
  · intro i hi i' hi' e
    have hl : ¬ (σ i).isRight := by simpa [parity] using hi
    have hl' : ¬ (σ i').isRight := by simpa [parity] using hi'
    cases hs : σ i with
    | inr p => simp [hs] at hl
    | inl j =>
      cases hs' : σ i' with
      | inr p => simp [hs'] at hl'
      | inl j' =>
        apply hσ
        simp only [hs, hs', Sum.elim_inl, id] at e
        rw [hs, hs', e]

/-- Any `card κ` different rows of the generator are independent. -/
theorem systematic_isUnit (hx : Function.Injective x) (hy : Function.Injective y)
    (hxy : ∀ p j, x p ≠ y j) (hσ : Function.Injective σ) :
    IsUnit ((systematic x y).submatrix σ id) := by
  refine mulVec_injective_iff_isUnit.1
    ((injective_iff_map_eq_zero (mulVecLin ((systematic x y).submatrix σ id))).2 fun v hv => ?_)
  -- a selected identity row reads its entry of `v` off
  have hid : ∀ j, j ∉ missing σ → v j = 0 := by
    intro j hj
    obtain ⟨i, hi⟩ : ∃ i, (σ i).getLeft? = some j := by simpa [missing] using hj
    have hs : σ i = Sum.inl j := by simpa using hi
    have := congrFun hv i
    simpa [mulVec, dotProduct, systematic, hs, one_apply] using this
  -- the Cauchy rows only see the missing columns
  have hmiss : ∀ j ∈ missing σ, v j = 0 := by
    refine eq_zero_of_cauchy (P := parity σ) (x := fun i => (σ i).elim (fun _ => 0) x) v ?_ hy ?_
      (card_missing_le hσ) ?_
    · intro i hi i' hi' e
      obtain ⟨p, hp⟩ := Sum.isRight_iff.1 (by simpa [parity] using hi)
      obtain ⟨p', hp'⟩ := Sum.isRight_iff.1 (by simpa [parity] using hi')
      apply hσ
      simp only [hp, hp', Sum.elim_inr] at e
      rw [hp, hp', hx e]
    · intro i hi j _
      obtain ⟨p, hp⟩ := Sum.isRight_iff.1 (by simpa [parity] using hi)
      simpa [hp] using hxy p j
    · intro i hi
      obtain ⟨p, hp⟩ := Sum.isRight_iff.1 (by simpa [parity] using hi)
      have hrow := congrFun hv i
      have hsum : ∑ j, (x p - y j)⁻¹ * v j = 0 := by
        simpa [mulVec, dotProduct, systematic, hp] using hrow
      rw [← hsum]
      simp only [hp, Sum.elim_inr]
      refine Finset.sum_subset (Finset.subset_univ _) fun j _ hj => ?_
      rw [hid j hj, mul_zero]
  funext j
  by_cases hj : j ∈ missing σ
  · exact hmiss j hj
  · exact hid j hj

end

/-! ## Recovery -/

section
variable [Fintype κ]

/-- The symbol at `e` of the word that agrees with `w` at the positions `σ`. -/
noncomputable def recover (G : Matrix ι κ F) (σ : κ → ι) (w : ι → F) (e : ι) : F :=
  G e ⬝ᵥ ((G.submatrix σ id)⁻¹ *ᵥ fun i => w (σ i))

variable {G : Matrix ι κ F} {σ : κ → ι}

/-- The data vector behind `k` symbols exists and is unique. -/
theorem existsUnique_data (hB : IsUnit (G.submatrix σ id)) (w : ι → F) :
    ∃! d : κ → F, ∀ i, G (σ i) ⬝ᵥ d = w (σ i) := by
  have hdet := (isUnit_iff_isUnit_det _).1 hB
  refine ⟨(G.submatrix σ id)⁻¹ *ᵥ fun i => w (σ i), fun i => ?_, fun d hd => ?_⟩
  · show ((G.submatrix σ id) *ᵥ ((G.submatrix σ id)⁻¹ *ᵥ fun i => w (σ i))) i = w (σ i)
    rw [mulVec_mulVec, mul_nonsing_inv _ hdet, one_mulVec]
  · have hd' : (G.submatrix σ id) *ᵥ d = fun i => w (σ i) := funext hd
    rw [← hd', mulVec_mulVec, nonsing_inv_mul _ hdet, one_mulVec]

/-- `recover` evaluates the data vector that fits the positions `σ`. -/
theorem recover_eq_of_fits (hB : IsUnit (G.submatrix σ id)) {w : ι → F} {d : κ → F}
    (hd : ∀ i, G (σ i) ⬝ᵥ d = w (σ i)) (e : ι) : recover G σ w e = G e ⬝ᵥ d := by
  have hdet := (isUnit_iff_isUnit_det _).1 hB
  have hd' : (fun i => w (σ i)) = (G.submatrix σ id) *ᵥ d := (funext hd).symm
  rw [recover, hd', mulVec_mulVec, nonsing_inv_mul _ hdet, one_mulVec]

/-- A decode row for `e`: its product with the surviving rows is row `e`. -/
theorem dot_eq_recover (hB : IsUnit (G.submatrix σ id)) {D : κ → F} {e : ι}
    (hD : D ᵥ* G.submatrix σ id = G e) (w : ι → F) :
    (D ⬝ᵥ fun i => w (σ i)) = recover G σ w e := by
  have hdet := (isUnit_iff_isUnit_det _).1 hB
  rw [recover, ← hD, dotProduct_mulVec, vecMul_vecMul, mul_nonsing_inv _ hdet, vecMul_one]

/-- Decode rows are unique. -/
theorem decodeRow_unique (hB : IsUnit (G.submatrix σ id)) {D D' : κ → F}
    (h : D ᵥ* G.submatrix σ id = D' ᵥ* G.submatrix σ id) : D = D' := by
  have hdet := (isUnit_iff_isUnit_det _).1 hB
  have := congrArg (· ᵥ* (G.submatrix σ id)⁻¹) h
  simpa only [vecMul_vecMul, mul_nonsing_inv _ hdet, vecMul_one] using this

end

end ErasureCode.Core.Mds
