import Mathlib.Data.Finset.Sort
import Mathlib.LinearAlgebra.FiniteDimensional.Lemmas
import ErasureCode.Core.Mds

/-!
# The distance of an MDS code

`AnyRows G P`: any `card κ` different rows of the generator `G` at positions in
`P` are independent. Then

* words that agree at `card κ` of these positions are words of one data vector
  (`AnyRows.eq_of_agree`), so words of different data differ in all but fewer than
  `card κ` of them (`AnyRows.distance`);
* no decode row has a zero (`AnyRows.decodeRow_ne_zero`), so one wrong survivor
  makes every recovered symbol wrong (`AnyRows.recover_ne`).

Fewer than `card κ` positions never determine the data, whatever the generator
(`exists_hidden`).
-/
namespace ErasureCode.Core.Mds

open Matrix

variable {F : Type} [Field F] {κ ι : Type} [Fintype κ] [DecidableEq κ]

/-- Any `card κ` different rows at positions in `P` are independent. -/
def AnyRows (G : Matrix ι κ F) (P : ι → Prop) : Prop :=
  ∀ σ : κ → ι, Function.Injective σ → (∀ i, P (σ i)) → IsUnit (G.submatrix σ id)

section
variable {G : Matrix ι κ F} {P : ι → Prop}

omit [DecidableEq κ] in
/-- A selection of `card κ` members of a large enough set. -/
theorem exists_selection {S : Finset ι} (hS : Fintype.card κ ≤ S.card) :
    ∃ σ : κ → ι, Function.Injective σ ∧ ∀ i, σ i ∈ S := by
  obtain ⟨e⟩ : Nonempty (κ ↪ S) := Function.Embedding.nonempty_of_card_le (by rwa [Fintype.card_coe])
  exact ⟨fun i => (e i).1, fun i j h => e.injective (Subtype.ext h), fun i => (e i).2⟩

theorem AnyRows.eq_of_agree (h : AnyRows G P) {S : Finset ι} (hP : ∀ r ∈ S, P r) (hS : Fintype.card κ ≤ S.card)
    {d d' : κ → F} (hd : ∀ r ∈ S, G r ⬝ᵥ d = G r ⬝ᵥ d') : d = d' := by
  obtain ⟨σ, hσ, hmem⟩ := exists_selection hS
  have hu := h σ hσ fun i => hP _ (hmem i)
  exact mulVec_injective_iff_isUnit.2 hu (funext fun i => hd _ (hmem i))

/-- Words of different data agree at fewer than `card κ` positions. -/
theorem AnyRows.distance [DecidableEq F] (h : AnyRows G P) {U : Finset ι} (hU : ∀ r ∈ U, P r) {d d' : κ → F} (hne : d ≠ d') :
    U.card < (U.filter fun r => ¬ G r ⬝ᵥ d = G r ⬝ᵥ d').card + Fintype.card κ := by
  have hsplit := Finset.card_filter_add_card_filter_not (s := U) fun r => G r ⬝ᵥ d = G r ⬝ᵥ d'
  by_contra hlt
  refine hne (h.eq_of_agree (S := U.filter fun r => G r ⬝ᵥ d = G r ⬝ᵥ d')
    (fun r hr => hU r (Finset.mem_filter.1 hr).1) ?_ fun r hr => (Finset.mem_filter.1 hr).2)
  omega

/-- No survivor can be left out of a recovery. -/
theorem AnyRows.decodeRow_ne_zero (h : AnyRows G P) {σ : κ → ι} (hσ : Function.Injective σ) (hPσ : ∀ i, P (σ i))
    {e : ι} (he : ∀ i, σ i ≠ e) (hPe : P e) {D : κ → F} (hD : D ᵥ* G.submatrix σ id = G e) (i : κ) : D i ≠ 0 := by
  intro hDi
  -- row `e` in place of row `σ i`: these rows are independent too
  have hu : IsUnit (G.submatrix (Function.update σ i e) id) := by
    refine h _ (fun j j' hj => ?_) fun j => ?_
    · by_cases hji : j = i <;> by_cases hji' : j' = i
      · rw [hji, hji']
      · subst hji
        rw [Function.update_self, Function.update_of_ne hji'] at hj
        exact absurd hj.symm (he j')
      · subst hji'
        rw [Function.update_self, Function.update_of_ne hji] at hj
        exact absurd hj (he j)
      · rw [Function.update_of_ne hji, Function.update_of_ne hji'] at hj
        exact hσ hj
    · by_cases hji : j = i
      · rw [hji, Function.update_self]
        exact hPe
      · rw [Function.update_of_ne hji]
        exact hPσ j
  -- but `D` combines the others to row `e`
  have hrow : D ᵥ* G.submatrix (Function.update σ i e) id = Pi.single i 1 ᵥ* G.submatrix (Function.update σ i e) id := by
    rw [single_one_vecMul]
    have hsame : D ᵥ* G.submatrix (Function.update σ i e) id = D ᵥ* G.submatrix σ id := by
      funext c
      refine Finset.sum_congr rfl fun j _ => ?_
      by_cases hji : j = i
      · rw [hji, hDi, zero_mul, zero_mul]
      · show D j * G (Function.update σ i e j) c = D j * G (σ j) c
        rw [Function.update_of_ne hji]
    rw [hsame, hD]
    funext c
    simp
  have := congrFun (decodeRow_unique hu hrow) i
  rw [hDi, Pi.single_eq_same] at this
  exact zero_ne_one this

/-- One survivor is wrong: so is every symbol that is recovered. -/
theorem AnyRows.recover_ne (h : AnyRows G P) {σ : κ → ι} (hσ : Function.Injective σ) (hPσ : ∀ i, P (σ i)) {e : ι}
    (he : ∀ i, σ i ≠ e) (hPe : P e) {w w' : ι → F} {i₀ : κ} (hsame : ∀ i, i ≠ i₀ → w (σ i) = w' (σ i))
    (hne : w (σ i₀) ≠ w' (σ i₀)) : recover G σ w e ≠ recover G σ w' e := by
  have hu := h σ hσ hPσ
  have hdet := (isUnit_iff_isUnit_det _).1 hu
  obtain ⟨D, hD⟩ : ∃ D : κ → F, D ᵥ* G.submatrix σ id = G e :=
    ⟨G e ᵥ* (G.submatrix σ id)⁻¹, by rw [vecMul_vecMul, nonsing_inv_mul _ hdet, vecMul_one]⟩
  have hcoef := h.decodeRow_ne_zero hσ hPσ he hPe hD i₀
  intro heq
  rw [← dot_eq_recover hu hD, ← dot_eq_recover hu hD, ← sub_eq_zero, ← dotProduct_sub] at heq
  -- the other survivors cancel
  have hsum : ∑ j, D j * (w (σ j) - w' (σ j)) = D i₀ * (w (σ i₀) - w' (σ i₀)) := by
    refine Finset.sum_eq_single i₀ (fun j _ hj => ?_) fun hc => absurd (Finset.mem_univ i₀) hc
    rw [hsame j hj, sub_self, mul_zero]
  exact mul_ne_zero hcoef (sub_ne_zero.2 hne) (hsum.symm.trans heq)

end

omit [DecidableEq κ] in
/-- Fewer than `card κ` positions: some data does not show there. -/
theorem exists_hidden (G : Matrix ι κ F) {S : Finset ι} (hS : S.card < Fintype.card κ) :
    ∃ d : κ → F, d ≠ 0 ∧ ∀ r ∈ S, G r ⬝ᵥ d = 0 := by
  have hker := LinearMap.ker_ne_bot_of_finrank_lt (f := mulVecLin (G.submatrix (fun r : S => r.1) id)) (by
    rw [Module.finrank_fintype_fun_eq_card, Module.finrank_fintype_fun_eq_card, Fintype.card_coe]
    exact hS)
  obtain ⟨d, hd, hne⟩ := (Submodule.ne_bot_iff _).1 hker
  exact ⟨d, hne, fun r hr => congrFun hd ⟨r, hr⟩⟩

end ErasureCode.Core.Mds
