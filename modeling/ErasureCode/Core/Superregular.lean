import Mathlib.Data.Fin.Tuple.Sort
import Mathlib.LinearAlgebra.Matrix.ToLinearEquiv
import Mathlib.LinearAlgebra.Vandermonde
import ErasureCode.Core.Distance

/-!
# Superregular matrices

`generator P` has the data symbols as its first rows, and then the parities that `P`
makes of them. Any `card κ` of its rows determine the data exactly when every square
submatrix of `P` is invertible (`anyRows_generator_iff`). It is enough to look at the
submatrices with the rows and columns in order (`superregular_iff_strictMono`).

`powers α n k` has the powers `α ^ (i * j)`. A submatrix of it that keeps the first
`k` columns is a Vandermonde matrix (`powers_det_full`); of the others one row and
one column can be taken off (`powers_det_succ`).
-/
namespace ErasureCode.Core.Mds

open Matrix

variable {F : Type} [Field F] {κ π ι : Type}

/-- The identity on top of `P`. -/
def generator [DecidableEq κ] (P : Matrix π κ F) : Matrix (κ ⊕ π) κ F := Matrix.fromRows 1 P

/-- Every square submatrix is invertible. -/
def Superregular (P : Matrix π κ F) : Prop :=
  ∀ (t : Nat) (r : Fin t → π) (c : Fin t → κ), Function.Injective r → Function.Injective c → (P.submatrix r c).det ≠ 0

section
variable {P : Matrix π κ F}

theorem Superregular.submatrix {π' κ' : Type} (h : Superregular P) {f : π' → π} {g : κ' → κ} (hf : Function.Injective f)
    (hg : Function.Injective g) : Superregular (P.submatrix f g) := fun t r c hr hc => by
  rw [submatrix_submatrix]
  exact h t _ _ (hf.comp hr) (hg.comp hc)

theorem Superregular.transpose (h : Superregular P) : Superregular Pᵀ := fun t r c hr hc => by
  rw [← det_transpose, transpose_submatrix, transpose_transpose]
  exact h t c r hc hr

/-- A submatrix has as many columns as there are, at most. -/
theorem card_le_of_injective {t k : Nat} {c : Fin t → Fin k} (hc : Function.Injective c) : t ≤ k := by
  simpa using Fintype.card_le_of_injective c hc

theorem superregular_iff_strictMono [LinearOrder π] [LinearOrder κ] :
    Superregular P ↔ ∀ (t : Nat) (r : Fin t → π) (c : Fin t → κ), StrictMono r → StrictMono c →
      (P.submatrix r c).det ≠ 0 := by
  refine ⟨fun h t r c hr hc => h t r c hr.injective hc.injective, fun h t r c hr hc => ?_⟩
  have hsorted := h t (r ∘ Tuple.sort r) (c ∘ Tuple.sort c)
    ((Tuple.monotone_sort r).strictMono_of_injective (hr.comp (Tuple.sort r).injective))
    ((Tuple.monotone_sort c).strictMono_of_injective (hc.comp (Tuple.sort c).injective))
  -- sorting the rows and the columns can only change the sign
  have hperm : P.submatrix (r ∘ Tuple.sort r) (c ∘ Tuple.sort c) =
      ((P.submatrix r c).submatrix (Tuple.sort r) id).submatrix id (Tuple.sort c) := rfl
  rw [hperm, det_permute', det_permute] at hsorted
  exact right_ne_zero_of_mul (right_ne_zero_of_mul hsorted)

end

/-! ## Any `card κ` rows of the generator -/

theorem anyRows_congr [Fintype κ] [DecidableEq κ] {G H : Matrix ι κ F} {P : ι → Prop} (h : ∀ r, P r → G r = H r) :
    AnyRows G P ↔ AnyRows H P := by
  have hsub : ∀ σ : κ → ι, (∀ i, P (σ i)) → G.submatrix σ id = H.submatrix σ id := fun σ hP =>
    Matrix.ext fun i j => congrFun (h (σ i) (hP i)) j
  exact forall_congr' fun σ => forall_congr' fun _ => forall_congr' fun hP => by rw [hsub σ hP]

/-- The rows at positions in `P` are those of `H`, numbered by `φ`. -/
theorem anyRows_iff_of_range [Fintype κ] [DecidableEq κ] {ι' : Type} {G : Matrix ι κ F} {H : Matrix ι' κ F} {P : ι → Prop}
    {φ : ι' → ι} (hφ : Function.Injective φ) (hP : ∀ r, P r ↔ ∃ x, φ x = r) (hG : ∀ x, G (φ x) = H x) :
    AnyRows G P ↔ AnyRows H fun _ => True := by
  have hsub : ∀ σ : κ → ι', G.submatrix (φ ∘ σ) id = H.submatrix σ id := fun σ =>
    Matrix.ext fun i j => congrFun (hG (σ i)) j
  constructor
  · intro h σ hσ _
    rw [← hsub]
    exact h _ (hφ.comp hσ) fun i => (hP _).2 ⟨σ i, rfl⟩
  · intro h σ hσ hPσ
    choose τ hτ using fun i => (hP _).1 (hPσ i)
    obtain rfl : φ ∘ τ = σ := funext hτ
    rw [hsub]
    exact h τ hσ.of_comp fun _ => trivial

section
variable [DecidableEq κ] {P : Matrix π κ F}

@[simp] theorem generator_inl (j : κ) : generator P (.inl j) = (1 : Matrix κ κ F) j := rfl
@[simp] theorem generator_inr (p : π) : generator P (.inr p) = P p := rfl

variable [Fintype κ]

/-- Data that does not show in the rows `r` of `P` nor in the identity rows outside `c`. -/
theorem not_isUnit_of_det_eq_zero {t : Nat} {r : Fin t → π} {c : Fin t → κ} (hc : Function.Injective c)
    (hdet : (P.submatrix r c).det = 0) {σ : κ → κ ⊕ π} (hin : ∀ i, σ (c i) = .inr (r i))
    (hout : ∀ j, (∀ i, c i ≠ j) → σ j = .inl j) : ¬ IsUnit ((generator P).submatrix σ id) := by
  obtain ⟨v, hv, hPv⟩ := exists_mulVec_eq_zero_iff.2 hdet
  intro hu
  have hinj := mulVec_injective_iff_isUnit.2 hu
  have hsum : ∀ f : κ → F, ∑ j, f j * Function.extend c v 0 j = ∑ i, f (c i) * v i := fun f => by
    rw [← Finset.sum_subset (Finset.subset_univ (Finset.univ.map ⟨c, hc⟩)) fun j _ hj => ?_, Finset.sum_map]
    · exact Finset.sum_congr rfl fun i _ => by rw [Function.Embedding.coeFn_mk, hc.extend_apply]
    · rw [Function.extend_apply' _ _ _ (by simpa using hj), Pi.zero_apply, mul_zero]
  have hzero : (generator P).submatrix σ id *ᵥ Function.extend c v 0 = 0 := by
    funext j
    by_cases hj : ∃ i, c i = j
    · obtain ⟨i, rfl⟩ := hj
      have hrow := congrFun hPv i
      simp only [mulVec, dotProduct, submatrix_apply, id, hin, generator_inr] at hrow ⊢
      rw [hsum]
      exact hrow
    · have hj' : ∀ i, c i ≠ j := fun i e => hj ⟨i, e⟩
      simp only [mulVec, dotProduct, submatrix_apply, id, hout j hj', generator_inl]
      simp only [one_apply, ite_mul, one_mul, zero_mul, Finset.sum_ite_eq, Finset.mem_univ, if_true]
      rw [Function.extend_apply' _ _ _ hj, Pi.zero_apply]
  have hext : Function.extend c v 0 = 0 := hinj (hzero.trans (mulVec_zero _).symm)
  exact hv (funext fun i => by rw [← hc.extend_apply v 0 i, hext]; rfl)

/-- A selected identity row reads its entry of `v` off. -/
theorem eq_zero_of_not_missing {σ : κ → κ ⊕ π} {v : κ → F} (hv : (generator P).submatrix σ id *ᵥ v = 0) {j : κ}
    (hj : j ∉ missing σ) : v j = 0 := by
  obtain ⟨i, hi⟩ : ∃ i, (σ i).getLeft? = some j := by simpa [missing] using hj
  have hs : σ i = Sum.inl j := by simpa using hi
  have := congrFun hv i
  simpa [mulVec, dotProduct, hs, one_apply] using this

/-- There are as many selected parities as missing columns, and what they see of `v` is
there: it is zero. -/
theorem Superregular.eq_zero_of_mulVec (h : Superregular P) {σ : κ → κ ⊕ π} (hσ : Function.Injective σ) {v : κ → F}
    (hv : (generator P).submatrix σ id *ᵥ v = 0) : v = 0 := by
  obtain ⟨e⟩ : Nonempty (missing σ ↪ parity σ) :=
    Function.Embedding.nonempty_of_card_le (by simpa only [Fintype.card_coe] using card_missing_le hσ)
  have hright : ∀ j, ∃ p, σ (e j).1 = .inr p := fun j => Sum.isRight_iff.1 (Finset.mem_filter.1 (e j).2).2
  choose p hp using hright
  have hpinj : Function.Injective p := fun j j' hj =>
    e.injective (Subtype.ext (hσ (by rw [hp, hp, hj])))
  let m := (missing σ).equivFin.symm
  have hdet := h _ (p ∘ m) (fun i => (m i).1) (hpinj.comp m.injective) (Subtype.val_injective.comp m.injective)
  have hker : (fun i => v (m i).1) = 0 := by
    by_contra hne
    refine hdet (exists_mulVec_eq_zero_iff.1 ⟨_, hne, funext fun i => ?_⟩)
    have hrow := congrFun hv (e (m i)).1
    simp only [mulVec, dotProduct, submatrix_apply, id, hp, generator_inr, Pi.zero_apply] at hrow
    rw [← Finset.sum_subset (Finset.subset_univ (missing σ)) fun j _ hj => by
        rw [eq_zero_of_not_missing hv hj, mul_zero],
      ← Finset.sum_coe_sort, ← m.sum_comp] at hrow
    exact hrow
  funext j
  by_cases hj : j ∈ missing σ
  · have := congrFun hker (m.symm ⟨j, hj⟩)
    rwa [m.apply_symm_apply] at this
  · exact eq_zero_of_not_missing hv hj

/-- **Any `card κ` rows** are independent exactly when every square submatrix of the
parities is invertible. -/
theorem anyRows_generator_iff : (AnyRows (generator P) fun _ => True) ↔ Superregular P := by
  classical
  constructor
  · intro h t r c hr hc hdet
    have hσ : ∀ j, ∃ x : κ ⊕ π, (∃ i, c i = j ∧ x = .inr (r i)) ∨ ((∀ i, c i ≠ j) ∧ x = .inl j) := fun j => by
      by_cases hj : ∃ i, c i = j
      · exact ⟨.inr (r hj.choose), .inl ⟨_, hj.choose_spec, rfl⟩⟩
      · exact ⟨.inl j, .inr ⟨fun i e => hj ⟨i, e⟩, rfl⟩⟩
    choose σ hσ using hσ
    have hin : ∀ i, σ (c i) = .inr (r i) := fun i => by
      rcases hσ (c i) with ⟨i', hi', e⟩ | ⟨hne, -⟩
      · rw [e, hc hi']
      · exact absurd rfl (hne i)
    have hout : ∀ j, (∀ i, c i ≠ j) → σ j = .inl j := fun j hj => by
      rcases hσ j with ⟨i, hi, -⟩ | ⟨-, e⟩
      · exact absurd hi (hj i)
      · exact e
    refine not_isUnit_of_det_eq_zero hc hdet hin hout (h σ (fun j j' e => ?_) fun _ => trivial)
    rcases hσ j with ⟨i, rfl, hi⟩ | ⟨-, hi⟩ <;> rcases hσ j' with ⟨i', rfl, hi'⟩ | ⟨-, hi'⟩ <;> rw [hi, hi'] at e
    · rw [hr (Sum.inr_injective e)]
    · cases e
    · cases e
    · exact Sum.inl_injective e
  · intro h σ hσ _
    exact mulVec_injective_iff_isUnit.1 ((injective_iff_map_eq_zero (mulVecLin ((generator P).submatrix σ id))).2
      fun v hv => h.eq_zero_of_mulVec hσ hv)

end

/-! ## Powers of one element -/

section
variable {n k t : Nat}

/-- The powers `α ^ (i * j)`. -/
def powers (α : F) (n k : Nat) : Matrix (Fin n) (Fin k) F := Matrix.of fun i j => α ^ (i.val * j.val)

variable {α : F}

theorem powers_apply (i : Fin n) (j : Fin k) : powers α n k i j = α ^ (i.val * j.val) := rfl

theorem powers_transpose : (powers α n k)ᵀ = powers α k n := by
  ext i j
  rw [transpose_apply, powers_apply, powers_apply, Nat.mul_comm]

theorem Superregular.powers_comm (h : Superregular (powers α n k)) : Superregular (powers α k n) := by
  rw [← powers_transpose]
  exact h.transpose

theorem Superregular.powers_mono {n' k' : Nat} (h : Superregular (powers α n k)) (hn : n' ≤ n) (hk : k' ≤ k) :
    Superregular (powers α n' k') :=
  h.submatrix (f := Fin.castLE hn) (g := Fin.castLE hk) (Fin.castLE_injective hn) (Fin.castLE_injective hk)

/-- With all the columns it is a Vandermonde matrix. -/
theorem powers_det_full {r : Fin k → Fin n} {c : Fin k → Fin k} (hr : Function.Injective fun i => α ^ (r i).val)
    (hc : StrictMono c) : ((powers α n k).submatrix r c).det ≠ 0 := by
  have hid : c = id := (hc.range_inj strictMono_id).1 (by
    rw [(Finite.injective_iff_surjective.1 hc.injective).range_eq, Set.range_id])
  have hvand : (powers α n k).submatrix r c = vandermonde fun i => α ^ (r i).val := by
    ext i j
    rw [submatrix_apply, powers_apply, vandermonde_apply, ← pow_mul, hid, id]
  rw [hvand, det_vandermonde_ne_zero_iff]
  exact hr

/-- A row and a column of ones are taken off. -/
theorem det_of_ones {A : Matrix (Fin (t + 1)) (Fin (t + 1)) F} (hrow : ∀ j, A 0 j = 1) (hcol : ∀ i, A i 0 = 1) :
    A.det = (Matrix.of fun i j : Fin t => A i.succ j.succ - 1).det := by
  let B : Matrix (Fin (t + 1)) (Fin (t + 1)) F := Matrix.of fun i j => if i = 0 then 1 else A i j - 1
  have hAB : A.det = B.det := by
    refine det_eq_of_forall_row_eq_smul_add_const (fun i => if i = 0 then 0 else 1) 0 (if_pos rfl) fun i j => ?_
    by_cases hi : i = 0
    · simp [B, hi, hrow]
    · simp [B, hi]
  rw [hAB, det_succ_column_zero, Finset.sum_eq_single_of_mem 0 (Finset.mem_univ _) fun i _ hi => by simp [B, hi, hcol]]
  have hsub : B.submatrix (Fin.succAbove 0) Fin.succ = Matrix.of fun i j : Fin t => A i.succ j.succ - 1 := by
    ext i j
    simp [B]
  rw [hsub]
  simp [B]

/-- The first row and the first column are taken off: what is left depends on the
distances to them only. -/
theorem powers_det_succ (hα : α ≠ 0) {r : Fin (t + 1) → Fin n} {c : Fin (t + 1) → Fin k} (hr : Monotone r)
    (hc : Monotone c) : ((powers α n k).submatrix r c).det ≠ 0 ↔
      (Matrix.of fun i j : Fin t => α ^ (((r i.succ).val - r 0) * ((c j.succ).val - c 0)) - 1).det ≠ 0 := by
  let A : Matrix (Fin (t + 1)) (Fin (t + 1)) F := Matrix.of fun i j => α ^ (((r i).val - r 0) * ((c j).val - c 0))
  have hsplit : (powers α n k).submatrix r c = Matrix.of fun i j => α ^ ((r i).val * c 0) *
      (Matrix.of fun i j => α ^ ((r 0).val * ((c j).val - c 0)) * A i j) i j := by
    ext i j
    obtain ⟨x, hx⟩ := Nat.exists_eq_add_of_le (hr (Fin.zero_le i))
    obtain ⟨y, hy⟩ := Nat.exists_eq_add_of_le (hc (Fin.zero_le j))
    simp only [A, submatrix_apply, powers_apply, of_apply, ← pow_add, hx, hy, Nat.add_sub_cancel_left]
    congr 1
    ring
  rw [hsplit, det_mul_column, det_mul_row, det_of_ones (A := A) (fun j => by simp [A]) fun i => by simp [A]]
  have hprod : ∀ f : Fin (t + 1) → Nat, ∏ i, α ^ f i ≠ 0 := fun f =>
    Finset.prod_ne_zero_iff.2 fun i _ => pow_ne_zero _ hα
  rw [mul_ne_zero_iff, mul_ne_zero_iff, and_iff_right (hprod _), and_iff_right (hprod _)]
  rfl

end

end ErasureCode.Core.Mds
