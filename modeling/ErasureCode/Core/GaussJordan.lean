import Mathlib.LinearAlgebra.Matrix.NonsingularInverse

/-!
# Gauss-Jordan elimination

The elimination works on a pair `(A, R)` that starts as `(A₀, 1)`. `Solves`
is its invariant: `R` turns `A₀` into `A`, and nothing `A` annihilates is new.
Each row operation keeps it (`Solves.swap`, `Solves.scale`, `Solves.elim`).

`Cleared i A` says that the first `i` columns of `A` are those of the
identity. Clearing one more column needs a nonzero entry on or below the
diagonal (`cleared_elim`); with all columns cleared `R` is the inverse of `A₀`
(`Solves.inverse`), and with no such entry `A₀` is singular
(`Solves.singular`).
-/
namespace ErasureCode.Core.GaussJordan

variable {F : Type} [Field F] {n : Nat}

/-- Rows `i` and `j` exchanged. -/
def swapRows (A : Matrix (Fin n) (Fin n) F) (i j : Fin n) : Matrix (Fin n) (Fin n) F :=
  A.submatrix (Equiv.swap i j) id

/-- Row `i` multiplied by `c`. -/
def scaleRow (A : Matrix (Fin n) (Fin n) F) (i : Fin n) (c : F) : Matrix (Fin n) (Fin n) F :=
  Matrix.of fun r k => if r = i then A i k * c else A r k

/-- `t r` times row `i` subtracted from every other row `r`. -/
def elimRows (A : Matrix (Fin n) (Fin n) F) (i : Fin n) (t : Fin n → F) :
    Matrix (Fin n) (Fin n) F :=
  Matrix.of fun r k => if r = i then A i k else A r k - t r * A i k

/-- The invariant of the elimination of `A₀`. -/
structure Solves (A₀ A R : Matrix (Fin n) (Fin n) F) : Prop where
  mul_eq : R * A₀ = A
  ker : ∀ v, A.mulVec v = 0 → A₀.mulVec v = 0

variable {A₀ A R : Matrix (Fin n) (Fin n) F}

theorem Solves.init (A₀ : Matrix (Fin n) (Fin n) F) : Solves A₀ A₀ 1 :=
  ⟨Matrix.one_mul A₀, fun _ h => h⟩

theorem Solves.swap (h : Solves A₀ A R) (i j : Fin n) :
    Solves A₀ (swapRows A i j) (swapRows R i j) := by
  refine ⟨?_, fun v hv => h.ker v ?_⟩
  · rw [← h.mul_eq]; rfl
  · funext r
    have := congrFun hv (Equiv.swap i j r)
    simpa [swapRows, Matrix.mulVec, dotProduct] using this

theorem Solves.scale (h : Solves A₀ A R) (i : Fin n) {c : F} (hc : c ≠ 0) :
    Solves A₀ (scaleRow A i c) (scaleRow R i c) := by
  refine ⟨?_, fun v hv => h.ker v ?_⟩
  · ext r k
    rw [← h.mul_eq]
    by_cases hr : r = i
    · simp [scaleRow, Matrix.mul_apply, hr, Finset.sum_mul, mul_right_comm]
    · simp [scaleRow, Matrix.mul_apply, hr]
  · funext r
    have hr := congrFun hv r
    by_cases hri : r = i
    · have e : (scaleRow A i c).mulVec v r = A.mulVec v r * c := by
        simp [scaleRow, Matrix.mulVec, dotProduct, hri, Finset.sum_mul, mul_right_comm]
      rw [e] at hr
      exact (mul_eq_zero.1 hr).resolve_right hc
    · simpa [scaleRow, Matrix.mulVec, dotProduct, hri] using hr

theorem Solves.elim (h : Solves A₀ A R) (i : Fin n) (t : Fin n → F) :
    Solves A₀ (elimRows A i t) (elimRows R i t) := by
  refine ⟨?_, fun v hv => h.ker v ?_⟩
  · ext r k
    rw [← h.mul_eq]
    by_cases hr : r = i
    · simp [elimRows, Matrix.mul_apply, hr]
    · simp [elimRows, Matrix.mul_apply, hr, Finset.mul_sum, mul_assoc, sub_mul,
        Finset.sum_sub_distrib]
  · have hi : A.mulVec v i = 0 := by
      have := congrFun hv i
      simpa [elimRows, Matrix.mulVec, dotProduct] using this
    funext r
    have hr := congrFun hv r
    by_cases hri : r = i
    · rw [hri, hi]; rfl
    · have e : (elimRows A i t).mulVec v r = A.mulVec v r - t r * A.mulVec v i := by
        simp [elimRows, Matrix.mulVec, dotProduct, hri, Finset.mul_sum, mul_assoc, sub_mul,
          Finset.sum_sub_distrib]
      rw [e, hi, mul_zero, sub_zero] at hr
      exact hr

/-! ## Cleared columns -/

/-- The first `i` columns are those of the identity. -/
def Cleared (i : Nat) (A : Matrix (Fin n) (Fin n) F) : Prop :=
  ∀ r c : Fin n, c.val < i → A r c = if r = c then 1 else 0

theorem Cleared.below {i : Nat} (h : Cleared i A) {r c : Fin n} (hc : c.val < i) (hr : i ≤ r.val) :
    A r c = 0 := by
  rw [h r c hc, if_neg]
  rintro rfl
  omega

theorem Cleared.swap {i j : Fin n} (h : Cleared i A) (hj : i ≤ j) : Cleared i (swapRows A i j) := by
  intro r c hc
  have hij : i.val ≤ j.val := hj
  rw [← h r c hc]
  show A (Equiv.swap i j r) c = A r c
  by_cases hri : r = i
  · rw [hri, Equiv.swap_apply_left, h.below hc hij, h.below hc (Nat.le_refl _)]
  · by_cases hrj : r = j
    · rw [hrj, Equiv.swap_apply_right, h.below hc hij, h.below hc (Nat.le_refl _)]
    · rw [Equiv.swap_apply_of_ne_of_ne hri hrj]

theorem Cleared.scale {i : Fin n} (h : Cleared i A) (c : F) : Cleared i (scaleRow A i c) := by
  intro r k hk
  rw [← h r k hk]
  by_cases hr : r = i
  · simp [scaleRow, hr, h.below hk (Nat.le_refl _)]
  · simp [scaleRow, hr]

/-- Subtracting multiples of a row with pivot 1 clears its column. -/
theorem Cleared.elim {i : Fin n} (h : Cleared i A) (h1 : A i i = 1) :
    Cleared (i + 1) (elimRows A i fun r => A r i) := by
  intro r c hc
  rcases Nat.lt_or_eq_of_le (Nat.le_of_lt_succ hc) with hlt | heq
  · rw [← h r c hlt]
    by_cases hr : r = i
    · simp [elimRows, hr]
    · simp [elimRows, hr, h.below hlt (Nat.le_refl _)]
  · obtain rfl : c = i := Fin.ext heq
    by_cases hr : r = c
    · simp [elimRows, hr, h1]
    · simp [elimRows, hr, h1]

/-! ## The two outcomes -/

theorem Solves.inverse (h : Solves A₀ A R) (hc : Cleared n A) : R * A₀ = 1 := by
  rw [h.mul_eq]
  ext r c
  rw [hc r c c.isLt, Matrix.one_apply]

/-- A cleared prefix with no pivot for the next column: `A₀` is singular. -/
theorem Solves.singular (h : Solves A₀ A R) {i : Fin n} (hc : Cleared i A)
    (hz : ∀ r, i ≤ r → A r i = 0) : ¬ IsUnit A₀ := by
  intro hu
  -- the dependency of column `i` on the cleared columns before it
  let v : Fin n → F := fun c => if c < i then -A c i else if c = i then 1 else 0
  have hv : A.mulVec v = 0 := by
    funext r
    have hsum : A.mulVec v r = (∑ c, if c < i then A r c * -A c i else 0) + A r i := by
      have hterm : ∀ c, A r c * v c =
          (if c < i then A r c * -A c i else 0) + if c = i then A r i else 0 := by
        intro c
        by_cases h1 : c < i
        · simp [v, h1, ne_of_lt h1]
        · by_cases h2 : c = i
          · subst h2; simp [v]
          · simp [v, h1, h2]
      simp only [Matrix.mulVec, dotProduct, hterm, Finset.sum_add_distrib, Finset.sum_ite_eq',
        Finset.mem_univ, if_true]
    rw [hsum]
    by_cases hri : r < i
    · rw [Finset.sum_eq_single r]
      · simp [hri, hc r r hri]
      · intro c _ hcr
        by_cases h1 : c < i
        · simp [h1, hc r c h1, Ne.symm hcr]
        · simp [h1]
      · simp
    · have hir : i ≤ r := not_lt.1 hri
      rw [hz r hir, Finset.sum_eq_zero]
      · simp
      · intro c _
        by_cases h1 : c < i
        · simp [h1, hc.below (r := r) (c := c) h1 hir]
        · simp [h1]
  have h0 := Matrix.mulVec_injective_of_isUnit hu ((h.ker v hv).trans (Matrix.mulVec_zero A₀).symm)
  have := congrFun h0 i
  simp [v] at this

end ErasureCode.Core.GaussJordan
