import ErasureCode.Core.CInt
import ErasureCode.Core.Subsets
import ErasureCode.Isal.Vandermonde

/-!
# The program that finds the limits

`lib/isa-l/erasure_code/gen_rs_matrix_limits.c` generates the matrices of up to 16
columns and 32 rows, inverts every square submatrix below the identity, and prints for
each number of columns how many rows it has got to. Sets of rows and columns are words,
and the next set of one size comes from a few word operations (`nextSubset`).

`areSubmatricesSingular_iff`: the search goes through all square submatrices, of any
matrix, and so finds out whether any rows of the code may be lost.
`genRsMatrixLimits_eq`: the program ends, and what it prints are the limits.
-/
namespace ErasureCode.Isal

open ErasureCode.Core Subsets Matrix

variable {N M : Nat} {σ ρ : Type}

/-! ## The program -/

/-- mirrors lib/isa-l/erasure_code/gen_rs_matrix_limits.c:7-8 -/
def M_MAX : Nat := 0x20

def K_MAX : Nat := 0x10

/-- `(uint64_t) 1 << n`. -/
def bit (n : Nat) : Option Nat := if n < 64 then some (2 ^ n) else none

/-- The submatrix of the rows and columns that are indicated. The input starts at `i₀`.
mirrors lib/isa-l/erasure_code/gen_rs_matrix_limits.c:20-37 -/
def genSubMatrix (out_matrix : Vector UInt8 N) (dim : Nat) (in_matrix : Vector UInt8 M) (i₀ rows cols : Nat)
    (row_indicator col_indicator : Nat) : Option (Vector UInt8 N) := do
  let (out_matrix, _) ← forUp 0 rows (out_matrix, 0) fun i (out_matrix, r) => do
    if row_indicator &&& (← bit i) = 0 then return (out_matrix, r)
    let (out_matrix, _) ← forUp 0 cols (out_matrix, 0) fun j (out_matrix, s) => do
      if col_indicator &&& (← bit j) = 0 then return (out_matrix, s)
      let out_matrix ← wr out_matrix (dim * r + s) (← in_matrix[i₀ + (cols * i + j)]?)
      return (out_matrix, s + 1)
    return (out_matrix, r + 1)
  return out_matrix

/-- The next subset, and whether it was the last.
mirrors lib/isa-l/erasure_code/gen_rs_matrix_limits.c:39-52 -/
def nextSubset (subset element_count subsize : Nat) : Option (Nat × Bool) := do
  let tmp1 := subset &&& subSize 0 subset
  let tmp2 := addSize subset tmp1
  let subset := (← divSize ((subset ^^^ tmp2) >>> 2) tmp1) ||| tmp2
  if subset &&& (← bit element_count) = 0 then return (subset, false)
  return (subSize (← bit subsize) 1, true)

/-- `do body while (next_subset(&subset, element_count, subsize) == 0)`, with an early
`return`, for at most `fuel` rounds. -/
def eachSubset (element_count subsize : Nat) (body : Nat → σ → Option (σ × Option ρ)) :
    Nat → Nat → σ → Option (σ × Option ρ)
  | 0, _, _ => none
  | fuel + 1, subset, s => do
    let (s, r) ← body subset s
    match r with
    | some v => return (s, some v)
    | none =>
      let (subset, last) ← nextSubset subset element_count subsize
      if last then return (s, none) else eachSubset element_count subsize body fuel subset s

/-- `matrix` and `invert_matrix`. -/
abbrev Squares := Vector UInt8 (K_MAX * K_MAX) × Vector UInt8 (K_MAX * K_MAX)

/-- mirrors lib/isa-l/erasure_code/gen_rs_matrix_limits.c:68-71 -/
def submatrixSingular (vmatrix : Vector UInt8 M) (i₀ rows cols subsize col_indicator row_indicator : Nat) (s : Squares) :
    Option (Squares × Option Int) := do
  let matrix ← genSubMatrix s.1 subsize vmatrix i₀ rows cols row_indicator col_indicator
  let (s, r) ← gfInvertMatrix matrix s.2 subsize
  return (s, if r = 0 then none else some 1)

/-- `s` is what the local arrays hold at the start. There are fewer subsets than words of
so many bits.
mirrors lib/isa-l/erasure_code/gen_rs_matrix_limits.c:54-78 -/
def areSubmatricesSingular (vmatrix : Vector UInt8 M) (i₀ rows cols : Nat) (s : Squares) : Option Int := do
  let (_, r) ← forUntil 1 (min rows cols + 1) s fun subsize s => do
    let subset_init := (← mulInt 1 (2 ^ subsize)) - 1
    eachSubset cols subsize (fun col_indicator s =>
      eachSubset rows subsize (submatrixSingular vmatrix i₀ rows cols subsize col_indicator) (2 ^ rows) subset_init s)
      (2 ^ cols) subset_init s
  return r.getD 0

/-- The numbers of the lines printed. The three checks before them are of constants;
`raw cols rows` is what the local arrays of `are_submatrices_singular` hold.
mirrors lib/isa-l/erasure_code/gen_rs_matrix_limits.c:80-115 -/
def genRsMatrixLimits (vmatrix : Vector UInt8 ((M_MAX + K_MAX) * K_MAX)) (raw : Nat → Nat → Squares) :
    Option (List (Nat × Nat)) := do
  let (_, lines) ← forUp 1 (K_MAX + 1) (vmatrix, []) fun cols (vmatrix, lines) => do
    let (vmatrix, rows) ← forUntil 1 (M_MAX - cols + 1) vmatrix fun rows vmatrix => do
      let vmatrix ← gfGenRsMatrix vmatrix (rows + cols) cols
      let singular ← areSubmatricesSingular vmatrix (cols * cols) rows cols (raw cols rows)
      return (vmatrix, if singular = 0 then none else some rows)
    return (vmatrix, lines ++ [(cols, rows.getD (M_MAX - cols + 1) + cols - 1)])
  return lines

/-! ## The next subset -/

theorem bit_eq {n : Nat} (h : n < 64) : bit n = some (2 ^ n) := if_pos h

theorem nextSubset_eq {x e s : Nat} (hpos : 0 < x) (hx : x < 2 ^ e) (he : e ≤ 63) (hs : s ≤ 63) :
    nextSubset x e s = some (if next 64 x < 2 ^ e then (next 64 x, false) else (2 ^ s - 1, true)) := by
  have hx64 : x < 2 ^ 64 := Nat.lt_of_lt_of_le hx (Nat.pow_le_pow_right (by decide) (by omega))
  have hnext : next 64 x < 2 ^ (e + 1) := (isNext_next hpos hx64).lt_two_pow hpos hx
  have hnext64 : next 64 x < 2 ^ 64 := Nat.lt_of_lt_of_le hnext (Nat.pow_le_pow_right (by decide) (by omega))
  have hlow : x &&& subSize 0 x = lowest 64 x := by
    rw [lowest, show subSize 0 x = 2 ^ 64 - x by unfold subSize toSize; omega]
  have hadd : addSize x (lowest 64 x) = x + lowest 64 x :=
    addSize_eq (Nat.lt_of_le_of_lt (add_lowest_le 64 x) hnext64)
  have hor : ((x ^^^ (x + lowest 64 x)) >>> 2) / lowest 64 x ||| (x + lowest 64 x) = next 64 x := rfl
  have hlast : subSize (2 ^ s) 1 = 2 ^ s - 1 :=
    subSize_eq Nat.one_le_two_pow (Nat.pow_lt_pow_right (by decide) (by omega))
  unfold nextSubset
  simp only [hlow, hadd, divSize_eq (lowest_pos hpos hx64), hor, bit_eq (show e < 64 by omega),
    bit_eq (show s < 64 by omega), hlast, Option.bind_eq_bind, Option.bind_some, and_two_pow_eq_zero_iff,
    testBit_eq_false_iff hnext]
  split <;> rfl

/-! ## Submatrices -/

/-- The matrix with `cols` columns that starts at `i₀`. -/
def partOf (a : Vector UInt8 M) (i₀ rows cols : Nat) : Matrix (Fin rows) (Fin cols) GF256 :=
  Matrix.of fun i j => ⟨cell a (i₀ + (cols * i + j))⟩

section
variable {t rows cols i₀ : Nat} {in_matrix : Vector UInt8 M} {row_indicator col_indicator : Nat} {f : Fin t → Fin rows}
  {g : Fin t → Fin cols}

/-- Row `a` of the submatrix, from row `i`. -/
theorem subMatrixRow_spec (hg : Lists col_indicator fun b => (g b).val) (hcols : cols ≤ 63) (hN : t * t ≤ N)
    (hM : i₀ + rows * cols ≤ M) (i : Fin rows) {a : Nat} (ha : a < t) (out_matrix : Vector UInt8 N) :
    Returns (forUp 0 cols (out_matrix, 0) fun j (out_matrix, s) => do
        if col_indicator &&& (← bit j) = 0 then return (out_matrix, s)
        let out_matrix ← wr out_matrix (t * a + s) (← in_matrix[i₀ + (cols * i + j)]?)
        return (out_matrix, s + 1)) fun p => ∀ r (c : Fin t),
      rowsOf t p.1 r c = if r = a then partOf in_matrix i₀ rows cols i (g c) else rowsOf t out_matrix r c := by
  refine (Returns.forUp (fun j (p : Vector UInt8 N × Nat) => p.2 = Nat.count (fun b => col_indicator.testBit b = true) j ∧
    ∀ r (c : Fin t), rowsOf t p.1 r c = if r = a ∧ (g c).val < j then partOf in_matrix i₀ rows cols i (g c)
      else rowsOf t out_matrix r c) (Nat.zero_le cols) ⟨rfl, fun r c => by simp⟩ ?_).mono fun p ⟨_, h⟩ r c => ?_
  · rintro j ⟨b, s⟩ - hj ⟨hs, h⟩
    dsimp only at hs h
    simp only [bit_eq (show j < 64 by omega), Option.bind_eq_bind, Option.bind_some, and_two_pow_eq_zero_iff]
    cases hbit : col_indicator.testBit j with
    | false =>
      have hne : ∀ c, (g c).val ≠ j := fun c e => by
        rw [(hg.testBit_iff j).2 ⟨c, e⟩] at hbit
        cases hbit
      have hlt : ∀ c, (g c).val < j + 1 ↔ (g c).val < j := fun c => by
        have := hne c
        omega
      exact returns_some ⟨by rw [hs, Nat.count_succ, hbit]; rfl, fun r c => by simp only [h, hlt]⟩
    | true =>
      -- as many columns are taken as come before `j` among those indicated
      obtain ⟨c₀, rfl⟩ := (hg.testBit_iff j).1 hbit
      obtain rfl : s = c₀ := hs.trans (hg.count_eq c₀)
      have hsrc : i₀ + (cols * i + (g c₀).val) < M := by
        have := pos_lt i.isLt hj
        rw [Nat.mul_comm cols]
        omega
      have hdest : a * t + c₀.val < N := Nat.lt_of_lt_of_le (pos_lt ha c₀.isLt) hN
      simp only [rd_eq _ hsrc, Nat.mul_comm t, wr_eq _ hdest, Option.bind_some]
      refine returns_some ⟨by rw [Nat.count_succ, hg.count_eq, hbit]; rfl, fun r c => ?_⟩
      rw [rowsOf_upd _ hdest c₀.isLt, h]
      have hmono : (g c).val < (g c₀).val ↔ c < c₀ := hg.mono.lt_iff_lt
      by_cases hr : r = a
      · rcases lt_trichotomy c c₀ with hc | rfl | hc
        · simp [hr, hmono.2 hc, Nat.lt_succ_of_lt (hmono.2 hc), Fin.val_ne_of_ne hc.ne]
        · simp [hr, partOf]
        · have := hg.mono hc
          simp [hr, Fin.val_ne_of_ne hc.ne', hmono, hc.le, Nat.not_lt.2 (show (g c₀).val + 1 ≤ g c from this)]
      · simp [hr]
  · rw [h]
    simp

theorem genSubMatrix_spec (hf : Lists row_indicator fun a => (f a).val) (hg : Lists col_indicator fun b => (g b).val)
    (hrows : rows ≤ 63) (hcols : cols ≤ 63) (hN : t * t ≤ N) (hM : i₀ + rows * cols ≤ M) (out_matrix : Vector UInt8 N) :
    Returns (genSubMatrix out_matrix t in_matrix i₀ rows cols row_indicator col_indicator) fun out_matrix =>
      matOf t t out_matrix = (partOf in_matrix i₀ rows cols).submatrix f g := by
  unfold genSubMatrix
  refine (Returns.forUp (fun i (p : Vector UInt8 N × Nat) => p.2 = Nat.count (fun a => row_indicator.testBit a = true) i ∧
    ∀ a c : Fin t, (f a).val < i → rowsOf t p.1 a c = partOf in_matrix i₀ rows cols (f a) (g c)) (Nat.zero_le rows)
    ⟨rfl, fun a c h => absurd h (Nat.not_lt_zero _)⟩ ?_).bind fun p ⟨_, h⟩ =>
      returns_some (Matrix.ext fun a c => h a c (f a).isLt)
  rintro i ⟨b, r⟩ - hi ⟨hr, h⟩
  dsimp only at hr h
  simp only [bit_eq (show i < 64 by omega), Option.bind_eq_bind, Option.bind_some, and_two_pow_eq_zero_iff]
  cases hbit : row_indicator.testBit i with
  | false =>
    refine returns_some ⟨by rw [hr, Nat.count_succ, hbit]; rfl, fun a c ha => h a c ?_⟩
    have hne : (f a).val ≠ i := fun e => by
      rw [(hf.testBit_iff i).2 ⟨a, e⟩] at hbit
      cases hbit
    omega
  | true =>
    obtain ⟨a₀, rfl⟩ := (hf.testBit_iff i).1 hbit
    obtain rfl : r = a₀ := hr.trans (hf.count_eq a₀)
    refine (subMatrixRow_spec hg hcols hN hM (f a₀) a₀.isLt b).bind fun p hp => returns_some ⟨?_, fun a c ha => ?_⟩
    · rw [Nat.count_succ, hf.count_eq, hbit]
      rfl
    · rw [hp]
      rcases eq_or_ne a a₀ with rfl | hne
      · rw [if_pos rfl]
      · have hlt : (f a).val ≠ f a₀ := fun e => hne (hf.mono.injective e)
        rw [if_neg (Fin.val_ne_of_ne hne), h a c (by omega)]

/-- What one round of the search finds out. -/
def Invertible (A : Matrix (Fin rows) (Fin cols) GF256) (t col_indicator row_indicator : Nat) : Prop :=
  ∀ (f : Fin t → Fin rows) (g : Fin t → Fin cols), Lists row_indicator (fun a => (f a).val) →
    Lists col_indicator (fun b => (g b).val) → (A.submatrix f g).det ≠ 0

/-- `x` indicates `t` of `n` positions. -/
theorem exists_lists_lt {x n : Nat} (hw : weight x = t) (hx : x < 2 ^ n) :
    ∃ f : Fin t → Fin n, Lists x fun a => (f a).val := by
  obtain ⟨f, hf⟩ := exists_lists hw
  exact ⟨fun a => ⟨f a, hf.lt_iff.1 hx a⟩, hf⟩

theorem submatrixSingular_spec (hrows : rows ≤ 63) (hcols : cols ≤ 63) (ht : t ≤ K_MAX) (hM : i₀ + rows * cols ≤ M)
    (hwc : weight col_indicator = t) (hc : col_indicator < 2 ^ cols) (hwr : weight row_indicator = t)
    (hr : row_indicator < 2 ^ rows) (s : Squares) :
    Returns (submatrixSingular in_matrix i₀ rows cols t col_indicator row_indicator s)
      (Exits (fun _ => Invertible (partOf in_matrix i₀ rows cols) t col_indicator row_indicator) fun _ v =>
        v = 1 ∧ ¬ Mds.Superregular (partOf in_matrix i₀ rows cols)) := by
  obtain ⟨f, hf⟩ := exists_lists_lt hwr hr
  obtain ⟨g, hg⟩ := exists_lists_lt hwc hc
  have hN : t * t ≤ K_MAX * K_MAX := Nat.mul_le_mul ht ht
  refine (genSubMatrix_spec hf hg hrows hcols hN hM s.1).bind fun matrix hmat => ?_
  refine (gfInvertMatrix_spec hN hN matrix s.2).bind fun ⟨s', r⟩ h => ?_
  rw [hmat] at h
  rcases h with ⟨rfl, hinv⟩ | ⟨rfl, hsing⟩
  · refine returns_some fun f' g' hf' hg' => ?_
    obtain rfl : f' = f := funext fun a => Fin.ext (congrFun (hf'.unique hf) a)
    obtain rfl : g' = g := funext fun b => Fin.ext (congrFun (hg'.unique hg) b)
    exact det_ne_zero_of_left_inverse hinv
  · refine returns_some ⟨rfl, fun h => hsing ((isUnit_iff_isUnit_det _).2 (isUnit_iff_ne_zero.2 ?_))⟩
    exact h t f g (fun a b e => hf.mono.injective (congrArg Fin.val e)) fun a b e => hg.mono.injective (congrArg Fin.val e)

end

/-! ## All subsets -/

section
variable {body : Nat → σ → Option (σ × Option ρ)} {P : Nat → Prop} {R : σ → ρ → Prop} {e t : Nat}

/-- From `x` on. -/
theorem returns_eachSubset (ht : 0 < t) (ht63 : t ≤ 63) (he : e ≤ 63)
    (hbody : ∀ x, weight x = t → x < 2 ^ e → ∀ s, Returns (body x s) (Exits (fun _ => P x) R)) {fuel x : Nat} {s : σ}
    (hw : weight x = t) (hx : x < 2 ^ e) (hfuel : 2 ^ e ≤ x + fuel) (hseen : Seen P t x) :
    Returns (eachSubset e t body fuel x s) (Exits (fun _ => ∀ z, weight z = t → z < 2 ^ e → P z) R) := by
  -- the subset grows from round to round, so the fuel lasts
  induction fuel generalizing x s with
  | zero => omega
  | succ fuel ih =>
    have hpos : 0 < x := pos_of_weight_pos (hw ▸ ht)
    have hnext : IsNext x (next 64 x) :=
      isNext_next hpos (Nat.lt_of_lt_of_le hx (Nat.pow_le_pow_right (by decide) (by omega)))
    refine (hbody x hw hx s).bind fun ⟨s', r⟩ hr => ?_
    cases r with
    | some v => exact returns_some hr
    | none =>
      have hseen' := hseen.next hr hw hnext
      simp only [nextSubset_eq hpos hx he ht63, Option.bind_eq_bind, Option.bind_some]
      split
      · rename_i hlt
        have hgt := hnext.lt
        exact ih (hnext.weight_eq.trans hw) hlt (by omega) hseen'
      · rename_i hge
        exact returns_some fun z hz hlt => hseen' z hz (Nat.lt_of_lt_of_le hlt (Nat.not_lt.1 hge))

/-- From the first one on. -/
theorem Returns.eachSubset (ht : 0 < t) (hte : t ≤ e) (he : e ≤ 63)
    (hbody : ∀ x, weight x = t → x < 2 ^ e → ∀ s, Returns (body x s) (Exits (fun _ => P x) R)) (s : σ) :
    Returns (eachSubset e t body (2 ^ e) (2 ^ t - 1) s) (Exits (fun _ => ∀ z, weight z = t → z < 2 ^ e → P z) R) := by
  have hpow := Nat.pow_le_pow_right (show 0 < 2 by decide) hte
  have hpos := Nat.two_pow_pos t
  exact returns_eachSubset ht (Nat.le_trans hte he) he hbody (weight_ones t) (by omega) (by omega) (seen_first P t)

end

/-! ## The search -/

section
variable {rows cols i₀ : Nat}

/-- All submatrices with `t` rows. -/
def AllInvertible (A : Matrix (Fin rows) (Fin cols) GF256) (t : Nat) : Prop :=
  ∀ x, weight x = t → x < 2 ^ cols → ∀ y, weight y = t → y < 2 ^ rows → Invertible A t x y

theorem superregular_of_allInvertible {A : Matrix (Fin rows) (Fin cols) GF256}
    (h : ∀ t, 1 ≤ t → t < min rows cols + 1 → AllInvertible A t) : Mds.Superregular A := by
  rw [Mds.superregular_iff_strictMono]
  intro t r c hr hc
  rcases Nat.eq_zero_or_pos t with rfl | ht
  · simp
  · have hle := Mds.card_le_of_injective hr.injective
    have hle' := Mds.card_le_of_injective hc.injective
    obtain ⟨y, hy⟩ := exists_number (f := fun a => (r a).val) hr
    obtain ⟨x, hx⟩ := exists_number (f := fun b => (c b).val) hc
    exact h t ht (by omega) x hx.weight_eq (hx.lt_iff.2 fun b => (c b).isLt) y hy.weight_eq
      (hy.lt_iff.2 fun a => (r a).isLt) r c hy hx

/-- The search ends, and is complete. -/
theorem areSubmatrices_spec (hrows : rows ≤ 63) (hcols : cols ≤ 63) (hmin : min rows cols ≤ K_MAX)
    (hM : i₀ + rows * cols ≤ M) (vmatrix : Vector UInt8 M) (s : Squares) :
    Returns (areSubmatricesSingular vmatrix i₀ rows cols s) fun r =>
      (r = 0 ∨ r = 1) ∧ (r = 0 ↔ Mds.Superregular (partOf vmatrix i₀ rows cols)) := by
  unfold areSubmatricesSingular
  refine (Returns.forUntil (fun subsize (_ : Squares) => ∀ t, 1 ≤ t → t < subsize →
      AllInvertible (partOf vmatrix i₀ rows cols) t)
    (fun _ v => v = 1 ∧ ¬ Mds.Superregular (partOf vmatrix i₀ rows cols)) (by omega)
    (fun t h1 h2 => by omega) fun t s h1 h2 ih => ?_).bind fun ⟨s', r⟩ h => ?_
  · have hpow : 2 ^ t < 2 ^ 31 := Nat.pow_lt_pow_right (by decide) (by unfold K_MAX at hmin; omega)
    simp only [mulInt_eq (show 1 * 2 ^ t < 2 ^ 31 by omega), Nat.one_mul, Option.bind_eq_bind, Option.bind_some]
    have hall : Returns _ (Exits (fun _ => AllInvertible (partOf vmatrix i₀ rows cols) t) _) :=
      Returns.eachSubset h1 (by omega) hcols (fun x hwx hx s => Returns.eachSubset h1 (by omega) hrows
        (fun y hwy hy s => submatrixSingular_spec hrows hcols (by omega) hM hwx hx hwy hy s) s) s
    refine hall.mono fun ⟨s', r⟩ h => ?_
    cases r with
    | some v => exact h
    | none =>
      intro t' h1' h2'
      rcases Nat.eq_or_lt_of_le (Nat.le_of_lt_succ h2') with rfl | hlt
      · exact h
      · exact ih t' h1' hlt
  · cases r with
    | some v =>
      obtain ⟨rfl, hsing⟩ := h
      exact returns_some ⟨.inr rfl, fun h => absurd h (by decide), fun h => absurd h hsing⟩
    | none => exact returns_some ⟨.inl rfl, fun _ => superregular_of_allInvertible h, fun _ => rfl⟩

/-- **The search decides whether the code can lose any `rows` symbols.** It returns 0 when
any `cols` rows of the identity on top of the matrix are independent, and 1 when some are
not. -/
theorem areSubmatricesSingular_iff (hrows : rows ≤ 63) (hcols : cols ≤ 63) (hmin : min rows cols ≤ K_MAX)
    (hM : i₀ + rows * cols ≤ M) (vmatrix : Vector UInt8 M) (s : Squares) :
    Returns (areSubmatricesSingular vmatrix i₀ rows cols s) fun r => (r = 0 ∨ r = 1) ∧
      (r = 0 ↔ Mds.AnyRows (Mds.generator (partOf vmatrix i₀ rows cols)) fun _ => True) :=
  (areSubmatrices_spec hrows hcols hmin hM vmatrix s).mono fun r h => by rwa [Mds.anyRows_generator_iff]

/-- Two equal rows. -/
theorem areSubmatricesSingular_iff_equal : Returns (areSubmatricesSingular (Vector.replicate 4 1) 0 2 2
    (Vector.replicate _ 0, Vector.replicate _ 0)) fun r => (r = 0 ∨ r = 1) ∧
      (r = 0 ↔ Mds.AnyRows (Mds.generator (partOf (Vector.replicate 4 1) 0 2 2)) fun _ => True) :=
  areSubmatricesSingular_iff (by decide) (by decide) (by decide) (by decide) _ _

end

/-! ## The limits -/

/-- How many rows the matrix with `k` columns can have, up to `M_MAX`. -/
def limit (k : Nat) : Nat := if k ≤ 3 then M_MAX else if k = 4 then 25 else if k = 5 then 10 else k + 4

theorem noAdjustment_iff_le_limit {k m : Nat} (hk : k ≤ K_MAX) (hkm : k < m) (hm : m ≤ M_MAX) :
    NoAdjustment k m ↔ m ≤ limit k := by
  unfold NoAdjustment limit M_MAX
  unfold M_MAX at hm
  unfold K_MAX at hk
  split_ifs <;> omega

theorem lt_limit {k : Nat} (hk : k ≤ K_MAX) : k < limit k ∧ limit k ≤ M_MAX := by
  unfold limit M_MAX
  unfold K_MAX at hk
  split_ifs <;> omega

section
variable {rows cols : Nat}

/-- Below the identity. -/
theorem partOf_rsMatrix {a : Vector UInt8 N} (h : ∀ r, r < rows + cols → rowsOf cols a r = rsMatrix cols r) :
    partOf a (cols * cols) rows cols = Mds.powers two rows cols := by
  ext i c
  have hrow := congrFun (h (cols + i) (by omega)) c
  rw [rowsOf_apply, Nat.add_mul, Nat.mul_comm i.val, Nat.add_assoc] at hrow
  rw [partOf, of_apply, hrow]
  simp [rsMatrix, Mds.powers_apply]

variable (vmatrix : Vector UInt8 ((M_MAX + K_MAX) * K_MAX))

/-- One number of rows. -/
theorem rsMatrixRows_spec (hcols : cols ≤ K_MAX) (hrows : rows + cols ≤ M_MAX) (raw : Squares) :
    Returns (do
        let vmatrix ← gfGenRsMatrix vmatrix (rows + cols) cols
        let singular ← areSubmatricesSingular vmatrix (cols * cols) rows cols raw
        return (vmatrix, if singular = 0 then none else some rows))
      (Exits (fun _ => NoAdjustment cols (rows + cols)) fun _ v => v = rows ∧ ¬ NoAdjustment cols (rows + cols)) := by
  have hN : (rows + cols) * cols ≤ (M_MAX + K_MAX) * K_MAX := Nat.mul_le_mul (by omega) hcols
  have hM : cols * cols + rows * cols ≤ (M_MAX + K_MAX) * K_MAX := by
    rwa [← Nat.add_mul, Nat.add_comm cols]
  unfold M_MAX at hrows
  have hiff := superregular_powers_iff (k := cols) (m := rows + cols) (by omega) (by omega)
  rw [Nat.add_sub_cancel] at hiff
  refine (gfGenRsMatrix_spec hN (by omega) vmatrix).bind fun a ha => ?_
  refine (areSubmatrices_spec (by omega) (by unfold K_MAX at hcols; omega) (by omega) hM a raw).bind fun r hr => ?_
  rw [partOf_rsMatrix ha, hiff] at hr
  refine returns_some ?_
  split
  · rename_i h
    exact hr.2.1 h
  · rename_i h
    exact ⟨rfl, fun hno => h (hr.2.2 hno)⟩

/-- One number of columns: the last number of rows without a singular submatrix. -/
theorem rsMatrixCols_spec (hcols : cols ≤ K_MAX) (raw : Nat → Squares) :
    Returns (forUntil 1 (M_MAX - cols + 1) vmatrix fun rows vmatrix => do
        let vmatrix ← gfGenRsMatrix vmatrix (rows + cols) cols
        let singular ← areSubmatricesSingular vmatrix (cols * cols) rows cols (raw rows)
        return (vmatrix, if singular = 0 then none else some rows))
      fun p => p.2.getD (M_MAX - cols + 1) + cols - 1 = limit cols := by
  have hM : cols < M_MAX := Nat.lt_of_le_of_lt hcols (by decide)
  have hle : ∀ r, 1 ≤ r → r ≤ M_MAX - cols → (NoAdjustment cols (r + cols) ↔ r + cols ≤ limit cols) :=
    fun r h1 h2 => noAdjustment_iff_le_limit hcols (by omega) (by omega)
  obtain ⟨hlt, hmax⟩ := lt_limit hcols
  refine (Returns.forUntil (fun rows _ => ∀ r, 1 ≤ r → r < rows → r + cols ≤ limit cols)
    (fun _ v => v + cols = limit cols + 1) (by omega) (fun r h1 h2 => by omega) fun rows a h1 h2 ih => ?_).mono
    fun ⟨a', r⟩ h => ?_
  · refine (rsMatrixRows_spec a hcols (by omega) (raw rows)).mono fun ⟨a', r⟩ h => ?_
    cases r with
    | some v =>
      obtain ⟨rfl, hno⟩ := h
      rw [hle _ h1 (by omega)] at hno
      change v + cols = limit cols + 1
      rcases Nat.eq_or_lt_of_le h1 with rfl | h1'
      · omega
      · have := ih (v - 1) (by omega) (by omega)
        omega
    | none =>
      intro r h1' h2'
      rcases Nat.eq_or_lt_of_le (Nat.le_of_lt_succ h2') with rfl | hlt
      · exact (hle _ h1 (by omega)).1 h
      · exact ih r h1' hlt
  · cases r with
    | some v =>
      change v + cols - 1 = limit cols
      rw [show v + cols = limit cols + 1 from h, Nat.add_sub_cancel]
    | none =>
      have := h (M_MAX - cols) (by omega) (by omega)
      change M_MAX - cols + 1 + cols - 1 = limit cols
      omega

end

theorem returns_genRsMatrixLimits (vmatrix : Vector UInt8 ((M_MAX + K_MAX) * K_MAX)) (raw : Nat → Nat → Squares) :
    Returns (genRsMatrixLimits vmatrix raw) fun lines => lines = (List.range' 1 K_MAX).map fun k => (k, limit k) := by
  unfold genRsMatrixLimits
  refine (Returns.forUp (fun cols (p : Vector UInt8 ((M_MAX + K_MAX) * K_MAX) × List (Nat × Nat)) =>
    p.2 = (List.range' 1 (cols - 1)).map fun k => (k, limit k)) (by decide) rfl ?_).bind
    fun p hp => returns_some hp
  rintro cols ⟨a, lines⟩ h1 h2 rfl
  refine (rsMatrixCols_spec a (Nat.le_of_lt_succ h2) (raw cols)).bind fun p hp => returns_some ?_
  obtain ⟨c, rfl⟩ := Nat.exists_eq_add_of_le' h1
  rw [hp, Nat.add_sub_cancel, Nat.add_sub_cancel, List.range'_1_concat, List.map_append, Nat.add_comm 1 c]
  rfl

/-- **The program prints the limits.** It ends, whatever its memory holds at first; and up
to the printed number of rows, and no further, any `k` rows of the matrix that
`gf_gen_rs_matrix` generates are independent. -/
theorem genRsMatrixLimits_eq (vmatrix : Vector UInt8 ((M_MAX + K_MAX) * K_MAX)) (raw : Nat → Nat → Squares) :
    genRsMatrixLimits vmatrix raw = some ((List.range' 1 K_MAX).map fun k => (k, limit k)) ∧
      ∀ k m, k ≤ K_MAX → k < m → m ≤ M_MAX →
        Returns (gfGenRsMatrix vmatrix m k) fun a => Mds.AnyRows (rowsOf k a) (· < m) ↔ m ≤ limit k := by
  refine ⟨(returns_genRsMatrixLimits vmatrix raw).elim fun lines h => h.2 ▸ h.1, fun k m hk hkm hm => ?_⟩
  have hN : m * k ≤ (M_MAX + K_MAX) * K_MAX := Nat.mul_le_mul (by omega) hk
  refine (gfGenRsMatrix_spec hN hkm.le vmatrix).mono fun a h => ?_
  rw [anyRows_iff_noAdjustment hkm.le (by unfold M_MAX at hm; omega) h, noAdjustment_iff_le_limit hk hkm hm]

end ErasureCode.Isal
