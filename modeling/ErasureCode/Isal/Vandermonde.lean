import Mathlib.GroupTheory.OrderOfElement
import ErasureCode.Core.Superregular
import ErasureCode.Isal.Matrix

/-!
# The other generator

`gf_gen_rs_matrix` (`lib/isa-l/erasure_code/ec_base.c:73-90`) puts the powers of 2
below the identity, row `i` the powers of `2 ^ (i - k)`. Its rows are not always
independent. `lib/isa-l/include/erasure_code.h:890-897` lists the pairs of `m` and
`k` for which any `k` of the `m` rows are (`NoAdjustment`).

`gfGenRsMatrix_anyRows_iff`: up to 256 rows, these are all such pairs.
-/
namespace ErasureCode.Isal

open ErasureCode.Core Matrix

variable {N m k n t : Nat}

/-- mirrors lib/isa-l/erasure_code/ec_base.c:73-90 -/
def gfGenRsMatrix (a : Vector UInt8 N) (m k : Nat) : Option (Vector UInt8 N) := do
  let a ← forUp 0 (k * m) a fun i a => wr a i 0
  let a ← forUp 0 k a fun i a => wr a (k * i + i) 1
  let (a, _) ← forUp k m (a, 1) fun i (a, gen) => do
    let (a, _) ← forUp 0 k (a, 1) fun j (a, p) => do
      let a ← wr a (k * i + j) p
      return (a, gfMul p gen)
    return (a, gfMul gen 2)
  return a

/-- No adjustment is required for these.
mirrors lib/isa-l/include/erasure_code.h:893-897 -/
def NoAdjustment (k m : Nat) : Prop :=
  k ≤ 3 ∨ (k = 4 ∧ m ≤ 25) ∨ (k = 5 ∧ m ≤ 10) ∨ (k ≤ 21 ∧ m - k = 4) ∨ m - k ≤ 3

instance (k m : Nat) : Decidable (NoAdjustment k m) := inferInstanceAs (Decidable (_ ∨ _))

/-- The byte 2. -/
def two : GF256 := ⟨2⟩

/-- The matrix `gf_gen_rs_matrix` generates, with `k` columns. -/
def rsMatrix (k : Nat) : Matrix Nat (Fin k) GF256 := fun r j =>
  if r < k then (if r = j then 1 else 0) else two ^ ((r - k) * j)

/-! ## The loops -/

/-- Row `i`, the powers of `g`. -/
theorem rsRow_spec (hN : m * k ≤ N) (a : Vector UInt8 N) {i : Nat} (hi : i < m) (g : GF256) :
    Returns (forUp 0 k (a, 1) fun j (a, p) => do
        let a ← wr a (i * k + j) p
        return (a, gfMul p g.byte)) fun s => ∀ r (c : Fin k),
      rowsOf k s.1 r c = if r = i then g ^ c.val else rowsOf k a r c := by
  refine (Returns.forUp (fun j (s : Vector UInt8 N × UInt8) => ⟨s.2⟩ = g ^ j ∧ ∀ r (c : Fin k),
    rowsOf k s.1 r c = if r = i ∧ c.val < j then g ^ c.val else rowsOf k a r c) (Nat.zero_le k)
    ⟨(pow_zero g).symm, fun r c => by simp⟩ ?_).mono fun s ⟨_, h⟩ r c => ?_
  · rintro j ⟨b, p⟩ - hj ⟨hp, h⟩
    have hlt : i * k + j < N := Nat.lt_of_lt_of_le (pos_lt hi hj) hN
    simp only at hp h
    simp only [wr_eq _ hlt, Option.bind_eq_bind, Option.bind_some]
    refine returns_some ⟨by rw [pow_succ, ← hp]; rfl, fun r c => ?_⟩
    rw [rowsOf_upd _ hlt hj, h, hp]
    by_cases hr : r = i
    · rcases Nat.lt_trichotomy c.val j with hc | hc | hc
      · simp [hr, hc, Nat.ne_of_lt hc, Nat.lt_succ_of_lt hc]
      · simp [hr, hc]
      · simp [hr, Nat.ne_of_gt hc, Nat.not_lt.2 (Nat.le_of_lt hc), Nat.not_lt.2 (show j + 1 ≤ c from hc)]
    · simp [hr]
  · rw [h]
    simp

theorem gfGenRsMatrix_spec (hN : m * k ≤ N) (hk : k ≤ m) (a : Vector UInt8 N) :
    Returns (gfGenRsMatrix a m k) fun a' => ∀ r, r < m → rowsOf k a' r = rsMatrix k r := by
  have hkk : k * k ≤ N := Nat.le_trans (Nat.mul_le_mul_right k hk) hN
  unfold gfGenRsMatrix
  refine (zeroLoop_spec (by rw [Nat.mul_comm]; exact hN) a).bind fun a1 h1 => ?_
  simp only [Nat.mul_comm k]
  refine (diagLoop_spec hkk a1).bind fun a2 h2 => ?_
  refine (Returns.forUp (fun i (s : Vector UInt8 N × UInt8) => ⟨s.2⟩ = two ^ (i - k) ∧ ∀ r, r < m →
    rowsOf k s.1 r = if r < i then rsMatrix k r else fun _ => 0) hk ⟨by rw [Nat.sub_self]; rfl, fun r hr => ?_⟩
    ?_).bind fun s ⟨_, h⟩ => returns_some fun r hr => ?_
  · funext c
    rw [h2, rowsOf_apply, h1 _ (by rw [Nat.mul_comm k]; exact pos_lt hr c.isLt)]
    by_cases hrk : r < k
    · simp [rsMatrix, hrk]
    · have hne : r ≠ c.val := fun e => hrk (e ▸ c.isLt)
      simp [hrk, hne]
  · rintro i ⟨b, g⟩ hki hi ⟨hg, h⟩
    simp only at hg h
    refine (rsRow_spec hN b hi ⟨g⟩).bind fun s h' => returns_some ⟨?_, fun r hr => ?_⟩
    · rw [Nat.succ_sub hki, pow_succ, ← hg]
      rfl
    · funext c
      rw [h', h r hr, hg, ← pow_mul]
      rcases Nat.lt_trichotomy r i with hri | hri | hri
      · simp [hri, Nat.ne_of_lt hri, Nat.lt_succ_of_lt hri]
      · simp [hri, rsMatrix, Nat.not_lt.2 hki]
      · simp [Nat.ne_of_gt hri, Nat.not_lt.2 (Nat.le_of_lt hri), Nat.not_lt.2 (show i + 1 ≤ r from hri)]
  · rw [h r hr, if_pos hr]

/-! ## Its minors -/

/-- Row `r` of the generator: an identity row, or a row of powers. -/
def rsRow (k n : Nat) : Fin k ⊕ Fin n → Nat
  | .inl j => j
  | .inr p => k + p

theorem rsMatrix_anyRows_iff (hk : k ≤ m) :
    Mds.AnyRows (rsMatrix k) (· < m) ↔ Mds.Superregular (Mds.powers two (m - k) k) := by
  rw [← Mds.anyRows_generator_iff]
  refine Mds.anyRows_iff_of_range (φ := rsRow k (m - k)) (fun x y h => ?_) (fun r => ⟨fun hr => ?_, ?_⟩) fun x => ?_
  · rcases x with j | p <;> rcases y with j' | p' <;> simp only [rsRow] at h
    · rw [Fin.ext h]
    · omega
    · omega
    · rw [Fin.ext (Nat.add_left_cancel h)]
  · by_cases hrk : r < k
    · exact ⟨.inl ⟨r, hrk⟩, rfl⟩
    · exact ⟨.inr ⟨r - k, by omega⟩, by simp only [rsRow]; omega⟩
  · rintro ⟨j | p, rfl⟩ <;> simp only [rsRow] <;> omega
  · funext c
    rcases x with j | p
    · rcases eq_or_ne j c with rfl | hne
      · simp [rsRow, rsMatrix]
      · simp [rsRow, rsMatrix, hne, Fin.val_ne_of_ne hne]
    · simp [rsRow, rsMatrix, Mds.powers_apply]

theorem two_pow (e : Nat) : two ^ e = ⟨exp e⟩ := by
  induction e with
  | zero => rfl
  | succ e ih =>
    have hlog : log two.byte = 1 := by decide
    rw [pow_succ', ih, exp_succ]
    exact GF256.ext ((gfMul_eq_iterate (by decide) _).trans (by rw [hlog]; rfl))

theorem two_ne_zero : two ≠ 0 := by decide

/-- The powers of 2 are all the nonzero bytes. -/
theorem orderOf_two : orderOf two = 255 := by
  rw [orderOf_eq_iff (by decide)]
  have hperiod : ∀ e : Fin 255, 0 < e.val → exp e.val ≠ 1 := by decide +kernel
  refine ⟨by rw [two_pow]; rfl, fun e he hpos h => hperiod ⟨e, he⟩ hpos ?_⟩
  rw [two_pow] at h
  exact congrArg GF256.byte h

theorem two_pow_eq_one_iff (e : Nat) : two ^ e = 1 ↔ 255 ∣ e := by
  rw [← orderOf_dvd_iff_pow_eq_one, orderOf_two]

theorem two_pow_inj {i j : Nat} (hi : i < 255) (hj : j < 255) (h : two ^ i = two ^ j) : i = j :=
  pow_injOn_Iio_orderOf (by rwa [orderOf_two]) (by rwa [orderOf_two]) h

/-! ## Small minors

The rows and the columns are given by their distances to the first of them. -/

/-- What is left of an entry when a row and a column are taken off. -/
def powSubOne (d a : Nat) : GF256 := ⟨exp (d * a)⟩ - 1

def minorThree (d₁ d₂ a₁ a₂ : Nat) : GF256 := powSubOne d₁ a₁ * powSubOne d₂ a₂ - powSubOne d₁ a₂ * powSubOne d₂ a₁

def minorFour (d₁ d₂ d₃ a₁ a₂ a₃ : Nat) : GF256 :=
  powSubOne d₁ a₁ * powSubOne d₂ a₂ * powSubOne d₃ a₃ - powSubOne d₁ a₁ * powSubOne d₂ a₃ * powSubOne d₃ a₂ -
    powSubOne d₁ a₂ * powSubOne d₂ a₁ * powSubOne d₃ a₃ + powSubOne d₁ a₂ * powSubOne d₂ a₃ * powSubOne d₃ a₁ +
    powSubOne d₁ a₃ * powSubOne d₂ a₁ * powSubOne d₃ a₂ - powSubOne d₁ a₃ * powSubOne d₂ a₂ * powSubOne d₃ a₁

/-- For all `0 < x < y < n`. -/
def ForPairs (n : Nat) (P : Nat → Nat → Prop) : Prop := ∀ y < n, ∀ x < y, 0 < x → P x y

/-- For all `0 < x < y < z < n`. -/
def ForTriples (n : Nat) (P : Nat → Nat → Nat → Prop) : Prop := ∀ z < n, ForPairs z fun x y => P x y z

instance (P : Nat → Nat → Prop) [∀ x y, Decidable (P x y)] : Decidable (ForPairs n P) :=
  inferInstanceAs (Decidable (∀ y < n, ∀ x < y, _))

instance (P : Nat → Nat → Nat → Prop) [∀ x y z, Decidable (P x y z)] : Decidable (ForTriples n P) :=
  inferInstanceAs (Decidable (∀ z < n, _))

theorem minor_one (r : Fin 1 → Fin n) (c : Fin 1 → Fin k) : ((Mds.powers two n k).submatrix r c).det ≠ 0 := by
  rw [det_fin_one]
  exact pow_ne_zero _ two_ne_zero

theorem minor_two {r : Fin 2 → Fin n} {c : Fin 2 → Fin k} (hr : StrictMono r) (hc : StrictMono c)
    (h : ¬ 255 ∣ ((r 1).val - r 0) * ((c 1).val - c 0)) : ((Mds.powers two n k).submatrix r c).det ≠ 0 := by
  rw [Mds.powers_det_succ two_ne_zero hr.monotone hc.monotone, det_fin_one, of_apply, sub_ne_zero]
  exact fun e => h ((two_pow_eq_one_iff _).1 e)

theorem minor_three {r : Fin 3 → Fin n} {c : Fin 3 → Fin k} (hr : StrictMono r) (hc : StrictMono c) :
    ((Mds.powers two n k).submatrix r c).det ≠ 0 ↔
      minorThree ((r 1).val - r 0) ((r 2).val - r 0) ((c 1).val - c 0) ((c 2).val - c 0) ≠ 0 := by
  rw [Mds.powers_det_succ two_ne_zero hr.monotone hc.monotone, det_fin_two]
  simp only [two_pow]
  rfl

theorem minor_four {r : Fin 4 → Fin n} {c : Fin 4 → Fin k} (hr : StrictMono r) (hc : StrictMono c) :
    ((Mds.powers two n k).submatrix r c).det ≠ 0 ↔
      minorFour ((r 1).val - r 0) ((r 2).val - r 0) ((r 3).val - r 0) ((c 1).val - c 0) ((c 2).val - c 0)
        ((c 3).val - c 0) ≠ 0 := by
  rw [Mds.powers_det_succ two_ne_zero hr.monotone hc.monotone, det_fin_three]
  simp only [two_pow]
  rfl

/-! ## The pairs of the list -/

theorem minorThree_ne_zero : ForPairs 21 fun d₁ d₂ => ForPairs 4 fun a₁ a₂ => minorThree d₁ d₂ a₁ a₂ ≠ 0 := by
  decide +kernel

theorem minorThree_ne_zero_five : ForPairs 5 fun d₁ d₂ => ForPairs 5 fun a₁ a₂ => minorThree d₁ d₂ a₁ a₂ ≠ 0 := by
  decide +kernel

theorem minorFour_ne_zero : ForTriples 5 fun d₁ d₂ d₃ => ForTriples 5 fun a₁ a₂ a₃ => minorFour d₁ d₂ d₃ a₁ a₂ a₃ ≠ 0 := by
  decide +kernel

theorem powers_injective (hn : n ≤ 255) {r : Fin t → Fin n} (hr : StrictMono r) :
    Function.Injective fun i => two ^ (r i).val := fun i j h =>
  hr.injective (Fin.ext (two_pow_inj (by omega) (by omega) h))

/-- Later rows are further from the first. -/
theorem distance_lt {r : Fin (t + 1) → Fin n} (hr : StrictMono r) {i j : Fin (t + 1)} (hij : i < j) :
    (r i).val - r 0 < (r j).val - r 0 ∧ (r j).val - r 0 < n := by
  have h1 := Fin.le_def.1 (hr.monotone (Fin.zero_le i))
  have h2 := Fin.lt_def.1 (hr hij)
  omega

theorem distance_pos {r : Fin (t + 1) → Fin n} (hr : StrictMono r) {i : Fin (t + 1)} (hi : 0 < i) :
    0 < (r i).val - r 0 :=
  Nat.sub_pos_of_lt (hr hi)

/-- Two rows and two columns: their distances have a product below the order of 2. -/
theorem minor_two_of_lt {r : Fin 2 → Fin n} {c : Fin 2 → Fin k} (hr : StrictMono r) (hc : StrictMono c)
    (h : n * k ≤ 255) : ((Mds.powers two n k).submatrix r c).det ≠ 0 := by
  refine minor_two hr hc fun hdvd => ?_
  have hlt := Nat.mul_lt_mul'' (distance_lt hr (show 0 < 1 by decide)).2 (distance_lt hc (show 0 < 1 by decide)).2
  have hpos := Nat.mul_pos (distance_pos hr (show 0 < 1 by decide)) (distance_pos hc (show 0 < 1 by decide))
  exact absurd (Nat.le_of_dvd hpos hdvd) (by omega)

theorem ForPairs.minor_three (h : ForPairs n fun d₁ d₂ => ForPairs k fun a₁ a₂ => minorThree d₁ d₂ a₁ a₂ ≠ 0)
    {r : Fin 3 → Fin n} {c : Fin 3 → Fin k} (hr : StrictMono r) (hc : StrictMono c) :
    ((Mds.powers two n k).submatrix r c).det ≠ 0 :=
  (Isal.minor_three hr hc).2
    (h _ (distance_lt hr (show 1 < 2 by decide)).2 _ (distance_lt hr (show 1 < 2 by decide)).1
      (distance_pos hr (show 0 < 1 by decide)) _ (distance_lt hc (show 1 < 2 by decide)).2 _
      (distance_lt hc (show 1 < 2 by decide)).1 (distance_pos hc (show 0 < 1 by decide)))

theorem ForTriples.minor_four
    (h : ForTriples n fun d₁ d₂ d₃ => ForTriples k fun a₁ a₂ a₃ => minorFour d₁ d₂ d₃ a₁ a₂ a₃ ≠ 0)
    {r : Fin 4 → Fin n} {c : Fin 4 → Fin k} (hr : StrictMono r) (hc : StrictMono c) :
    ((Mds.powers two n k).submatrix r c).det ≠ 0 :=
  (Isal.minor_four hr hc).2
    (h _ (distance_lt hr (show 2 < 3 by decide)).2 _ (distance_lt hr (show 2 < 3 by decide)).1 _
      (distance_lt hr (show 1 < 2 by decide)).1 (distance_pos hr (show 0 < 1 by decide)) _
      (distance_lt hc (show 2 < 3 by decide)).2 _ (distance_lt hc (show 2 < 3 by decide)).1 _
      (distance_lt hc (show 1 < 2 by decide)).1 (distance_pos hc (show 0 < 1 by decide)))

theorem superregular_three (hn : n ≤ 255) : Mds.Superregular (Mds.powers two n 3) := by
  rw [Mds.superregular_iff_strictMono]
  intro t r c hr hc
  have ht := Mds.card_le_of_injective hc.injective
  interval_cases t
  · simp
  · exact minor_one r c
  · have hd := distance_lt hr (show 0 < 1 by decide)
    have ha := distance_lt hc (show 0 < 1 by decide)
    have hd0 := distance_pos hr (show 0 < 1 by decide)
    refine minor_two hr hc ?_
    -- the columns are one or two apart, and 255 is odd
    obtain h | h : (c 1).val - c 0 = 1 ∨ (c 1).val - c 0 = 2 := by omega
    · rw [h]
      omega
    · rw [h]
      omega
  · exact Mds.powers_det_full (powers_injective hn hr) hc

theorem superregular_le_three (hk : k ≤ 3) (hnk : n + k ≤ 256) : Mds.Superregular (Mds.powers two n k) := by
  rcases Nat.eq_zero_or_pos k with rfl | hpos
  · intro t r c _ hc
    obtain rfl : t = 0 := Nat.le_zero.1 (Mds.card_le_of_injective hc)
    simp
  · exact (superregular_three (by omega)).powers_mono (Nat.le_refl n) hk

theorem superregular_four : Mds.Superregular (Mds.powers two 21 4) := by
  rw [Mds.superregular_iff_strictMono]
  intro t r c hr hc
  have ht := Mds.card_le_of_injective hc.injective
  interval_cases t
  · simp
  · exact minor_one r c
  · exact minor_two_of_lt hr hc (by decide)
  · exact minorThree_ne_zero.minor_three hr hc
  · exact Mds.powers_det_full (powers_injective (by decide) hr) hc

theorem superregular_five : Mds.Superregular (Mds.powers two 5 5) := by
  rw [Mds.superregular_iff_strictMono]
  intro t r c hr hc
  have ht := Mds.card_le_of_injective hc.injective
  interval_cases t
  · simp
  · exact minor_one r c
  · exact minor_two_of_lt hr hc (by decide)
  · exact minorThree_ne_zero_five.minor_three hr hc
  · exact minorFour_ne_zero.minor_four hr hc
  · exact Mds.powers_det_full (powers_injective (by decide) hr) hc

/-! ## The other pairs -/

theorem not_superregular_four : ¬ Mds.Superregular (Mds.powers two 4 22) := fun h => by
  have hr : StrictMono (![0, 1, 3] : Fin 3 → Fin 4) := by decide
  have hc : StrictMono (![0, 10, 21] : Fin 3 → Fin 22) := by decide
  exact (minor_three hr hc).1 (h 3 _ _ hr.injective hc.injective) (by decide +kernel)

theorem not_superregular_five : ¬ Mds.Superregular (Mds.powers two 5 6) := fun h => by
  have hr : StrictMono (![0, 1, 4] : Fin 3 → Fin 5) := by decide
  have hc : StrictMono (![0, 3, 5] : Fin 3 → Fin 6) := by decide
  exact (minor_three hr hc).1 (h 3 _ _ hr.injective hc.injective) (by decide +kernel)

theorem superregular_powers_iff (hk : k ≤ m) (hm : m ≤ 256) :
    Mds.Superregular (Mds.powers two (m - k) k) ↔ NoAdjustment k m := by
  constructor
  · intro h
    by_contra hno
    have hbad : (4 ≤ m - k ∧ 22 ≤ k) ∨ (22 ≤ m - k ∧ 4 ≤ k) ∨ (5 ≤ m - k ∧ 6 ≤ k) ∨ (6 ≤ m - k ∧ 5 ≤ k) := by
      unfold NoAdjustment at hno
      omega
    rcases hbad with ⟨h1, h2⟩ | ⟨h1, h2⟩ | ⟨h1, h2⟩ | ⟨h1, h2⟩
    · exact not_superregular_four (h.powers_mono h1 h2)
    · exact not_superregular_four (h.powers_comm.powers_mono h2 h1)
    · exact not_superregular_five (h.powers_mono h1 h2)
    · exact not_superregular_five (h.powers_comm.powers_mono h2 h1)
  · rintro (h | ⟨h1, h2⟩ | ⟨h1, h2⟩ | ⟨h1, h2⟩ | h)
    · exact superregular_le_three h (by omega)
    · exact superregular_four.powers_mono (by omega) (by omega)
    · exact superregular_five.powers_mono (by omega) (by omega)
    · exact superregular_four.powers_comm.powers_mono (by omega) h1
    · exact (superregular_le_three h (by omega)).powers_comm

/-- Any `k` different rows, whatever the bytes after the last one. -/
theorem anyRows_iff_noAdjustment (hk : k ≤ m) (hm : m ≤ 256) {a : Vector UInt8 N}
    (h : ∀ r, r < m → rowsOf k a r = rsMatrix k r) : Mds.AnyRows (rowsOf k a) (· < m) ↔ NoAdjustment k m := by
  rw [← superregular_powers_iff hk hm, ← rsMatrix_anyRows_iff hk]
  exact Mds.anyRows_congr h

/-- **The list is complete.** Up to 256 rows, any `k` different rows of the matrix that
`gf_gen_rs_matrix` generates are independent for the pairs that are listed, and for no
others. -/
theorem gfGenRsMatrix_anyRows_iff (hN : m * k ≤ N) (hk : k ≤ m) (hm : m ≤ 256) (a : Vector UInt8 N) :
    Returns (gfGenRsMatrix a m k) fun a' => Mds.AnyRows (rowsOf k a') (· < m) ↔ NoAdjustment k m :=
  (gfGenRsMatrix_spec hN hk a).mono fun _ => anyRows_iff_noAdjustment hk hm

/-- Eleven rows of five are one too many. -/
theorem gfGenRsMatrix_anyRows_iff_eleven : Returns (gfGenRsMatrix (Vector.replicate 55 0) 11 5) fun a' =>
    Mds.AnyRows (rowsOf 5 a') (· < 11) ↔ NoAdjustment 5 11 :=
  gfGenRsMatrix_anyRows_iff (by decide) (by decide) (by decide) _

end ErasureCode.Isal
