import Mathlib.Combinatorics.Colex
import Mathlib.Data.Finset.Sort
import Mathlib.Data.Nat.Bitwise
import Mathlib.Data.Nat.Count
import Mathlib.Data.Nat.Factorization.Basic
import Mathlib.Order.Interval.Finset.Fin
import Mathlib.Tactic.Ring

/-!
# Subsets as numbers

The number `x` stands for the subset of the positions of its ones, `weight x` of them.
`IsNext x y`: `y` is the next number with as many ones. Above the first zero over the
lowest ones nothing changes (`isNext_run`), and a few word operations compute it
(`isNext_next`).

`Seen.next`: who starts at the first number of weight `s` and goes on to the next sees
all of them.
-/
namespace ErasureCode.Core.Subsets

/-! ## Weights -/

/-- How many ones. -/
def weight (x : Nat) : Nat := x.bitIndices.length

/-- The positions of the ones. -/
def members (x : Nat) : Finset Nat := x.bitIndices.toFinset

theorem mem_members {x i : Nat} : i ∈ members x ↔ x.testBit i := by
  rw [members, List.mem_toFinset, Nat.mem_bitIndices]

theorem card_members (x : Nat) : (members x).card = weight x :=
  List.toFinset_card_of_nodup Nat.bitIndices_nodup

theorem weight_zero : weight 0 = 0 := by rw [weight, Nat.bitIndices_zero]; rfl

theorem eq_zero_of_weight {x : Nat} (h : weight x = 0) : x = 0 := by
  rw [← Nat.sum_map_two_pow_bitIndices x, List.length_eq_zero_iff.1 h]
  rfl

theorem weight_two_mul (q : Nat) : weight (2 * q) = weight q := by
  rw [weight, Nat.bitIndices_two_mul, List.length_map]
  rfl

theorem weight_two_mul_add_one (q : Nat) : weight (2 * q + 1) = weight q + 1 := by
  rw [weight, Nat.bitIndices_two_mul_add_one, List.length_cons, List.length_map]
  rfl

/-- The ones at and above position `a`, and those below it. -/
theorem weight_split {a z : Nat} (hz : z < 2 ^ a) (q : Nat) : weight (2 ^ a * q + z) = weight q + weight z := by
  induction a generalizing z with
  | zero =>
    obtain rfl : z = 0 := by omega
    rw [weight_zero, pow_zero, Nat.one_mul]
    rfl
  | succ a ih =>
    have hhalf : z / 2 < 2 ^ a := by omega
    have hpow : 2 ^ (a + 1) * q = 2 * (2 ^ a * q) := by rw [Nat.pow_succ']; ring
    rcases Nat.mod_two_eq_zero_or_one z with h | h
    · obtain ⟨y, rfl⟩ : ∃ y, z = 2 * y := ⟨z / 2, by omega⟩
      rw [hpow, ← Nat.mul_add, weight_two_mul, weight_two_mul, ih (by omega)]
    · obtain ⟨y, rfl⟩ : ∃ y, z = 2 * y + 1 := ⟨z / 2, by omega⟩
      rw [hpow, ← Nat.add_assoc, ← Nat.mul_add, weight_two_mul_add_one, weight_two_mul_add_one, ih (by omega),
        Nat.add_assoc]

theorem weight_le {a z : Nat} (hz : z < 2 ^ a) : weight z ≤ a := by
  rw [← card_members, ← Finset.card_range a]
  refine Finset.card_le_card fun i hi => Finset.mem_range.2 ?_
  exact (Nat.pow_lt_pow_iff_right (by decide)).1
    (Nat.lt_of_le_of_lt (Nat.ge_two_pow_of_testBit (mem_members.1 hi)) hz)

theorem weight_ones (a : Nat) : weight (2 ^ a - 1) = a := by
  induction a with
  | zero => exact weight_zero
  | succ a ih =>
    have hpow := Nat.one_le_two_pow (n := a)
    rw [show 2 ^ (a + 1) - 1 = 2 * (2 ^ a - 1) + 1 by omega, weight_two_mul_add_one, ih]

/-- All ones is the only number of `a` bits with `a` ones. -/
theorem eq_ones_of_weight {a z : Nat} (hz : z < 2 ^ a) (h : weight z = a) : z = 2 ^ a - 1 := by
  induction a generalizing z with
  | zero => omega
  | succ a ih =>
    rcases Nat.mod_two_eq_zero_or_one z with hm | hm
    · obtain ⟨y, rfl⟩ : ∃ y, z = 2 * y := ⟨z / 2, by omega⟩
      rw [weight_two_mul] at h
      have := weight_le (show y < 2 ^ a by omega)
      omega
    · obtain ⟨y, rfl⟩ : ∃ y, z = 2 * y + 1 := ⟨z / 2, by omega⟩
      rw [weight_two_mul_add_one] at h
      have := ih (show y < 2 ^ a by omega) (by omega)
      omega

/-- The first number of its weight. -/
theorem ones_le {a y : Nat} (h : weight y = a) : 2 ^ a - 1 ≤ y := by
  rcases Nat.lt_or_ge y (2 ^ a) with hlt | hge
  · exact (eq_ones_of_weight hlt h).ge
  · omega

theorem pos_of_weight_pos {x : Nat} (h : 0 < weight x) : 0 < x :=
  Nat.pos_of_ne_zero fun e => by rw [e, weight_zero] at h; omega

/-! ## The next one -/

/-- `y` is the next number with as many ones as `x`. -/
structure IsNext (x y : Nat) : Prop where
  lt : x < y
  weight_eq : weight y = weight x
  le : ∀ z, x < z → weight z = weight x → y ≤ z

/-- `r` ones from position `t` on, a zero above them, and `h` over it. -/
def run (h t r : Nat) : Nat := 2 ^ (t + r) * (2 * h) + 2 ^ t * (2 ^ r - 1)

/-- The uppermost of them has moved one up, the others are at the bottom. -/
def moved (h t r : Nat) : Nat := 2 ^ (t + r) * (2 * h + 1) + (2 ^ (r - 1) - 1)

theorem exists_run {x : Nat} (hx : 0 < x) : ∃ h t r, 0 < r ∧ x = run h t r := by
  obtain ⟨t, u, hu, rfl⟩ := Nat.exists_eq_two_pow_mul_odd hx.ne'
  obtain ⟨r, v, hv, huv⟩ := Nat.exists_eq_two_pow_mul_odd (Nat.succ_ne_zero u)
  obtain ⟨h, rfl⟩ := hv
  refine ⟨h, t, r, Nat.pos_of_ne_zero fun e => ?_, ?_⟩
  · obtain ⟨w, rfl⟩ := hu
    rw [e, pow_zero] at huv
    omega
  · obtain rfl : u = 2 ^ r * (2 * h) + (2 ^ r - 1) := by
      have hpow := Nat.one_le_two_pow (n := r)
      rw [Nat.mul_add, Nat.mul_one] at huv
      omega
    rw [run, Nat.pow_add]
    ring

variable {h t r : Nat}

theorem run_low_lt (t r : Nat) : 2 ^ t * (2 ^ r - 1) < 2 ^ (t + r) := by
  rw [Nat.pow_add]
  exact Nat.mul_lt_mul_of_pos_left (Nat.sub_lt (Nat.two_pow_pos r) Nat.one_pos) (Nat.two_pow_pos t)

theorem moved_low_lt (hr : 0 < r) (t : Nat) : 2 ^ (r - 1) - 1 < 2 ^ (t + r) := by
  have h1 := Nat.pow_lt_pow_right (show 1 < 2 by decide) (show r - 1 < t + r by omega)
  have h2 := Nat.two_pow_pos (r - 1)
  omega

theorem weight_run (h t r : Nat) : weight (run h t r) = weight h + r := by
  rw [run, weight_split (run_low_lt t r), weight_two_mul, ← Nat.add_zero (2 ^ t * _),
    weight_split (Nat.two_pow_pos t), weight_ones, weight_zero]
  rfl

theorem weight_moved (hr : 0 < r) (h t : Nat) : weight (moved h t r) = weight h + r := by
  rw [moved, weight_split (moved_low_lt hr t), weight_two_mul_add_one, weight_ones]
  omega

theorem isNext_run (hr : 0 < r) (h t : Nat) : IsNext (run h t r) (moved h t r) := by
  have hlow := run_low_lt t r
  have hlow' := moved_low_lt hr t
  have hstep : 2 ^ (t + r) * (2 * h + 1) = 2 ^ (t + r) * (2 * h) + 2 ^ (t + r) := by ring
  refine ⟨by rw [run, moved]; omega, by rw [weight_run, weight_moved hr], fun y hy hw => ?_⟩
  by_contra hlt
  rw [weight_run] at hw
  rw [run] at hy
  rw [moved] at hlt
  rcases Nat.lt_or_ge y (2 ^ (t + r) * (2 * h + 1)) with hc | hc
  · -- below the moved one: the upper `r` of the low `t + r` bits are all ones, with one more below them
    obtain ⟨z, rfl⟩ := Nat.exists_eq_add_of_le (show 2 ^ (t + r) * (2 * h) ≤ y by omega)
    rw [weight_split (by omega), weight_two_mul] at hw
    obtain ⟨b, rfl⟩ := Nat.exists_eq_add_of_le (show 2 ^ t * (2 ^ r - 1) ≤ z by omega)
    have hb : b < 2 ^ t := by
      have : 2 ^ (t + r) = 2 ^ t * (2 ^ r - 1) + 2 ^ t := by
        rw [← Nat.mul_succ, Nat.succ_eq_add_one, Nat.sub_add_cancel (Nat.two_pow_pos r), Nat.pow_add]
      omega
    rw [weight_split hb, weight_ones] at hw
    have := eq_zero_of_weight (show weight b = 0 by omega)
    omega
  · -- the moved one is there: too few bits are left below it
    obtain ⟨z, rfl⟩ := Nat.exists_eq_add_of_le hc
    rw [weight_split (by omega), weight_two_mul_add_one] at hw
    have := ones_le (show weight z = r - 1 by omega)
    omega

theorem IsNext.lt_two_pow {x y e : Nat} (hy : IsNext x y) (hpos : 0 < x) (hx : x < 2 ^ e) : y < 2 ^ (e + 1) := by
  have hw := weight_le hx
  have hw0 : 0 < weight x := Nat.pos_of_ne_zero fun h => hpos.ne' (eq_zero_of_weight h)
  have hlow : 2 ^ (weight x - 1) - 1 < 2 ^ e := by
    have h1 := Nat.pow_le_pow_right (show 0 < 2 by decide) (show weight x - 1 ≤ e by omega)
    have h2 := Nat.two_pow_pos (weight x - 1)
    omega
  -- one more bit, and the others at the bottom
  have hle := hy.le (2 ^ e * (2 * 0 + 1) + (2 ^ (weight x - 1) - 1)) (by omega) (by
    rw [weight_split hlow, weight_two_mul_add_one, weight_zero, weight_ones]
    omega)
  omega

theorem and_two_pow_eq_zero_iff {y e : Nat} : y &&& 2 ^ e = 0 ↔ y.testBit e = false := by
  rw [Nat.and_two_pow]
  cases y.testBit e <;> simp

/-- The bit above `e` bits shows that they are not enough. -/
theorem testBit_eq_false_iff {y e : Nat} (hy : y < 2 ^ (e + 1)) : y.testBit e = false ↔ y < 2 ^ e := by
  refine ⟨fun h => ?_, Nat.testBit_lt_two_pow⟩
  by_contra hge
  rw [Nat.testBit_of_two_pow_le_and_two_pow_add_one_gt (Nat.not_lt.1 hge) hy] at h
  cases h

/-! ## By word operations -/

/-- The lowest one of `x`, with words of `w` bits. -/
def lowest (w x : Nat) : Nat := x &&& (2 ^ w - x)

/-- The next number. -/
def next (w x : Nat) : Nat := ((x ^^^ (x + lowest w x)) >>> 2) / lowest w x ||| (x + lowest w x)

theorem add_lowest_le (w x : Nat) : x + lowest w x ≤ next w x := Nat.right_le_or

theorem lowest_eq {w t v : Nat} (hx : 2 ^ t * (2 * v + 1) < 2 ^ w) : lowest w (2 ^ t * (2 * v + 1)) = 2 ^ t := by
  unfold lowest
  have hpow := Nat.two_pow_pos t
  have hpred : 2 ^ t * (2 * v + 1) = (2 ^ t * (2 * v) + (2 ^ t - 1)) + 1 := by
    rw [Nat.mul_add, Nat.mul_one]
    omega
  have htw : t < w := (Nat.pow_lt_pow_iff_right (show 1 < 2 by decide)).1 (by
    rw [Nat.mul_add] at hx
    omega)
  refine Nat.eq_of_testBit_eq fun i => ?_
  rw [Nat.testBit_and, Nat.testBit_two_pow_mul]
  rw [hpred, Nat.testBit_two_pow_sub_succ (by omega), Nat.testBit_two_pow_mul_add _ (by omega), Nat.testBit_two_pow]
  rcases Nat.lt_trichotomy i t with hi | rfl | hi
  · simp [Nat.not_le.2 hi, Nat.ne_of_gt hi]
  · simp [htw]
  · obtain ⟨j, rfl⟩ := Nat.exists_eq_add_of_lt hi
    rw [show t + j + 1 - t = j + 1 by omega, if_neg (by omega)]
    have hdiv : (2 * v + 1) / 2 = v := by omega
    simp only [Nat.testBit_succ, hdiv, Nat.mul_div_cancel_left _ (show 0 < 2 by decide)]
    cases v.testBit j <;> simp [Nat.ne_of_lt hi]

theorem lowest_pos {w x : Nat} (hpos : 0 < x) (hx : x < 2 ^ w) : 0 < lowest w x := by
  obtain ⟨t, u, ⟨v, rfl⟩, rfl⟩ := Nat.exists_eq_two_pow_mul_odd hpos.ne'
  rw [lowest_eq hx]
  exact Nat.two_pow_pos t

theorem xor_run (h t r : Nat) : run h t r ^^^ 2 ^ (t + r) * (2 * h + 1) = 2 ^ t * (2 ^ (r + 1) - 1) := by
  have hsum : 2 ^ t * (2 ^ (r + 1) - 1) = 2 ^ (t + r) * 1 + 2 ^ t * (2 ^ r - 1) := by
    obtain ⟨y, hy⟩ := Nat.exists_eq_add_of_le (Nat.one_le_two_pow (n := r))
    rw [Nat.pow_succ, Nat.pow_add, hy, show (1 + y) * 2 - 1 = 1 + y + y by omega, show 1 + y - 1 = y by omega]
    ring
  have hlow := run_low_lt t r
  refine Nat.eq_of_testBit_eq fun i => ?_
  rw [hsum, run, ← Nat.add_zero (2 ^ (t + r) * (2 * h + 1)), Nat.testBit_xor, Nat.testBit_two_pow_mul_add _ hlow,
    Nat.testBit_two_pow_mul_add _ (Nat.two_pow_pos _), Nat.testBit_two_pow_mul_add _ hlow]
  by_cases hi : i < t + r
  · simp [hi]
  · rw [if_neg hi, if_neg hi, if_neg hi]
    cases i - (t + r) <;> simp [Nat.testBit_succ, show (2 * h + 1) / 2 = h by omega]

theorem next_run {w : Nat} (hr : 0 < r) (hx : run h t r < 2 ^ w) : next w (run h t r) = moved h t r := by
  obtain ⟨v, hv⟩ : ∃ v, run h t r = 2 ^ t * (2 * v + 1) := by
    refine ⟨2 ^ r * h + (2 ^ (r - 1) - 1), ?_⟩
    have hpow := Nat.one_le_two_pow (n := r - 1)
    obtain ⟨q, rfl⟩ : ∃ q, r = q + 1 := ⟨r - 1, by omega⟩
    rw [Nat.add_sub_cancel] at hpow ⊢
    rw [run, Nat.pow_add, show 2 ^ (q + 1) - 1 = 2 * (2 ^ q - 1) + 1 by omega]
    ring
  have hlow : lowest w (run h t r) = 2 ^ t := by
    rw [hv] at hx ⊢
    exact lowest_eq hx
  have hadd : run h t r + 2 ^ t = 2 ^ (t + r) * (2 * h + 1) := by
    obtain ⟨y, hy⟩ := Nat.exists_eq_add_of_le (Nat.one_le_two_pow (n := r))
    rw [run, Nat.pow_add, hy, Nat.add_sub_cancel_left]
    ring
  have hshift : 2 ^ t * (2 ^ (r + 1) - 1) / 4 / 2 ^ t = 2 ^ (r - 1) - 1 := by
    have hpow : 2 ^ (r + 1) = 4 * 2 ^ (r - 1) := by
      rw [show r + 1 = 2 + (r - 1) by omega, Nat.pow_add]
    rw [Nat.div_div_eq_div_mul, Nat.mul_comm 4, Nat.mul_div_mul_left _ _ (Nat.two_pow_pos t)]
    omega
  rw [next, hlow, hadd, xor_run, Nat.shiftRight_eq_div_pow, show 2 ^ 2 = 4 by rfl, hshift, Nat.or_comm,
    ← Nat.two_pow_add_eq_or_of_lt (moved_low_lt hr t)]
  rfl

theorem isNext_next {w x : Nat} (hpos : 0 < x) (hx : x < 2 ^ w) : IsNext x (next w x) := by
  obtain ⟨h, t, r, hr, rfl⟩ := exists_run hpos
  rw [next_run hr hx]
  exact isNext_run hr h t

/-! ## All of them -/

/-- `P` holds of the numbers of weight `s` below `y`. -/
def Seen (P : Nat → Prop) (s y : Nat) : Prop := ∀ z, weight z = s → z < y → P z

section
variable {P : Nat → Prop} {s x y : Nat}

theorem seen_first (P : Nat → Prop) (s : Nat) : Seen P s (2 ^ s - 1) := fun z hz hlt => by
  have := ones_le hz
  omega

theorem Seen.next (h : Seen P s x) (hx : P x) (hw : weight x = s) (hy : IsNext x y) : Seen P s y := fun z hz hlt => by
  rcases Nat.lt_trichotomy z x with hzx | rfl | hzx
  · exact h z hz hzx
  · exact hx
  · have := hy.le z hzx (hz.trans hw.symm)
    omega

end

/-! ## Their positions in order -/

/-- `f` goes through the positions of the ones of `x` in order. -/
structure Lists {t : Nat} (x : Nat) (f : Fin t → Nat) : Prop where
  mono : StrictMono f
  testBit_iff : ∀ i, x.testBit i ↔ ∃ a, f a = i

theorem exists_lists {x t : Nat} (hw : weight x = t) : ∃ f : Fin t → Nat, Lists x f := by
  have hcard := (card_members x).trans hw
  refine ⟨(members x).orderEmbOfFin hcard, (OrderEmbedding.strictMono _), fun i => ?_⟩
  rw [← mem_members, ← Finset.mem_coe, ← Finset.range_orderEmbOfFin _ hcard, Set.mem_range]

theorem exists_number {t : Nat} {f : Fin t → Nat} (hf : StrictMono f) : ∃ x, Lists x f := by
  refine ⟨∑ i ∈ Finset.univ.image f, 2 ^ i, hf, fun i => ?_⟩
  rw [← mem_members, members, Finset.toFinset_bitIndices_sum_two_pow]
  simp

section
variable {t : Nat} {x e : Nat} {f : Fin t → Nat}

theorem Lists.members_eq (h : Lists x f) : members x = Finset.univ.image f := by
  ext i
  rw [mem_members, h.testBit_iff]
  simp

theorem Lists.weight_eq (h : Lists x f) : weight x = t := by
  rw [← card_members, h.members_eq, Finset.card_image_of_injective _ h.mono.injective, Finset.card_fin]

theorem Lists.lt_iff (h : Lists x f) : x < 2 ^ e ↔ ∀ a, f a < e := by
  constructor
  · intro hx a
    have hbit := Nat.ge_two_pow_of_testBit ((h.testBit_iff _).2 ⟨a, rfl⟩)
    exact (Nat.pow_lt_pow_iff_right (by decide)).1 (Nat.lt_of_le_of_lt hbit hx)
  · intro hf
    refine Nat.lt_pow_two_of_testBit x fun i hi => Bool.eq_false_iff.2 fun hbit => ?_
    obtain ⟨a, rfl⟩ := (h.testBit_iff i).1 hbit
    exact absurd (hf a) (Nat.not_lt.2 hi)

theorem Lists.unique {g : Fin t → Nat} (hf : Lists x f) (hg : Lists x g) : f = g :=
  (hf.mono.range_inj hg.mono).1 (Set.ext fun i => (hf.testBit_iff i).symm.trans (hg.testBit_iff i))

/-- Position `f a` has `a` ones below it. -/
theorem Lists.count_eq (h : Lists x f) (a : Fin t) : Nat.count (fun i => x.testBit i = true) (f a) = a := by
  have hfilter : {i ∈ Finset.range (f a) | x.testBit i = true} = (Finset.Iio a).image f := by
    ext i
    rw [Finset.mem_filter, Finset.mem_range, h.testBit_iff, Finset.mem_image]
    constructor
    · rintro ⟨hlt, b, rfl⟩
      exact ⟨b, Finset.mem_Iio.2 (h.mono.lt_iff_lt.1 hlt), rfl⟩
    · rintro ⟨b, hb, rfl⟩
      exact ⟨h.mono (Finset.mem_Iio.1 hb), b, rfl⟩
  rw [Nat.count_eq_card_filter_range, hfilter, Finset.card_image_of_injective _ h.mono.injective, Fin.card_Iio]

end

end ErasureCode.Core.Subsets
