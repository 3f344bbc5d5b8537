import Mathlib.Order.Bounds.Basic
import Mathlib.Tactic.Ring
import ErasureCode.Scheduler.Padding

/-!
# The padding law

The constructor of `scheduler` is meant to round `total_size` up to whole
stripes (`PaddingLaw`). Two of the numbers on the way, the bytes missing from
the last chunk and the number of chunks, are 64-bit values kept in `int`s.

`padding_law_iff`: the law holds exactly when narrowing the two does no harm to
the number of missing chunks (`PadsExactly`); in particular when both are below
2^31 (`padsExactly_of_lt`).
-/
namespace ErasureCode.Scheduler

open ErasureCode.Core

variable {k n c total_size : Nat}

/-- The least multiple of `k * c` is reached by padding at the end, and the
strips are whole chunks. -/
structure PaddingLaw (k c : Nat) {n : Nat} (s : Scheduler k n) : Prop where
  least : IsLeast {m | s.total_size ≤ m ∧ k * c ∣ m} s.append_total_size
  append : s.append_total_size = s.total_size + s.append_len
  append_lt : s.append_len < k * c
  strips : s.strip_len * k = s.append_total_size
  chunks : c ∣ s.strip_len

/-! ## The exact values -/

/-- The default argument, -1, stands for 1024. -/
def chunkSize (chunk_size_ : Nat) : Nat := if chunk_size_ = 2 ^ 64 - 1 then 1024 else chunk_size_

/-- The bytes missing from the last chunk. -/
def lastGap (c total_size : Nat) : Nat := (c - total_size % c) % c

/-- The chunks, once the last is filled up. -/
def chunkNum (c total_size : Nat) : Nat := (total_size + c - 1) / c

/-- The chunks missing from the last stripe. -/
def stripeGap (k c total_size : Nat) : Nat := (k - chunkNum c total_size % k) % k

theorem add_lastGap (hc : 0 < c) : total_size + lastGap c total_size = chunkNum c total_size * c :=
  add_padding hc total_size

theorem add_stripeGap (hk : 0 < k) (hc : 0 < c) :
    chunkNum c total_size + stripeGap k c total_size = stripeNum k c total_size * k := by
  rw [stripeGap, add_padding hk, chunkNum, stripeNum_eq hk hc]

theorem isLeast_stripes (hk : 0 < k) (hc : 0 < c) :
    IsLeast {m | total_size ≤ m ∧ k * c ∣ m} (stripeNum k c total_size * (k * c)) := by
  refine ⟨⟨total_le hk hc, Nat.dvd_mul_left _ _⟩, ?_⟩
  rintro m ⟨hle, q, rfl⟩
  have hkc := Nat.mul_pos hk hc
  rw [Nat.mul_comm (k * c) q]
  refine Nat.mul_le_mul_right _ (Nat.le_of_lt_succ ?_)
  rw [stripeNum, Nat.div_lt_iff_lt_mul hkc, Nat.succ_mul, Nat.mul_comm q]
  omega

/-! ## What the constructor computes -/

/-- `append_num`, for the `int` `chunk_num`.
mirrors src/IsaEC.cpp:358 -/
def appendNum (k : Nat) (chunk_num : Int) : Option Int := do
  remInt (← subInt k (← remInt chunk_num k)) k

/-- The chunks that fill up the last stripe, unless the subtraction overflows. -/
theorem appendNum_eq (hk : 0 < k) (hk31 : k < 2 ^ 31) (x : Int) :
    appendNum k x = if x < 0 ∧ 2 ^ 31 ≤ k + -x % k then none else some (-x % k) := by
  have hk0 : (k : Int) ≠ 0 := by omega
  have h0 := Int.emod_nonneg (-x) hk0
  have hlt := Int.emod_lt_of_pos (-x) (show 0 < (k : Int) by omega)
  unfold appendNum
  rw [remInt, if_neg hk0, Option.bind_eq_bind, Option.bind_some]
  rcases Int.lt_or_le x 0 with hx | hx
  · have hrem : x.tmod k = -(-x % k) := by
      rw [← Int.neg_neg x, Int.neg_tmod, Int.tmod_eq_emod_of_nonneg (by omega), Int.neg_neg]
    rw [hrem, subInt, Int.sub_neg]
    by_cases hover : (2 : Int) ^ 31 ≤ k + -x % k
    · rw [if_neg (by omega), if_pos ⟨hx, hover⟩]
      rfl
    · rw [if_pos (by omega), if_neg (by omega), Option.bind_some, remInt, if_neg hk0,
        Int.tmod_eq_emod_of_nonneg (by omega), Int.add_emod_left, Int.emod_emod]
  · rw [if_neg (by omega), Int.tmod_eq_emod_of_nonneg hx]
    have h0' := Int.emod_nonneg x hk0
    have hlt' := Int.emod_lt_of_pos x (show 0 < (k : Int) by omega)
    rw [subInt, if_pos (by omega), Option.bind_some, remInt, if_neg hk0, Int.tmod_eq_emod_of_nonneg (by omega),
      Int.neg_emod_eq_sub_emod, Int.sub_emod_emod]

/-- `chunk_num`: the missing bytes and the quotient are both narrowed.
mirrors src/IsaEC.cpp:356-357 -/
def narrowedNum (c total_size : Nat) : Int :=
  toInt (addSize total_size (toSize (toInt (lastGap c total_size))) / c)

/-- The fields, from `append_num`.
mirrors src/IsaEC.cpp:359-362 -/
def withAppendNum (k n c total_size : Nat) (append_num : Int) : Scheduler k n :=
  let append_len := addSize (mulSize (toSize append_num) c) (toSize (toInt (lastGap c total_size)))
  { total_size, append_len, chunk_size := c
    append_total_size := addSize total_size append_len
    strip_len := addSize total_size append_len / k }

theorem new_eq_map {chunk_size_ : Nat} (hk : 0 < k) (hc : 0 < chunkSize chunk_size_) :
    new k n total_size chunk_size_ =
      (appendNum k (narrowedNum (chunkSize chunk_size_) total_size)).map
        (withAppendNum k n (chunkSize chunk_size_) total_size) := by
  unfold new
  rw [← chunkSize]
  generalize chunkSize chunk_size_ = c at *
  simp only [modSize_eq hc, divSize_eq hc, divSize_eq hk, Option.bind_eq_bind, Option.bind_some]
  rw [← lastGap, ← narrowedNum, appendNum, Option.map_eq_bind]
  simp only [Option.bind_eq_bind, Option.bind_assoc]
  rfl

/-- The computed `append_len`, modulo 2^64. -/
theorem withAppendNum_append_len (x : Int) :
    ((withAppendNum k n c total_size x).append_len : Int) = (x * c + toInt (lastGap c total_size)) % 2 ^ 64 := by
  unfold withAppendNum
  dsimp only
  rw [addSize_emod]
  exact ((mulSize_emod _ _).trans ((toSize_emod x).mul_right _)).add (toSize_emod _)

/-- The padded size, in chunks. -/
theorem stripes_eq (hk : 0 < k) (hc : 0 < c) :
    stripeNum k c total_size * (k * c) = total_size + lastGap c total_size + stripeGap k c total_size * c := by
  rw [add_lastGap hc, ← Nat.add_mul, add_stripeGap hk hc, Nat.mul_assoc]

/-- The law, as a congruence: what `append_num` has too few chunks is what the
missing bytes have lost. -/
theorem law_iff (hk : 0 < k) (hc : 0 < c) (h64 : stripeNum k c total_size * (k * c) < 2 ^ 64) (x : Int) :
    PaddingLaw k c (withAppendNum k n c total_size x) ↔ (2 ^ 64 : Int) ∣
      (stripeGap k c total_size - x) * c + (lastGap c total_size - toInt (lastGap c total_size)) := by
  have hP := @isLeast_stripes k c total_size hk hc
  have hdiff : (stripeGap k c total_size - x) * c + (lastGap c total_size - toInt (lastGap c total_size)) =
      (stripeNum k c total_size * (k * c) : Nat) - total_size - (x * c + toInt (lastGap c total_size)) := by
    rw [stripes_eq hk hc, Int.sub_mul]
    push_cast
    omega
  rw [hdiff]
  generalize stripeNum k c total_size * (k * c) = P at *
  have hlen := @withAppendNum_append_len k n c total_size x
  have hle : total_size ≤ P := hP.1.1
  constructor
  · intro h
    have htotal : (withAppendNum k n c total_size x).append_total_size = P := h.least.unique hP
    have happ := h.append
    rw [htotal] at happ
    have hlen' : ((withAppendNum k n c total_size x).append_len : Int) = P - total_size := by
      change P = total_size + _ at happ
      omega
    rw [hlen'] at hlen
    exact ((Int.emod_eq_iff (by decide)).1 hlen.symm).2.2
  · intro h
    have hlen' : (withAppendNum k n c total_size x).append_len = P - total_size := by
      rw [(Int.emod_eq_iff (by decide)).2 ⟨by omega, by omega, h⟩] at hlen
      omega
    have htotal : (withAppendNum k n c total_size x).append_total_size = P := by
      change addSize total_size (withAppendNum k n c total_size x).append_len = P
      rw [hlen', addSize_eq (by omega), Nat.add_sub_cancel' hle]
    have hS : P = stripeNum k c total_size * (k * c) := hP.unique (isLeast_stripes hk hc)
    have hstrip : (withAppendNum k n c total_size x).strip_len = stripeNum k c total_size * c := by
      change (withAppendNum k n c total_size x).append_total_size / k = _
      rw [htotal, hS, Nat.mul_left_comm, Nat.mul_div_cancel_left _ hk]
    refine ⟨?_, ?_, ?_, ?_, ?_⟩
    · rw [htotal]
      exact hP
    · rw [htotal, hlen']
      exact (Nat.add_sub_cancel' hle).symm
    · have hpad := add_padding (Nat.mul_pos hk hc) total_size
      have hgap := Nat.mod_lt (k * c - total_size % (k * c)) (Nat.mul_pos hk hc)
      rw [← stripeNum, ← hS] at hpad
      omega
    · rw [hstrip, htotal, hS, Nat.mul_assoc, Nat.mul_comm c]
    · rw [hstrip]
      exact Nat.dvd_mul_left _ _

/-! ## When the law holds -/

/-- Narrowing the two numbers does no harm to the number of missing chunks: the
missing bytes of the last chunk lose whole chunks, `δ` of them, which are
counted among the missing chunks instead, and the number of chunks loses a
multiple of `k`. Or there is one chunk only, and what its missing bytes lose and
the other `k - 1` chunks come to 2^64. -/
def PadsExactly (k c total_size : Nat) : Prop :=
  (∃ δ : Nat, (lastGap c total_size : Int) - toInt (lastGap c total_size) = δ * c ∧
    stripeGap k c total_size + δ < k ∧
    (k : Int) ∣ (chunkNum c total_size - δ : Nat) - toInt (chunkNum c total_size - δ) ∧
    (toInt (chunkNum c total_size - δ) < 0 → k + (stripeGap k c total_size + δ) < 2 ^ 31)) ∨
  (chunkNum c total_size = 1 ∧ (lastGap c total_size : Int) - toInt (lastGap c total_size) + (k - 1) * c = 2 ^ 64)

/-- The chunks that `chunk_num` counts, when the missing bytes lose `δ` chunks. -/
theorem narrowedNum_eq (hc : 0 < c) {q : Nat} (hq : q * c < 2 ^ 64)
    (h : (total_size + toInt (lastGap c total_size) : Int) ≡ q * c [ZMOD 2 ^ 64]) : narrowedNum c total_size = toInt q := by
  have hsum : addSize total_size (toSize (toInt (lastGap c total_size))) = q * c := by
    have hmod : (addSize total_size (toSize (toInt (lastGap c total_size))) : Int) = (q * c : Nat) % 2 ^ 64 := by
      rw [addSize_emod]
      push_cast
      exact ((toSize_emod _).add_left _).trans h
    rw [Int.emod_eq_of_lt (by omega) (by exact_mod_cast hq)] at hmod
    exact_mod_cast hmod
  rw [narrowedNum, hsum, Nat.mul_div_cancel _ hc]

/-- The missing bytes lose nothing, or less than two chunks. -/
theorem lastGap_sub_toInt (hc : 0 < c) :
    0 ≤ (lastGap c total_size : Int) - toInt (lastGap c total_size) ∧
      (lastGap c total_size : Int) - toInt (lastGap c total_size) < 2 * c := by
  have hlt : lastGap c total_size < c := Nat.mod_lt _ hc
  have hdvd := dvd_sub_toInt (lastGap c total_size)
  have h1 := toInt_lt (lastGap c total_size)
  have h2 := neg_le_toInt (lastGap c total_size)
  omega

/-- The missing bytes lose `δ` chunks: not more than there are, and the others are
what is counted. -/
theorem narrowedNum_lost (hc : 0 < c) (h64 : chunkNum c total_size * c < 2 ^ 64) {δ : Nat}
    (hδ : (lastGap c total_size : Int) - toInt (lastGap c total_size) = δ * c) :
    δ ≤ chunkNum c total_size ∧ narrowedNum c total_size = toInt (chunkNum c total_size - δ) := by
  have hsum := @add_lastGap c total_size hc
  have hlt2 : δ < 2 := by
    have h := (@lastGap_sub_toInt c total_size hc).2
    rw [hδ] at h
    have : δ * c < 2 * c := by exact_mod_cast h
    exact Nat.lt_of_mul_lt_mul_right this
  have hle : δ ≤ chunkNum c total_size := by
    rcases Nat.eq_zero_or_pos (chunkNum c total_size) with h0 | hpos
    · have hgap : lastGap c total_size = 0 := by
        rw [h0, Nat.zero_mul] at hsum
        omega
      have hz : (δ : Int) * c = 0 := by
        rw [← hδ, hgap]
        rfl
      have : δ * c = 0 := by exact_mod_cast hz
      rcases Nat.mul_eq_zero.1 this with h | h
      · omega
      · omega
    · omega
  refine ⟨hle, narrowedNum_eq hc ?_ ?_⟩
  · exact Nat.lt_of_le_of_lt (Nat.mul_le_mul_right c (Nat.sub_le _ _)) h64
  · have heq : (total_size : Int) + toInt (lastGap c total_size) = ((chunkNum c total_size - δ : Nat) : Int) * c := by
      have hsum' : (total_size : Int) + lastGap c total_size = chunkNum c total_size * c := by exact_mod_cast hsum
      rw [Int.ofNat_sub hle, Int.sub_mul, ← hsum', ← hδ]
      omega
    rw [heq]

/-- `N` chunks more make whole stripes of `C`; `N + δ` do of `x` exactly when `x`
is `C - δ` modulo `k`. -/
theorem neg_emod_eq_iff {C N δ S : Nat} {x : Int} (hstripe : C + N = S * k) (hle : δ ≤ C) (hlt : N + δ < k) :
    -x % k = (N + δ : Nat) ↔ (k : Int) ∣ (C - δ : Nat) - x := by
  have hsum : ((C - δ : Nat) : Int) - x = k * S - ((N + δ : Nat) - -x) := by
    have : (C : Int) + N = k * S := by
      rw [Int.mul_comm]
      exact_mod_cast hstripe
    rw [← this, Int.ofNat_sub hle]
    push_cast
    ring
  rw [Int.emod_eq_iff (by omega), hsum]
  constructor
  · rintro ⟨-, -, h⟩
    exact Int.dvd_sub (Int.dvd_mul_right _ _) h
  · intro h
    refine ⟨Int.natCast_nonneg _, by omega, ?_⟩
    have := Int.dvd_sub (Int.dvd_mul_right (k : Int) S) h
    rwa [Int.sub_sub_self] at this

/-- A loss of `d` bytes that `x - N` chunks make up for modulo 2^64: they make
up for it exactly, or all other chunks of the only stripe are lost with it. -/
theorem makes_up {N : Nat} {x d : Int} (hc : 0 < c) (hN : N < k) (hx : 0 ≤ x ∧ x < k) (hd : 0 ≤ d ∧ d < 2 * c)
    (hkc : k * c < 2 ^ 64) (hdvd : (2 ^ 64 : Int) ∣ (N - x) * c + d) :
    d = (x - N) * c ∨ N + 1 = k ∧ d + (k - 1) * c = 2 ^ 64 := by
  obtain ⟨t, ht⟩ := hdvd
  have hc' : (0 : Int) ≤ c := Int.natCast_nonneg c
  have hkc' : (k : Int) * c < 2 ^ 64 := by exact_mod_cast hkc
  have hNc : ((N : Int) + 1) * c ≤ k * c := Int.mul_le_mul_of_nonneg_right (by omega) hc'
  have hxc : (x + 1) * c ≤ k * c := Int.mul_le_mul_of_nonneg_right (by omega) hc'
  have hx0 : 0 ≤ x * c := Int.mul_nonneg hx.1 hc'
  have hN0 : (0 : Int) ≤ N * c := Int.mul_nonneg (Int.natCast_nonneg N) hc'
  rw [Int.sub_mul] at ht ⊢
  rw [Int.add_mul] at hNc hxc
  have ht01 : t = 0 ∨ t = 1 := by omega
  rcases ht01 with rfl | rfl
  · exact .inl (by omega)
  · right
    -- the bytes lost exceed the other chunks' of the stripe, and are less than two chunks
    have hlast : N + 1 = k := by
      by_contra hne
      have : ((N : Int) + 2) * c ≤ k * c := Int.mul_le_mul_of_nonneg_right (by omega) hc'
      rw [Int.add_mul] at this
      omega
    have hx1 : x < 1 := by
      by_contra hge
      have : 1 * (c : Int) ≤ x * c := Int.mul_le_mul_of_nonneg_right (by omega) hc'
      omega
    have hxz : x = 0 := by omega
    refine ⟨hlast, ?_⟩
    rw [← hlast]
    rw [hxz, Int.zero_mul] at ht
    push_cast
    rw [Int.add_sub_cancel]
    omega

section
variable (hk : 0 < k) (hk31 : k < 2 ^ 31) (hc : 0 < c) (h64 : stripeNum k c total_size * (k * c) < 2 ^ 64)
include hk hk31 hc h64

/-- Where narrowing does no harm, `append_num` makes up for what the missing
bytes have lost. -/
theorem appendNum_of_padsExactly (h : PadsExactly k c total_size) :
    ∃ x, appendNum k (narrowedNum c total_size) = some x ∧ (2 ^ 64 : Int) ∣
      (stripeGap k c total_size - x) * c + (lastGap c total_size - toInt (lastGap c total_size)) := by
  have hsum := @add_lastGap c total_size hc
  have hstripe := @add_stripeGap k c total_size hk hc
  have hgap : stripeGap k c total_size < k := Nat.mod_lt _ hk
  rw [stripes_eq hk hc, hsum] at h64
  rcases h with ⟨δ, hδ, hlt, hdvd, hneg⟩ | ⟨h1, hd⟩
  · obtain ⟨hle, hnum⟩ := narrowedNum_lost hc (by omega) hδ
    refine ⟨(stripeGap k c total_size + δ : Nat), ?_, 0, ?_⟩
    · rw [appendNum_eq hk hk31, hnum, (neg_emod_eq_iff hstripe hle hlt).2 hdvd, if_neg]
      rintro ⟨hneg', hover⟩
      have := hneg hneg'
      omega
    · rw [hδ]
      push_cast
      ring
  · have hN : chunkNum c total_size + stripeGap k c total_size = k := by
      have hdvd : k ∣ chunkNum c total_size + stripeGap k c total_size := ⟨_, by rw [hstripe, Nat.mul_comm]⟩
      have := Nat.le_of_dvd (by omega) hdvd
      omega
    have hkc : k * c < 2 ^ 64 := by
      rw [← hN, Nat.add_mul]
      exact h64
    have hnum : narrowedNum c total_size = k := by
      rw [← toInt_eq hk31]
      refine narrowedNum_eq hc hkc (Int.modEq_iff_dvd.2 ⟨1, ?_⟩)
      rw [h1, Nat.one_mul] at hsum
      have : (total_size : Int) + lastGap c total_size = c := by exact_mod_cast hsum
      rw [Int.sub_mul] at hd
      omega
    refine ⟨0, ?_, 1, ?_⟩
    · rw [appendNum_eq hk hk31, hnum, if_neg fun h => absurd h.1 (Int.not_lt.2 (Int.natCast_nonneg k)),
        Int.neg_emod_self]
    · have : (stripeGap k c total_size : Int) = k - 1 := by omega
      rw [this, Int.sub_zero]
      omega

/-- Where `append_num` makes up for what the missing bytes have lost, narrowing
does no harm. -/
theorem padsExactly_of_appendNum {x : Int} (hx : appendNum k (narrowedNum c total_size) = some x)
    (hdvd : (2 ^ 64 : Int) ∣
      (stripeGap k c total_size - x) * c + (lastGap c total_size - toInt (lastGap c total_size))) :
    PadsExactly k c total_size := by
  have hsum := @add_lastGap c total_size hc
  have hstripe := @add_stripeGap k c total_size hk hc
  have hgap : stripeGap k c total_size < k := Nat.mod_lt _ hk
  have hlost := @lastGap_sub_toInt c total_size hc
  rw [appendNum_eq hk hk31] at hx
  split at hx
  · cases hx
  rename_i hover
  have hx' := Option.some.inj hx
  have hx0 := Int.emod_nonneg (-narrowedNum c total_size) (show (k : Int) ≠ 0 by omega)
  have hxk := Int.emod_lt_of_pos (-narrowedNum c total_size) (show 0 < (k : Int) by omega)
  rw [hx'] at hx0 hxk hover
  rcases Nat.eq_zero_or_pos (chunkNum c total_size) with hC0 | hC
  · -- nothing to pad
    have hgap0 : lastGap c total_size = 0 := by
      rw [hC0, Nat.zero_mul] at hsum
      omega
    refine .inl ⟨0, ?_, by omega, ?_, ?_⟩
    · rw [hgap0, toInt_eq (by decide)]
      simp
    · rw [hC0]
      exact ⟨0, rfl⟩
    · rw [hC0]
      intro h
      exact absurd h (by decide)
  have hS : 0 < stripeNum k c total_size := Nat.pos_of_ne_zero fun h0 => by
    rw [h0, Nat.zero_mul] at hstripe
    omega
  have hkc : k * c < 2 ^ 64 := Nat.lt_of_le_of_lt (Nat.le_mul_of_pos_left _ hS) h64
  rw [stripes_eq hk hc, hsum] at h64
  rcases makes_up hc hgap ⟨hx0, hxk⟩ hlost hkc hdvd with hδ | ⟨hN, hd⟩
  · have hle : (stripeGap k c total_size : Int) ≤ x := by
      by_contra hlt
      have := Int.mul_neg_of_neg_of_pos (show x - stripeGap k c total_size < 0 by omega) (show 0 < (c : Int) by omega)
      omega
    obtain ⟨δ, rfl⟩ : ∃ δ : Nat, x = (stripeGap k c total_size + δ : Nat) :=
      ⟨(x - stripeGap k c total_size).toNat, by omega⟩
    have hlt : stripeGap k c total_size + δ < k := by exact_mod_cast hxk
    have hδ' : (lastGap c total_size : Int) - toInt (lastGap c total_size) = δ * c := by
      rw [hδ]
      push_cast
      ring
    obtain ⟨hδC, hnum⟩ := narrowedNum_lost hc (by omega) hδ'
    rw [hnum] at hx' hover
    refine .inl ⟨δ, hδ', hlt, (neg_emod_eq_iff hstripe hδC hlt).1 hx', fun hneg => ?_⟩
    by_contra hge
    exact hover ⟨hneg, by exact_mod_cast Nat.not_lt.1 hge⟩
  · refine .inr ⟨?_, hd⟩
    have hCd : chunkNum c total_size * c < 2 * c := by
      have : (k : Int) - 1 = stripeGap k c total_size := by omega
      rw [this] at hd
      omega
    have := Nat.lt_of_mul_lt_mul_right hCd
    omega

end

/-- **The padding law.** The constructor rounds `total_size` up to whole stripes
exactly when narrowing does no harm. -/
theorem padding_law_iff (n : Nat) {chunk_size_ P : Nat} (hk : 0 < k) (hk31 : k < 2 ^ 31) (hc : 0 < chunk_size_)
    (hP : IsLeast {m | total_size ≤ m ∧ k * chunkSize chunk_size_ ∣ m} P) (hP64 : P < 2 ^ 64) :
    Returns (new k n total_size chunk_size_) (PaddingLaw k (chunkSize chunk_size_)) ↔
      PadsExactly k (chunkSize chunk_size_) total_size := by
  have hc' : 0 < chunkSize chunk_size_ := by
    unfold chunkSize
    split
    · decide
    · exact hc
  rw [new_eq_map hk hc']
  generalize chunkSize chunk_size_ = c at *
  rw [hP.unique (isLeast_stripes hk hc')] at hP64
  constructor
  · rintro ⟨s, hs, hlaw⟩
    obtain ⟨x, hx, rfl⟩ := Option.map_eq_some_iff.1 hs
    exact padsExactly_of_appendNum hk hk31 hc' hP64 hx ((law_iff hk hc' hP64 x).1 hlaw)
  · intro h
    obtain ⟨x, hx, hdvd⟩ := appendNum_of_padsExactly hk hk31 hc' hP64 h
    rw [hx, Option.map_some]
    exact returns_some ((law_iff hk hc' hP64 x).2 hdvd)

theorem padding_law_iff_ten :
    Returns (new 3 1 10 4) (PaddingLaw 3 (chunkSize 4)) ↔ PadsExactly 3 (chunkSize 4) 10 :=
  padding_law_iff 1 (by decide) (by decide) (by decide) (@isLeast_stripes 3 4 10 (by decide) (by decide)) (by decide)

/-- 2 TiB for three data strips, in chunks of 1024 bytes: the 2^31 chunks are
negative in an `int`, one chunk too many is appended, and `strip_len` is not a
third of the padded size. -/
theorem padding_off_by_chunk :
    ¬ Returns (new 3 1 (2 ^ 41) (2 ^ 64 - 1)) (PaddingLaw 3 (chunkSize (2 ^ 64 - 1))) := by
  rintro ⟨s, hs, h⟩
  have hstrips : (new 3 1 (2 ^ 41) (2 ^ 64 - 1)).map (fun s => decide (s.strip_len * 3 = s.append_total_size)) =
      some false := by
    decide +kernel
  rw [hs, Option.map_some, h.strips] at hstrips
  exact absurd hstrips (by simp)

/-- In particular when the chunk size and the number of chunks fit in an `int`. -/
theorem padsExactly_of_lt (hk : 0 < k) (hc : 0 < c) (hc31 : c ≤ 2 ^ 31) (hnum : chunkNum c total_size < 2 ^ 31) :
    PadsExactly k c total_size := by
  have hgap : lastGap c total_size < c := Nat.mod_lt _ hc
  refine .inl ⟨0, ?_, Nat.mod_lt _ hk, ?_, ?_⟩
  · rw [toInt_eq (by omega)]
    simp
  · rw [Nat.sub_zero, toInt_eq hnum, Int.sub_self]
    exact Int.dvd_zero _
  · rw [Nat.sub_zero, toInt_eq hnum]
    omega

end ErasureCode.Scheduler
