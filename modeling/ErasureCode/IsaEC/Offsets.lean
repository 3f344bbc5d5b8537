import ErasureCode.Core.Steps
import ErasureCode.IsaEC.Calls

/-!
# The offsets of the blocks

`encode_ptr` counts its blocks in an `int` and multiplies the count by the block
size in an `int` (`src/IsaEC.cpp:106-119`). `encode`, `decode` and
`cache_decode_ptr` keep a `size_t` index, but its bound is an `int`
(`src/IsaEC.cpp:66-68,137-140,208-211`); only `decode_ptr` has both in 64 bits.

* `offsets_exact_iff`: the blocks of `encode_ptr` are the right ones exactly when
  their count and their last offset fit in an `int`.
* `total_len_indices_iff`: the loops bounded by `total_len` take their index
  through the right blocks exactly when `size / k` fits in an `int`.
-/
namespace ErasureCode.IsaEC

open ErasureCode.Core Isal

variable {k n : Nat}

/-! ## `encode_ptr` -/

/-- What `encode_ptr` computes in `int` is exact: the count of the blocks, and
each offset; and it encodes each block once. -/
structure OffsetsExact (maxSize size : Nat) : Prop where
  iter_num : toInt (size / maxSize) = (size / maxSize : Nat)
  offset : ∀ i, i < (toInt (size / maxSize)).toNat → mulInt i maxSize = some (i * maxSize)
  blocks : ∀ (k n : Nat) (ec : IsaEC k n) (in_ : Vector Ptr k) (out : Vector Ptr n) (mem : Mem),
    ec.maxSize = maxSize → encodePtr ec in_ out size mem =
      (run (ec.encodeWindow in_ out) (multiples maxSize (size / maxSize)) mem).map fun m => (m, true)

/-- **The offsets of `encode_ptr`** are exact when the number of blocks and the
last offset are below 2^31, and only then. -/
theorem offsets_exact_iff {maxSize size : Nat} (hM : 0 < maxSize) (hdvd : maxSize ∣ size) :
    OffsetsExact maxSize size ↔ size / maxSize < 2 ^ 31 ∧ size < 2 ^ 31 + maxSize := by
  obtain ⟨B, rfl⟩ := hdvd
  rw [Nat.mul_div_cancel_left B hM, Nat.mul_comm maxSize]
  constructor
  · rintro ⟨hiter, hoff, -⟩
    rw [Nat.mul_div_cancel B hM] at hiter hoff
    have hB : B < 2 ^ 31 := by
      have := toInt_lt B
      omega
    refine ⟨hB, ?_⟩
    rcases Nat.eq_zero_or_pos B with rfl | hpos
    · omega
    · obtain ⟨hlast, -⟩ := mulInt_some (hoff (B - 1) (by rw [hiter]; omega))
      rw [Nat.sub_one_mul] at hlast
      omega
  · rintro ⟨hB, hlast⟩
    have hint : ∀ b, b < B → b * maxSize < 2 ^ 31 := fun b hb => by
      have := Nat.mul_le_mul_right maxSize (show b + 1 ≤ B from hb)
      rw [Nat.succ_mul] at this
      omega
    have hiter : toInt (B * maxSize / maxSize) = (B : Int) := by rw [Nat.mul_div_cancel B hM, toInt_eq hB]
    refine ⟨?_, fun i hi => ?_, fun k n ec in_ out mem hec => ?_⟩
    · rw [hiter, Nat.mul_div_cancel B hM]
    · rw [hiter] at hi
      exact mulInt_eq (hint i hi)
    · subst hec
      rw [Nat.mul_div_cancel B hM, run_multiples]
      exact encodePtr_eq ec hM (by rw [hiter, Int.toNat_natCast]) hint

theorem offsets_exact_iff_two : OffsetsExact 4096 (2 ^ 31) ↔ 2 ^ 31 / 4096 < 2 ^ 31 ∧ 2 ^ 31 < 2 ^ 31 + 4096 :=
  offsets_exact_iff (by decide) (by decide)

/-- Strips of one block more than 2 GiB: the last offset, 2^31, overflows. -/
theorem offset_overflows : ¬ OffsetsExact 4096 (2 ^ 31 + 4096) := fun h => by
  have hlast := h.offset (2 ^ 31 / 4096) (by decide)
  exact absurd hlast (by decide)

/-! ## `encode`, `decode` and `cache_decode_ptr` -/

/-- One round of the loop of `encode`.
mirrors src/IsaEC.cpp:69-81 -/
def encodeRound (ec : IsaEC k n) (in_ : Vector Ptr k) (out : Vector Ptr n) (index : Nat)
    (s : Vector (Option Ptr) (k + n) × Mem) : Option (Vector (Option Ptr) (k + n) × Mem) := do
  let s ← forUp 0 (k + n) s (storeFrag in_ out index)
  encodeFrag ec s

/-- The bound of the three loops, `int total_len = size / k` compared with a
`size_t`. -/
def totalLen (k size : Nat) : Nat := toSize (toInt (size / k))

/-- Their rounds, when they are counted before the first. As in `forStep` the count
does not wrap. -/
def roundsCounted (k maxSize size : Nat) : Nat := (totalLen k size + maxSize - 1) / maxSize

/-- The parallel loops of the three methods take their index through `l`. -/
structure RunsThrough (ec : IsaEC k n) (size : Nat) (l : List Nat) : Prop where
  encode : ∀ in_ out mem, encode ec in_ out size mem =
    (run (encodeRound ec in_ out) l (Vector.replicate (k + n) none, mem)).map fun s => (s.2, true)
  decode : ∀ matrix (err_num : Nat) (err_list : Vector UInt8 err_num) mem,
    decode ec matrix err_list size mem = do
      let ec ← loadDecodeTables ec err_list
      let mem ← run (recoverBlock ec ec.g_tbls matrix err_list) l mem
      return (ec, mem, true)
  cacheDecodePtr : ∀ matrix (err_num : Nat) (err_list : Vector UInt8 err_num) mem,
    cacheDecodePtr ec matrix err_list size mem =
      (run (recoverBlock ec ec.g_tbls_decode matrix err_list) l mem).map fun m => (m, true)

/-- The index goes through the blocks of `size / k` bytes: when the loop is taken
as written, and when its rounds are counted first. -/
structure IndicesExact (k maxSize size : Nat) : Prop where
  serial : TakesIndex (totalLen k size) maxSize 0 (multiples maxSize (size / k / maxSize))
  parallel : roundsCounted k maxSize size = size / k / maxSize
  methods : ∀ (n : Nat) (ec : IsaEC k n), ec.maxSize = maxSize →
    RunsThrough ec size (multiples maxSize (size / k / maxSize))

section
variable (ec : IsaEC k n) (hk : 0 < k) {err_num : Nat}
include hk

theorem encode_forStep (in_ : Vector Ptr k) (out : Vector Ptr n) (size : Nat) (mem : Mem) :
    encode ec in_ out size mem = (forStep (totalLen k size) ec.maxSize (Vector.replicate (k + n) none, mem)
      (encodeRound ec in_ out)).map fun s => (s.2, true) := by
  unfold encode totalLen
  rw [divSize_eq hk, Option.map_eq_bind]
  rfl

theorem cacheDecodePtr_forStep (matrix : Vector Ptr (k + n)) (err_list : Vector UInt8 err_num) (size : Nat)
    (mem : Mem) : cacheDecodePtr ec matrix err_list size mem =
      (forStep (totalLen k size) ec.maxSize mem (recoverBlock ec ec.g_tbls_decode matrix err_list)).map
        fun m => (m, true) := by
  unfold cacheDecodePtr totalLen
  rw [divSize_eq hk, Option.map_eq_bind]
  rfl

theorem runsThrough (hM : 0 < ec.maxSize) (size : Nat) :
    RunsThrough ec size (multiples ec.maxSize (roundsCounted k ec.maxSize size)) := by
  refine ⟨fun in_ out mem => ?_, fun matrix err_num err_list mem => ?_, fun matrix err_num err_list mem => ?_⟩
  · rw [encode_forStep ec hk, forStep_eq_run hM, roundsCounted]
  · rw [decode_eq hk]
    cases hload : loadDecodeTables ec err_list with
    | none => rw [decodePtr, hload, Option.bind_eq_bind, Option.bind_none, Option.bind_eq_bind, Option.bind_none]
    | some ec' =>
      have hmax := (loadDecodeTables_sameCode hload).maxSize
      rw [decodePtr_eq hload (by rw [hmax]; exact hM), hmax, roundsCounted, totalLen, ← run_multiples,
        Option.bind_eq_bind, Option.bind_some]
      generalize run _ _ mem = o
      cases o with
      | none => rfl
      | some mem' => rfl
  · rw [cacheDecodePtr_forStep ec hk, forStep_eq_run hM, roundsCounted]

end

/-! ## The bound -/

section
variable {maxSize size : Nat}

theorem totalLen_eq (h : size / k < 2 ^ 31) : totalLen k size = size / k := by
  rw [totalLen, toInt_eq h, toSize_eq (by omega)]

/-- The bound of longer strips is off by at least 2^32: too small when the `int`
is not negative, beyond 2^63 when it is. -/
theorem totalLen_far (h : 2 ^ 31 ≤ size / k) (hsize : size / k < 2 ^ 63) :
    totalLen k size + 2 ^ 32 ≤ size / k ∨ size / k < totalLen k size := by
  have hdvd := dvd_sub_toInt (size / k)
  have hlt := toInt_lt (size / k)
  have hge := neg_le_toInt (size / k)
  unfold totalLen
  generalize toInt (size / k) = x at *
  rcases Int.lt_or_le x 0 with hx | hx
  · refine .inr ?_
    rw [toSize]
    omega
  · refine .inl ?_
    rw [toSize, Int.emod_eq_of_lt hx (by omega)]
    omega

/-- **The loops bounded by `total_len`** visit the right blocks when `size / k`
fits in an `int`, and only then. -/
theorem total_len_indices_iff (hk : 0 < k) (hM : 0 < maxSize) (hM31 : maxSize < 2 ^ 31) (hsize : size < 2 ^ 63)
    (hdvd : maxSize ∣ size / k) : IndicesExact k maxSize size ↔ size / k < 2 ^ 31 := by
  have hle : size / k ≤ size := Nat.div_le_self size k
  have hB : size / k / maxSize * maxSize = size / k := Nat.div_mul_cancel hdvd
  have hserial := @takesIndex_iff_ceil (totalLen k size) maxSize (size / k / maxSize) hM (by omega)
  constructor
  · intro h
    by_contra hlong
    have hceil := (ceil_eq_iff hM).1 (hserial.1 h.serial)
    rw [hB] at hceil
    have hpos : 0 < size / k / maxSize := Nat.pos_of_ne_zero fun h0 => by
      rw [h0, Nat.zero_mul] at hB
      omega
    have hlast := hceil.2 hpos
    rw [Nat.sub_one_mul, hB] at hlast
    rcases totalLen_far (Nat.not_lt.1 hlong) (by omega) with hsmall | hlarge
    · omega
    · omega
  · intro hshort
    have hrounds : roundsCounted k maxSize size = size / k / maxSize := by
      rw [roundsCounted, totalLen_eq hshort, ceil_eq_iff hM, hB]
      refine ⟨Nat.le_refl _, fun hpos => ?_⟩
      have := Nat.le_mul_of_pos_left maxSize hpos
      rw [Nat.sub_one_mul, hB]
      omega
    refine ⟨hserial.2 hrounds, hrounds, ?_⟩
    rintro n ec rfl
    rw [← hrounds]
    exact runsThrough ec hk hM size

theorem total_len_indices_iff_two : IndicesExact 2 4096 (2 ^ 31) ↔ 2 ^ 31 / 2 < 2 ^ 31 :=
  total_len_indices_iff (by decide) (by decide) (by decide) (by decide) (by decide)

/-- Strips of 2 GiB: the bound is 2^64 - 2^31, and the loop runs on past the end
of the strips. -/
theorem total_len_negative : ¬ IndicesExact 1 4096 (2 ^ 31) := fun h =>
  absurd h.parallel (by decide)

end

end ErasureCode.IsaEC
