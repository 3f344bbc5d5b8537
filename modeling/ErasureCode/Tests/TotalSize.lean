import ErasureCode.Scheduler.Pipeline
import ErasureCode.Scheduler.StripFirst
import ErasureCode.Tests.RoundTrips

/-!
# The size of one strip, or of all

`encode_ptr` takes the size of one strip. `using_stat_all.cpp`, `test_scheduler.cpp`,
`stripe_wise.cpp`, `stripe_wise_32M.cpp` and `using_stat_all_stripe.cpp` pass it that of
all `k` data strips.

`encodePtr_inside_iff`: with parity strips that end after `L` bytes a call for `size`
bytes stays inside exactly when its blocks end by `L`. So a call for `k * L` bytes
does when `k = 1`, or when not even one block fits in all strips together and it does
nothing (`total_size_inside_iff`).
-/
namespace ErasureCode.Tests

open ErasureCode.Core Isal IsaEC Scheduler

variable {k n L size : Nat} {ec : IsaEC k n} {in_ : Vector Ptr k} {out : Vector Ptr n} {mem : Mem}

/-- The blocks of a call for `size` bytes, on parity strips that end after `L`. -/
theorem encodePtr_inside_iff (hM : 0 < ec.maxSize) (hB : size / ec.maxSize < 2 ^ 31) (hL : L < 2 ^ 31)
    (hs : Strips mem (in_ ++ out) L) (hn : 0 < n) (hend : load mem ((cell out 0).add L) = none) :
    (ec.encodePtr in_ out size mem).isSome ↔ size / ec.maxSize * ec.maxSize ≤ L := by
  have hcount : (toInt (size / ec.maxSize)).toNat = size / ec.maxSize := by rw [toInt_eq hB, Int.toNat_natCast]
  constructor
  · intro h
    by_contra hgt
    obtain ⟨r, hr⟩ := Option.isSome_iff_exists.1 h
    obtain ⟨-, hint⟩ := encodePtr_fits ec hr
    rw [hcount] at hint
    rw [encodePtr_eq ec hM hcount hint] at hr
    obtain ⟨mem', hloop, -⟩ := Option.map_eq_some_iff.1 hr
    -- position `L` is in one of the windows
    obtain ⟨b, i, hb, hi, rfl⟩ := pos_surj (Nat.not_le.1 hgt)
    have hcell := windows_accessed hloop hb hn hi
    rw [cell_append in_ out (show k + 0 < k + n by omega), if_neg (by omega), Nat.add_sub_cancel_left, hend] at hcell
    cases hcell
  · intro hle
    have hint : ∀ b, b < size / ec.maxSize → b * ec.maxSize < 2 ^ 31 := fun b hb => by
      have := Nat.mul_le_mul_right ec.maxSize (Nat.le_of_lt hb)
      omega
    obtain ⟨r, hr, -⟩ := encodePtr_spec ec hM hs hcount hle hint
    rw [hr]
    rfl

/-- Blocks of `k` strips that end by the end of the first. -/
theorem blocks_le_iff {M : Nat} (hM : 0 < M) (hk : 0 < k) : k * L / M * M ≤ L ↔ k = 1 ∨ k * L < M := by
  have hdiv := Nat.div_add_mod' (k * L) M
  have hmod := Nat.mod_lt (k * L) hM
  constructor
  · intro h
    by_contra hc
    have hk2 := Nat.mul_le_mul_right L (show 2 ≤ k by omega)
    have hone := Nat.mul_le_mul_right M (Nat.div_pos (show M ≤ k * L by omega) hM)
    omega
  · rintro (rfl | h)
    · rw [Nat.one_mul]
      exact Nat.div_mul_le_self L M
    · rw [Nat.div_eq_of_lt h, Nat.zero_mul]
      exact Nat.zero_le L

/-- **The size of all strips.** A call of `encode_ptr` for `k * L` bytes, on strips of `L`
bytes, stays inside them only when there is one data strip, or when it does nothing. -/
theorem total_size_inside_iff (hk : 0 < k) (hn : 0 < n) (hM : 0 < ec.maxSize) (hB : k * L / ec.maxSize < 2 ^ 31)
    (hL : L < 2 ^ 31) (hs : Strips mem (in_ ++ out) L) (hend : load mem ((cell out 0).add L) = none) :
    ((ec.encodePtr in_ out (k * L) mem).isSome ↔ k = 1 ∨ k * L < ec.maxSize) ∧
      (k * L < ec.maxSize → ec.encodePtr in_ out (k * L) mem = some (mem, true)) := by
  refine ⟨(encodePtr_inside_iff hM hB hL hs hn hend).trans (blocks_le_iff hM hk), fun h => ?_⟩
  rw [encodePtr_eq ec hM (B := 0) (by rw [Nat.div_eq_of_lt h]; rfl) fun b hb => by omega, forUp_of_le (Nat.le_refl 0)]
  rfl

/-! ## Stripes of chunks -/

/-- The stripes of `stripe_wise.cpp`, `stripe_wise_32M.cpp` and `using_stat_all_stripe.cpp`
have chunks of `maxSize` bytes, and `encode_ptr` is called for `k * maxSize`.
mirrors test/stripe_wise.cpp:108-111, test/stripe_wise_32M.cpp:110-113,
test/using_stat_all_stripe.cpp:127-130 -/
def encodeAllStripes (ec : IsaEC k n) (stripes : Array (Vector Ptr (k + n))) (num : Nat) (mem : Mem) : Option Mem :=
  encodeStripes ec stripes num (k * ec.maxSize) mem

theorem encodeAllStripes_isSome_iff (hk : 0 < k) (hk31 : k < 2 ^ 31) (hn : 0 < n) (hM : 0 < ec.maxSize)
    (hM31 : ec.maxSize < 2 ^ 31) {stripes : Array (Vector Ptr (k + n))} {num : Nat}
    (hs : ∀ i, i < num → ∃ v, stripes[i]? = some v ∧ ExactStrips mem v ec.maxSize) :
    (encodeAllStripes ec stripes num mem).isSome ↔ num = 0 ∨ k = 1 := by
  have hcall : ∀ v t, ExactStrips t v ec.maxSize →
      ((ec.encodePtr (front v) (back v) (k * ec.maxSize) t).isSome ↔ k = 1) := fun v t hv => by
    rw [← front_append_back v] at hv
    have hend := hv.ends (k + 0) (by omega) ec.maxSize (Nat.le_refl _)
    rw [cell_append _ _ (show k + 0 < k + n by omega), if_neg (by omega), Nat.add_sub_cancel_left] at hend
    refine (total_size_inside_iff hk hn hM (by rwa [Nat.mul_div_cancel _ hM]) hM31 hv.toStrips hend).1.trans ?_
    have := Nat.le_mul_of_pos_left ec.maxSize hk
    exact or_iff_left (by omega)
  unfold encodeAllStripes encodeStripes
  constructor
  · intro h
    by_contra hc
    obtain ⟨v, hv, hexact⟩ := hs 0 (by omega)
    rw [forUp_step (by omega)] at h
    simp only [hv, Option.bind_eq_bind, Option.bind_some] at h
    obtain ⟨t, ht⟩ := Option.isSome_iff_exists.1 h
    obtain ⟨t₁, ht₁, -⟩ := Option.bind_eq_some_iff.1 ht
    obtain ⟨r, hr, -⟩ := Option.bind_eq_some_iff.1 ht₁
    exact hc (.inr ((hcall v mem hexact).1 (by rw [hr]; rfl)))
  · rintro (rfl | rfl)
    · rfl
    · have hinit : ∀ i, i < num → ∃ v, stripes[i]? = some v ∧ Strips mem v ec.maxSize := fun i hi => by
        obtain ⟨v, hv, hexact⟩ := hs i hi
        exact ⟨v, hv, hexact.toStrips⟩
      have hrun : Returns (forUp 0 num mem fun i mem => do
          let v ← stripes[i]?
          return (← ec.encodePtr (front v) (back v) (1 * ec.maxSize) mem).1)
          fun t => ∀ i, i < num → ∃ v, stripes[i]? = some v ∧ Strips t v ec.maxSize := by
        refine Returns.forUp (fun _ t => ∀ i, i < num → ∃ v, stripes[i]? = some v ∧ Strips t v ec.maxSize)
          (Nat.zero_le num) hinit fun i t _ hi ht => ?_
        obtain ⟨v, hv, hst⟩ := ht i hi
        simp only [hv, Option.bind_eq_bind, Option.bind_some, Nat.one_mul]
        rw [← front_append_back v] at hst
        refine (encodePtr_mul ec hM hst (Nat.dvd_refl _) hM31).bind fun r ⟨_, hw⟩ => returns_some fun j hj => ?_
        obtain ⟨u, hu, hsu⟩ := ht j hj
        exact ⟨u, hu, hw.strips hsu⟩
      obtain ⟨t, ht, -⟩ := hrun
      rw [ht]
      rfl

/-- One stripe of chunks of two bytes. -/
theorem encodeAllStripes_isSome_iff_two : ∃ ec : IsaEC 2 1, IsaEC.new default 2 4 = some ec ∧
    ((encodeAllStripes ec #[ownBuffers 0 3] 1 #[#[1, 2], #[3, 4], #[0, 0]]).isSome ↔ 1 = 0 ∨ 2 = 1) := by
  obtain ⟨ec, hnew⟩ := new_isSome (default : IsaEC 2 1) 2 4 (by decide)
  have hmax : ec.maxSize = 2 := (new_fresh hnew).maxSize_eq
  have hs : ∀ i, i < 1 → ∃ v, #[ownBuffers 0 3][i]? = some v ∧ ExactStrips #[#[1, 2], #[3, 4], #[0, 0]] v ec.maxSize :=
    fun i hi => by
      obtain rfl : i = 0 := by omega
      rw [hmax]
      exact ⟨_, rfl, by decide⟩
  exact ⟨ec, hnew, encodeAllStripes_isSome_iff (by decide) (by decide) (by decide) (by omega) (by omega) hs⟩

/-! ## The strips of the scheduler -/

/-- The strips are cut out of one buffer, the parity strips have their own.
mirrors test/test_scheduler.cpp:61-98 -/
def testScheduler (maxSize thread_num total_size : Nat) (data : Ptr) (mem : Mem) (obj : IsaEC k n) : Option Mem := do
  let s ← Scheduler.new k n total_size (2 ^ 64 - 1)
  let (in_, mem) ← stripFirstContinue s data mem
  let (out, mem) ← allocStrips (zeros s.strip_len) n mem
  let ec ← IsaEC.new obj maxSize thread_num
  return (← ec.encodePtr in_ out s.append_total_size mem).1

/-- The default chunk size. -/
theorem new_default (total_size : Nat) : Scheduler.new k n total_size (2 ^ 64 - 1) = Scheduler.new k n total_size 1024 := by
  unfold Scheduler.new
  rw [if_pos rfl, if_neg (by decide)]

/-- Strips cut out of one buffer, and strips after it. -/
theorem cut_strips {mem' : Mem} {s : Scheduler k n} (hs : Sized s) {val : Nat → UInt8} {c : Nat}
    (ha : Allocated mem mem' 1 s.append_total_size fun _ => val) (hin : ∀ i, i < k → cell in_ i = ⟨mem.size, i * s.strip_len⟩)
    {mem'' : Mem} (hb : Buffers mem'' c (c + n) s.strip_len) (hc : mem.size < c)
    (hold : ∀ q, (load mem' q).isSome → load mem'' q = load mem' q) : Strips mem'' (in_ ++ ownBuffers c n) s.strip_len := by
  have hout := (hb.exact (Nat.le_refl c) (Nat.le_refl _)).toStrips
  refine ⟨fun r hr p hp => ?_, fun r hr r' hr' hne p hp p' hp' e => ?_⟩
  · rw [cell_append _ _ hr]
    split
    · rename_i hrk
      have hle := hs.strip_le hrk
      have hnew := ha.new 0 (Nat.lt_succ_self 0) (r * s.strip_len + p) (by omega)
      rw [Nat.add_zero] at hnew
      rw [hin r hrk, Ptr.add, hold _ (by rw [hnew]; rfl), hnew]
      rfl
    · exact hout.valid _ (by omega) p hp
  · rw [cell_append _ _ hr, cell_append _ _ hr'] at e
    split at e
    · rename_i hrk
      split at e
      · rename_i hrk'
        rw [hin r hrk, hin r' hrk'] at e
        exact hne (pos_inj hp hp' (congrArg Ptr.off e)).1
      · rw [hin r hrk, cell_ownBuffers (by omega)] at e
        have := congrArg Ptr.buf e
        simp only [Ptr.add_buf] at this
        omega
    · split at e
      · rename_i hrk'
        rw [hin r' hrk', cell_ownBuffers (by omega)] at e
        have := congrArg Ptr.buf e
        simp only [Ptr.add_buf] at this
        omega
      · exact hout.disj _ (by omega) _ (by omega) (by omega) p hp p' hp' e

/-- **`test_scheduler.cpp`** stays inside its strips only with one data strip, or when the
padded data is shorter than a block and nothing is encoded. -/
theorem testScheduler_isSome_iff (hk : 0 < k) (hn : 0 < n) (hkn : k + n ≤ 256) {maxSize thread_num total_size : Nat}
    (hM : 0 < maxSize) (hpad : stripeNum k 1024 total_size * k < 2 ^ 31) (hL : stripeNum k 1024 total_size * 1024 < 2 ^ 31)
    (hB : stripeNum k 1024 total_size * (k * 1024) / maxSize < 2 ^ 31) {data : Ptr} (hdata : Valid mem data total_size)
    (obj : IsaEC k n) :
    (testScheduler maxSize thread_num total_size data mem obj).isSome ↔
      k = 1 ∨ stripeNum k 1024 total_size * (k * 1024) < maxSize := by
  obtain ⟨s, hnew, hs, hts, -, hlen, htot⟩ :=
    new_sized n hk (show k < 2 ^ 31 by omega) (show 0 < 1024 by decide) (by decide) hpad
  subst hts
  obtain ⟨ec, hec⟩ := new_isSome obj maxSize thread_num hkn
  obtain rfl := (new_fresh hec).maxSize_eq
  obtain ⟨⟨in_, mem'⟩, hcut, ha, hin⟩ := stripFirstContinue_spec hs fun x hx => load_eq (hdata x hx)
  dsimp only at ha hin
  obtain ⟨⟨out, mem''⟩, hout, hv, hb, ha'⟩ := allocStrips_spec (d := n) (zeros s.strip_len) (Buffers.init mem' s.strip_len)
  dsimp only at hv hb ha'
  subst hv
  have hst : Strips mem'' (in_ ++ ownBuffers mem'.size n) s.strip_len :=
    cut_strips hs ha hin hb (by rw [ha.size]; omega) fun q => ha'.load_old
  have hend := (hb.exact (Nat.le_refl _) (Nat.le_refl _)).ends 0 hn s.strip_len (Nat.le_refl _)
  have hiff := (@total_size_inside_iff k n s.strip_len ec in_ _ mem'' hk hn hM (by rw [← hs.strips, htot]; exact hB)
    (by rw [hlen]; exact hL) hst hend).1
  rw [← hs.strips, htot] at hiff
  unfold testScheduler
  simp only [new_default, hnew, hcut, hout, hec, Option.bind_eq_bind, Option.bind_some]
  rw [← hiff, htot, ← Option.isSome_map (f := Prod.fst), Option.map_eq_bind]
  rfl

/-- Three bytes make strips of one default chunk each: in blocks of 4096 bytes nothing
is encoded, in blocks of 1024 the second one is past the end. -/
theorem testScheduler_isSome_iff_three :
    (testScheduler 4096 1 3 ⟨0, 0⟩ #[#[5, 6, 7]] (default : IsaEC 2 1)).isSome ∧
      ¬ (testScheduler 1024 1 3 ⟨0, 0⟩ #[#[5, 6, 7]] (default : IsaEC 2 1)).isSome :=
  ⟨(testScheduler_isSome_iff (by decide) (by decide) (by decide) (by decide) (by decide) (by decide) (by decide) (by decide)
      default).2 (by decide),
    fun h => absurd ((testScheduler_isSome_iff (by decide) (by decide) (by decide) (by decide) (by decide) (by decide)
      (by decide) (by decide) default).1 h) (by decide)⟩

end ErasureCode.Tests
