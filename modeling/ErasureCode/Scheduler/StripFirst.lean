import ErasureCode.Scheduler.StripeFirst

/-!
# Strips of the padded data

`strip_first_continue` copies the data into one zeroed buffer of the padded size
and cuts it into `k` strips (`src/IsaEC.cpp:393-403`). `strip_first_order` gives
every strip a buffer of its own and copies the data strip by strip; the last
copy is shorter by `append_len` (`src/IsaEC.cpp:405-422`).

* `strip_first_order_iff`: the second works, and agrees with the first, exactly
  when the padding fits in the last strip.
* `views_agree`: the strips of the first and the data chunks of
  `stripe_first_outinside` both read as the data and the padding.
-/
namespace ErasureCode.Scheduler

open ErasureCode.Core

variable {k n : Nat}

/-- The strips, and the memory.
mirrors src/IsaEC.cpp:393-403 -/
def stripFirstContinue (s : Scheduler k n) (data : Ptr) (mem : Mem) : Option (Vector Ptr k × Mem) := do
  let (mem, tmp) := calloc mem s.append_total_size
  let mem ← memcpy mem tmp data s.total_size
  let strip_first_ptr ← forUp 0 k (Vector.replicate k default) fun i v => wr v i (tmp.add (mulSize i s.strip_len))
  return (strip_first_ptr, mem)

/-- The bytes copied into strip `i`.
mirrors src/IsaEC.cpp:415-419 -/
def copyLen (s : Scheduler k n) (i : Nat) : Nat :=
  if i = k - 1 then subSize s.strip_len s.append_len else s.strip_len

/-- The buffer `tmp`, filled first, is not used.
mirrors src/IsaEC.cpp:405-422 -/
def stripFirstOrder (s : Scheduler k n) (data : Ptr) (mem : Mem) : Option (Vector Ptr k × Mem) := do
  let (mem, tmp) := calloc mem s.append_total_size
  let mem ← memcpy mem tmp data s.total_size
  forUp 0 k (Vector.replicate k default, mem) fun i (v, mem) => do
    let (mem, p) := calloc mem s.strip_len
    let mem ← memcpy mem p (data.add (mulSize i s.strip_len)) (copyLen s i)
    return (← wr v i p, mem)

/-- The sizes fit together. -/
structure Sized (s : Scheduler k n) : Prop where
  strips : s.append_total_size = k * s.strip_len
  pad : s.append_total_size = s.total_size + s.append_len
  lt : s.append_total_size < 2 ^ 64

theorem new_sized (n : Nat) {chunk_size total_size : Nat} (hk : 0 < k) (hk31 : k < 2 ^ 31) (hc : 0 < chunk_size)
    (hc31 : chunk_size < 2 ^ 31) (hpad : stripeNum k chunk_size total_size * k < 2 ^ 31) :
    ∃ s : Scheduler k n, new k n total_size chunk_size = some s ∧ Sized s ∧ s.total_size = total_size ∧
      s.chunk_size = chunk_size ∧ s.strip_len = stripeNum k chunk_size total_size * chunk_size ∧
      s.append_total_size = stripeNum k chunk_size total_size * (k * chunk_size) := by
  have hle := @total_le k chunk_size total_size hk hc
  refine ⟨_, new_eq n hk hk31 hc hc31 hpad, ⟨Nat.mul_left_comm _ _ _, (Nat.add_sub_cancel' hle).symm, ?_⟩,
    rfl, rfl, rfl, rfl⟩
  dsimp only
  rw [← Nat.mul_assoc]
  exact Nat.lt_trans (Nat.mul_lt_mul'' hpad hc31) (by norm_num)

section
variable {s : Scheduler k n} {mem : Mem} {data : Ptr} {D : Nat → UInt8}

/-- The strips end where the padded data ends. -/
theorem Sized.strip_le (hs : Sized s) {i : Nat} (hi : i < k) :
    i * s.strip_len + s.strip_len ≤ s.append_total_size := by
  rw [hs.strips, ← Nat.succ_mul]
  exact Nat.mul_le_mul_right _ hi

/-- The buffer both functions fill first. -/
theorem tmp_spec (hs : Sized s) (hD : HoldsData mem data s.total_size D) :
    Returns (memcpy (calloc mem s.append_total_size).1 (calloc mem s.append_total_size).2 data s.total_size)
      fun mem' => Allocated mem mem' 1 s.append_total_size fun _ p => padded D s.total_size p := by
  have hpad := hs.pad
  have h : Returns (memcpy (calloc mem s.append_total_size).1 (calloc mem s.append_total_size).2 (data.add 0)
      s.total_size) _ := copy_spec hD (by omega) (by omega) fun p hp _ => by omega
  simp only [Nat.zero_add, Ptr.add_zero] at h
  exact h

theorem stripFirstContinue_spec (hs : Sized s) (hD : HoldsData mem data s.total_size D) :
    Returns (stripFirstContinue s data mem) fun r =>
      Allocated mem r.2 1 s.append_total_size (fun _ p => padded D s.total_size p) ∧
      ∀ i, i < k → cell r.1 i = ⟨mem.size, i * s.strip_len⟩ := by
  unfold stripFirstContinue
  refine (tmp_spec hs hD).bind fun mem' ha => ?_
  refine (Returns.forUp (fun i (v : Vector Ptr k) => ∀ x, x < i → cell v x = ⟨mem.size, x * s.strip_len⟩)
    (Nat.zero_le k) (fun x hx => by omega) fun i v _ hi hv => ?_).bind fun v hv => returns_some ⟨ha, hv⟩
  have hlt := hs.strip_le hi
  have h64 := hs.lt
  rw [wr_eq v hi, mulSize_eq (by omega)]
  refine returns_some fun x hx => ?_
  by_cases hxi : x = i
  · rw [hxi, cell_upd_self v hi]
    simp [Ptr.add]
  · rw [cell_upd_ne v (Ne.symm hxi), hv x (by omega)]

/-- The padding fits in the last strip: the copies end where the data ends. -/
theorem copyLen_spec (hs : Sized s) (hfit : s.append_len ≤ s.strip_len) {i : Nat} (hi : i < k) :
    copyLen s i ≤ s.strip_len ∧ i * s.strip_len + copyLen s i ≤ s.total_size ∧
      ∀ p, copyLen s i ≤ p → p < s.strip_len → s.total_size ≤ i * s.strip_len + p := by
  have hstrips := hs.strips
  have hpad := hs.pad
  have h64 := hs.lt
  have hle := hs.strip_le hi
  unfold copyLen
  split
  · rename_i hlast
    have hk : k * s.strip_len = i * s.strip_len + s.strip_len := by
      rw [← Nat.succ_mul, hlast, Nat.succ_eq_add_one, Nat.sub_add_cancel (by omega)]
    rw [subSize_eq hfit (by omega)]
    refine ⟨Nat.sub_le _ _, by omega, fun p hp _ => by omega⟩
  · have hnext := Nat.mul_le_mul_right s.strip_len (show i + 1 + 1 ≤ k by omega)
    rw [Nat.succ_mul, Nat.succ_mul] at hnext
    exact ⟨Nat.le_refl _, by omega, fun p h1 h2 => by omega⟩

theorem stripFirstOrder_spec (hs : Sized s) (hfit : s.append_len ≤ s.strip_len)
    (hD : HoldsData mem data s.total_size D) :
    Returns (stripFirstOrder s data mem) fun r => r.1 = ownBuffers (mem.size + 1) k ∧
      ∃ mem₁, Allocated mem mem₁ 1 s.append_total_size (fun _ p => padded D s.total_size p) ∧
        Allocated mem₁ r.2 k s.strip_len fun i p => padded D s.total_size (i * s.strip_len + p) := by
  unfold stripFirstOrder
  refine (tmp_spec hs hD).bind fun mem₁ ha => ?_
  have hD₁ := hD.allocated ha
  refine (Returns.forUp (fun i (r : Vector Ptr k × Mem) => (∀ x, x < i → cell r.1 x = ⟨mem.size + 1 + x, 0⟩) ∧
    Allocated mem₁ r.2 i s.strip_len fun i p => padded D s.total_size (i * s.strip_len + p)) (Nat.zero_le k)
    ⟨fun x hx => by omega, Allocated.refl mem₁ _ _⟩ fun i r _ hi ⟨hv, hr⟩ => ?_).mono fun r ⟨hv, hr⟩ =>
      ⟨buffer_ext fun x hx => by rw [hv x hx, cell_ownBuffers hx], mem₁, ha, hr⟩
  obtain ⟨h1, h2, h3⟩ := copyLen_spec hs hfit hi
  have hlt := hs.strip_le hi
  have h64 := hs.lt
  rw [mulSize_eq (by omega)]
  refine (copy_spec (hD₁.allocated hr) h1 h2 h3).bind fun t ht => ?_
  rw [wr_eq r.1 hi]
  refine returns_some ⟨fun x hx => ?_, hr.append ht fun x hx p _ => by rw [show x = 0 by omega]; rfl⟩
  by_cases hxi : x = i
  · rw [hxi, cell_upd_self r.1 hi, ← ha.size, ← hr.size]
  · rw [cell_upd_ne r.1 (Ne.symm hxi), hv x (by omega)]

/-- Otherwise the last copy does not fit in its strip. -/
theorem stripFirstOrder_fits (hk : 0 < k) (hs : Sized s) {r : Vector Ptr k × Mem}
    (h : stripFirstOrder s data mem = some r) : s.append_len ≤ s.strip_len := by
  by_contra hlt
  have hlen : s.strip_len < copyLen s (k - 1) := by
    rw [copyLen, if_pos rfl]
    have := hs.pad
    have := hs.lt
    exact lt_subSize (by omega) (by omega)
  obtain ⟨mem₁, -, hloop⟩ := Option.bind_eq_some_iff.1 h
  have hinv := forUp_inv (fun i (_ : Vector Ptr k × Mem) => i < k) (Nat.zero_le k) hk
    (fun i r r' _ hi _ hbody => ?_) hloop
  · exact absurd hinv (Nat.lt_irrefl k)
  · by_contra hend
    obtain rfl : i = k - 1 := by omega
    obtain ⟨t, ht, -⟩ := Option.bind_eq_some_iff.1 hbody
    have hin := (memcpy_accessed ht).valid _ ⟨s.strip_len, Nat.zero_le _, hlen, rfl⟩
    simp [load, Ptr.add] at hin

end

/-- A buffer of exactly the bytes `D`. -/
structure DataBuffer (mem : Mem) (data : Ptr) (total_size : Nat) (D : Nat → UInt8) : Prop where
  holds : HoldsData mem data total_size D
  ends : ∀ x, total_size ≤ x → load mem (data.add x) = none

/-- `strip_first_order` accesses nothing outside its buffers, none of its copies
is longer than a strip, and its strips hold what those of `strip_first_continue` hold. -/
def OrderAgrees (s : Scheduler k n) (data : Ptr) (mem : Mem) : Prop :=
  Returns (stripFirstOrder s data mem) fun r => (∀ i, i < k → copyLen s i ≤ s.strip_len) ∧
    Returns (stripFirstContinue s data mem) fun r' => ∀ i, i < k → ∀ p, p < s.strip_len →
      ∃ x, load r.2 ((cell r.1 i).add p) = some x ∧ load r'.2 ((cell r'.1 i).add p) = some x

section
variable {mem : Mem} {data : Ptr} {D : Nat → UInt8} {chunk_size total_size : Nat}

/-- **The two strip-first layouts** agree when the data reach the last strip,
and only then. -/
theorem strip_first_order_iff (n : Nat) (hk : 0 < k) (hk31 : k < 2 ^ 31) (hc : 0 < chunk_size)
    (hc31 : chunk_size < 2 ^ 31) (hpad : stripeNum k chunk_size total_size * k < 2 ^ 31)
    (hbuf : DataBuffer mem data total_size D) :
    ∃ s : Scheduler k n, new k n total_size chunk_size = some s ∧
      (OrderAgrees s data mem ↔ (k - 1) * (stripeNum k chunk_size total_size * chunk_size) ≤ total_size) := by
  obtain ⟨s, hnew, hs, rfl, rfl, hstrip, -⟩ := new_sized n hk hk31 hc hc31 hpad
  refine ⟨s, hnew, ?_⟩
  have hfit : s.append_len ≤ s.strip_len ↔ (k - 1) * s.strip_len ≤ s.total_size := by
    have hpad := hs.pad
    have hle := Nat.le_mul_of_pos_left s.strip_len hk
    rw [hs.strips] at hpad
    rw [Nat.sub_one_mul]
    omega
  rw [← hstrip, ← hfit]
  constructor
  · rintro ⟨r, hr, -⟩
    exact stripFirstOrder_fits hk hs hr
  · intro h
    obtain ⟨r, hr, hv, mem₁, ha, hbytes⟩ := stripFirstOrder_spec hs h hbuf.holds
    obtain ⟨r', hr', hbytes', hv'⟩ := stripFirstContinue_spec hs hbuf.holds
    refine ⟨r, hr, fun i hi => (copyLen_spec hs h hi).1, r', hr', fun i hi p hp => ?_⟩
    refine ⟨padded D s.total_size (i * s.strip_len + p), ?_, ?_⟩
    · have hbyte := hbytes.new i hi p hp
      rw [ha.size] at hbyte
      rw [hv, cell_ownBuffers hi, Ptr.add, Nat.zero_add]
      exact hbyte
    · have hlt := hs.strip_le hi
      rw [hv' i hi]
      exact hbytes'.new 0 (by omega) (i * s.strip_len + p) (by omega)

theorem strip_first_order_iff_five : ∃ s : Scheduler 3 1, new 3 1 5 1 = some s ∧
    (OrderAgrees s ⟨0, 0⟩ #[#[1, 2, 3, 4, 5]] ↔ (3 - 1) * (stripeNum 3 1 5 * 1) ≤ 5) :=
  strip_first_order_iff 1 (by decide) (by decide) (by decide) (by decide) (by decide)
    (D := fun x => UInt8.ofNat (x + 1)) ⟨by unfold HoldsData; decide, fun x hx => load_eq_none_iff.2 (by simpa [Ptr.add] using hx)⟩

/-- One byte for three strips: the second copy starts past the end of the data. -/
theorem strip_order_reads_past : ∃ s : Scheduler 3 1, new 3 1 1 1 = some s ∧
    stripFirstOrder s ⟨0, 0⟩ #[#[7]] = none ∧ ¬ OrderAgrees s ⟨0, 0⟩ #[#[7]] := by
  obtain ⟨s, hnew, h⟩ := Option.map_eq_some_iff.1
    (show (new 3 1 1 1).map (fun s => stripFirstOrder s ⟨0, 0⟩ #[#[7]]) = some none by decide +kernel)
  refine ⟨s, hnew, h, ?_⟩
  rintro ⟨r, hr, -⟩
  rw [h] at hr
  cases hr

end

/-! ## Two views of the padded data -/

/-- What is read at the bytes of the strips, one strip after another. -/
def stripReads {c : Nat} (strip_len : Nat) (v : Vector Ptr c) (mem : Mem) : List (Option UInt8) :=
  (List.range c).flatMap fun i => (List.range strip_len).map fun p => load mem ((cell v i).add p)

/-- `mem'` is `mem` with new buffers. -/
structure OnlyNew (mem mem' : Mem) : Prop where
  size : mem.size ≤ mem'.size
  old : ∀ q, q.buf < mem.size → load mem' q = load mem q

section
variable {mem : Mem} {data : Ptr} {D : Nat → UInt8} {chunk_size total_size : Nat}

/-- **Strip-first and stripe-first** are two views of the padded data. -/
theorem views_agree (n : Nat) (hk : 0 < k) (hkn : k + n < 2 ^ 31) (hc : 0 < chunk_size) (hc31 : chunk_size < 2 ^ 31)
    (hpad : stripeNum k chunk_size total_size * k < 2 ^ 31) (hbuf : DataBuffer mem data total_size D) :
    ∃ s : Scheduler k n, new k n total_size chunk_size = some s ∧
      (Returns (stripFirstContinue s data mem) fun r => OnlyNew mem r.2 ∧
        stripReads s.strip_len r.1 r.2 = ((List.range total_size).map D ++ List.replicate s.append_len 0).map some) ∧
      Returns (stripeFirstOutinside s data mem) fun r => OnlyNew mem r.2 ∧
        chunkReads k chunk_size r.1 r.2 = ((List.range total_size).map D ++ List.replicate s.append_len 0).map some ∧
        ∀ (i : Nat) (v : Vector Ptr (k + n)), r.1[i]? = some v → ∀ j, k ≤ j → j < k + n → ∀ p, p < chunk_size →
          load r.2 ((cell v j).add p) = some 0 := by
  obtain ⟨s, hnew, hs, rfl, rfl, hstrip, hmul⟩ := new_sized n hk (by omega) hc hc31 hpad
  have hsum := hs.pad
  have happ : s.append_total_size - s.total_size = s.append_len := by omega
  refine ⟨s, hnew, ?_, ?_⟩
  · refine (stripFirstContinue_spec hs hbuf.holds).mono fun r ⟨ha, hv⟩ => ⟨⟨?_, ha.old⟩, ?_⟩
    · rw [ha.size]
      exact Nat.le_add_right _ _
    · rw [← happ, ← padded_map D (by omega), hs.strips, List.map_map, range_mul_map, stripReads]
      refine List.flatMap_congr fun i hi => List.map_congr_left fun p hp => ?_
      have hik := List.mem_range.1 hi
      have hpl := List.mem_range.1 hp
      have hlt := hs.strip_le hik
      have hbyte := ha.new 0 (by omega) (i * s.strip_len + p) (by omega)
      rw [hv i hik, Ptr.add, ← Nat.add_zero mem.size, hbyte]
      rfl
  · refine (stripeFirstOutinside_spec hk hc hc31 hpad hmul (by omega) hbuf.holds).mono fun r h =>
      ⟨⟨?_, h.bytes.old⟩, ?_, ?_⟩
    · rw [h.bytes.size]
      exact Nat.le_add_right _ _
    · rw [chunkReads_eq (D := D) h.size (total_le hk hc) fun i v hv j hj p hp => ?_, ← hmul, happ]
      rw [h.load_chunk hv (by omega) hp, chunkByte, if_pos hj]
    · intro i v hv j hkj hj p hp
      rw [h.load_chunk hv hj hp, chunkByte, if_neg (by omega)]

theorem views_agree_three : ∃ s : Scheduler 2 1, new 2 1 3 2 = some s ∧
    (Returns (stripFirstContinue s ⟨0, 0⟩ #[#[1, 2, 3]]) fun r => OnlyNew #[#[1, 2, 3]] r.2 ∧
      stripReads s.strip_len r.1 r.2 =
        ((List.range 3).map (fun x => UInt8.ofNat (x + 1)) ++ List.replicate s.append_len 0).map some) ∧
    Returns (stripeFirstOutinside s ⟨0, 0⟩ #[#[1, 2, 3]]) fun r => OnlyNew #[#[1, 2, 3]] r.2 ∧
      chunkReads 2 2 r.1 r.2 =
        ((List.range 3).map (fun x => UInt8.ofNat (x + 1)) ++ List.replicate s.append_len 0).map some ∧
      ∀ (i : Nat) (v : Vector Ptr (2 + 1)), r.1[i]? = some v → ∀ j, 2 ≤ j → j < 2 + 1 → ∀ p, p < 2 →
        load r.2 ((cell v j).add p) = some 0 :=
  views_agree 1 (by decide) (by decide) (by decide) (by decide) (by decide)
    ⟨by unfold HoldsData; decide, fun x hx => load_eq_none_iff.2 (by simpa [Ptr.add] using hx)⟩

end

end ErasureCode.Scheduler
