import ErasureCode.Core.Writes
import ErasureCode.Ssd.Transfer

/-!
# Placement on the SSDs

Each strip has 10 GiB of one of the three devices to itself: `place` is
injective (`place_inj`), and a position below 10 GiB stays inside
(`position_inj`). So whatever the order in which the segments of the strips are
written, byte `q` of strip `i` is the only one ever put at its position
(`disk_byte`), and `parallel_read_ssd` finds it there
(`placement_round_trip`).
-/
namespace ErasureCode.Ssd

open ErasureCode.Core IsaEC

variable {k n : Nat}

/-! ## Places -/

theorem place_cases (k i : Nat) :
    (i < k / 2 ∧ place k i = (.ssd1, i)) ∨ (k / 2 ≤ i ∧ i < k ∧ place k i = (.ssd2, i - k / 2)) ∨
      (k ≤ i ∧ place k i = (.ssd3, i - k)) := by
  unfold place
  by_cases h1 : i < k / 2
  · exact .inl ⟨h1, if_pos h1⟩
  · by_cases h2 : i < k
    · exact .inr (.inl ⟨by omega, h2, by rw [if_neg h1, if_pos h2]⟩)
    · exact .inr (.inr ⟨by omega, by rw [if_neg h1, if_neg h2]⟩)

/-- No two strips share a place. -/
theorem place_inj {i i' : Nat} (h : place k i = place k i') : i = i' := by
  rcases place_cases k i with ⟨h1, e⟩ | ⟨h1, h2, e⟩ | ⟨h1, e⟩ <;>
    rcases place_cases k i' with ⟨h1', e'⟩ | ⟨h1', h2', e'⟩ | ⟨h1', e'⟩ <;>
    rw [e, e'] at h <;> simp only [Prod.mk.injEq, reduceCtorEq, false_and, true_and] at h <;> omega

theorem place_le (k i : Nat) : (place k i).2 ≤ i := by
  rcases place_cases k i with ⟨-, e⟩ | ⟨-, -, e⟩ | ⟨-, e⟩ <;> rw [e] <;> dsimp only <;> omega

/-- The position of byte `q` of strip `i` on its device. -/
def position (k i q : Nat) : Nat := (place k i).2 * strip_offset + q

/-- The sizes fit: nothing wraps. -/
theorem position_eq (hkn : k + n ≤ 256) {i q : Nat} (hi : i < k + n) (hq : q ≤ strip_offset) :
    addSize (mulSize (place k i).2 strip_offset) q = position k i q := by
  have hslot := place_le k i
  unfold strip_offset at hq ⊢
  rw [position, strip_offset, mulSize_eq (by omega), addSize_eq (by omega)]

theorem position_inj {i i' q q' : Nat} (hq : q < strip_offset) (hq' : q' < strip_offset)
    (hdev : (place k i).1 = (place k i').1) (h : position k i q = position k i' q') : i = i' ∧ q = q' := by
  obtain ⟨hslot, hq⟩ := pos_inj hq hq' h
  exact ⟨place_inj (Prod.ext hdev hslot), hq⟩

/-! ## The writes -/

/-- A call of `parallel_write_ssd` on a segment, its transfers in the order
`order`. -/
structure Put where
  offset : Nat
  size : Nat
  order : List Nat

/-- The segments cut `[0, len)` up. -/
structure Partition (puts : List Put) (len : Nat) : Prop where
  inside : ∀ c ∈ puts, c.offset + c.size ≤ len
  disjoint : puts.Pairwise fun c d => c.offset + c.size ≤ d.offset ∨ d.offset + d.size ≤ c.offset
  covers : ∀ x, x < len → ∃ c ∈ puts, c.offset ≤ x ∧ x < c.offset + c.size

/-- The transfers of a call, each strip pointer advanced by the segment's
offset. -/
def putSegment (in_ : Vector Ptr k) (out : Vector Ptr n) (mem : Mem) (c : Put) (log : List Pwrite) :
    Option (List Pwrite) :=
  run (writeStrip (.moved c.size) (advance in_ c.offset) (advance out c.offset) c.size c.offset mem) c.order log

/-- Its rounds in order, it is the call of the source. -/
theorem putSegment_range (in_ : Vector Ptr k) (out : Vector Ptr n) (mem : Mem) (size offset : Nat) (log : List Pwrite) :
    parallelWriteSsd (fun _ => .moved size) (advance in_ offset) (advance out offset) size offset mem log =
      (putSegment in_ out mem ⟨offset, size, List.range (k + n)⟩ log).map fun l => (l, true) := by
  rw [putSegment, run_range, parallelWriteSsd, Option.map_eq_bind]
  rfl

/-- A transfer, as a write to one of the devices. -/
def Pwrite.region (w : Pwrite) : Region Device UInt8 := ⟨w.ssd, w.offset, w.bytes⟩

/-- What the devices hold after the transfers of the log. -/
def onDisk (disk : Disk) (log : List Pwrite) : Disk := (log.map Pwrite.region).foldl Region.write disk

section
variable {in_ : Vector Ptr k} {out : Vector Ptr n} {mem : Mem} {len : Nat} {puts : List Put}

/-- The transfers of all calls. -/
def transfers (in_ : Vector Ptr k) (out : Vector Ptr n) (mem : Mem) (puts : List Put) : List Pwrite :=
  puts.flatMap fun c => c.order.flatMap fun i =>
    [stripWrite k i c.offset (bytesAt mem ((cell (in_ ++ out) i).add c.offset) c.size)]

theorem putSegments_spec (hs : ∀ i, i < k + n → Valid mem (cell (in_ ++ out) i) len) (hp : Partition puts len)
    (horder : ∀ c ∈ puts, c.order.Perm (List.range (k + n))) (log : List Pwrite) :
    run (putSegment in_ out mem) puts log = some (log ++ transfers in_ out mem puts) := by
  refine run_log (fun c hc log => ?_) log
  refine run_log (fun i hi log => ?_) log
  have hin := hp.inside c hc
  have hik : i < k + n := List.mem_range.1 ((horder c hc).mem_iff.1 hi)
  have hvalid : Valid mem (cell (advance in_ c.offset ++ advance out c.offset) i) c.size := by
    rw [advance_append, cell_advance hik]
    intro p hpc
    rw [Ptr.add_add]
    exact hs i hik _ (by omega)
  rw [writeStrip_full hik hvalid, advance_append, cell_advance hik]

/-- What the transfer of a segment of strip `i` puts where. -/
theorem stripWrite_puts (hkn : k + n ≤ 256) {i offset size : Nat} (hi : i < k + n) (hin : offset + size ≤ strip_offset)
    (v : Vector Ptr (k + n)) {dev : Device} {x : Nat} {b : UInt8} :
    (stripWrite k i offset (bytesAt mem ((cell v i).add offset) size)).region.Puts dev x b ↔
      ∃ p, p < size ∧ (place k i).1 = dev ∧ position k i (offset + p) = x ∧ stripByte mem v i (offset + p) = b := by
  have hbytes : ∀ p, (bytesAt mem ((cell v i).add offset) size)[p]? =
      if p < size then some (stripByte mem v i (offset + p)) else none := fun p => by
    unfold bytesAt
    split
    · rename_i hp
      simp [hp, stripByte]
    · rename_i hp
      simp [Nat.not_lt.1 hp]
  unfold Region.Puts Pwrite.region stripWrite
  dsimp only
  rw [position_eq hkn hi (by omega)]
  constructor
  · rintro ⟨hdev, hle, hb⟩
    rw [hbytes] at hb
    split at hb
    · rename_i hp
      refine ⟨x - position k i offset, hp, hdev, ?_, Option.some.inj hb⟩
      unfold position at hle ⊢
      omega
    · cases hb
  · rintro ⟨p, hp, hdev, rfl, rfl⟩
    have hpos : position k i (offset + p) = position k i offset + p := (Nat.add_assoc _ _ _).symm
    refine ⟨hdev, by omega, ?_⟩
    rw [hpos, Nat.add_sub_cancel_left, hbytes, if_pos hp]

/-- Byte `q` of strip `i` is at its position, whatever the order of the writes. -/
theorem disk_byte (hkn : k + n ≤ 256) (hlen : len ≤ strip_offset) (hp : Partition puts len)
    (horder : ∀ c ∈ puts, c.order.Perm (List.range (k + n))) (disk : Disk) {i q : Nat} (hi : i < k + n)
    (hq : q < len) :
    onDisk disk (transfers in_ out mem puts) (place k i).1 (position k i q) = stripByte mem (in_ ++ out) i q := by
  have hmem : ∀ w, w ∈ (transfers in_ out mem puts).map Pwrite.region ↔ ∃ c ∈ puts, ∃ i', i' < k + n ∧
      w = (stripWrite k i' c.offset (bytesAt mem ((cell (in_ ++ out) i').add c.offset) c.size)).region := by
    intro w
    simp only [transfers, List.mem_map, List.mem_flatMap, List.mem_singleton]
    constructor
    · rintro ⟨_, ⟨c, hc, i', hi', rfl⟩, rfl⟩
      exact ⟨c, hc, i', List.mem_range.1 ((horder c hc).mem_iff.1 hi'), rfl⟩
    · rintro ⟨c, hc, i', hi', rfl⟩
      exact ⟨_, ⟨c, hc, i', (horder c hc).mem_iff.2 (List.mem_range.2 hi'), rfl⟩, rfl⟩
  have hin : ∀ c ∈ puts, c.offset + c.size ≤ strip_offset := fun c hc => Nat.le_trans (hp.inside c hc) hlen
  refine writes_read ?_ fun w hw b' hb' => ?_
  · obtain ⟨c, hc, h1, h2⟩ := hp.covers q hq
    refine ⟨_, (hmem _).2 ⟨c, hc, i, hi, rfl⟩, _, (stripWrite_puts hkn hi (hin c hc) (in_ ++ out)).2
      ⟨q - c.offset, by omega, rfl, ?_, rfl⟩⟩
    rw [Nat.add_sub_cancel' h1]
  · obtain ⟨c, hc, i', hi', rfl⟩ := (hmem w).1 hw
    have hc' := hin c hc
    obtain ⟨p, hpc, hdev, hpos, rfl⟩ := (stripWrite_puts hkn hi' hc' (in_ ++ out)).1 hb'
    obtain ⟨rfl, rfl⟩ := position_inj (by omega) (by omega) hdev hpos
    rfl

end

/-! ## The round trip -/

/-- Its rounds in order, the run of the theorem is the call of the source. -/
theorem readStrips_range (matrix : Vector Ptr (k + n)) (size offset : Nat) (disk : Disk) (mem : Mem) :
    parallelReadSsd (fun _ => .moved size) matrix size offset disk mem =
      (run (readStrip (.moved size) matrix size offset disk) (List.range (k + n)) mem).map fun m => (m, true) := by
  rw [run_range, parallelReadSsd, Option.map_eq_bind]
  rfl

/-- **The placement round trip.** The segments written in any order, their
transfers in any order, any range of any strip reads back as it was. -/
theorem placement_round_trip {in_ : Vector Ptr k} {out : Vector Ptr n} {mem : Mem} {len : Nat} {puts : List Put}
    (hkn : k + n ≤ 256) (hlen : len ≤ strip_offset) (hs : ∀ i, i < k + n → Valid mem (cell (in_ ++ out) i) len)
    (hp : Partition puts len) (horder : ∀ c ∈ puts, c.order.Perm (List.range (k + n))) :
    Returns (run (putSegment in_ out mem) puts []) fun log =>
      ∀ (disk : Disk) (mem' : Mem) (matrix : Vector Ptr (k + n)) (size offset : Nat) (order : List Nat),
        offset + size ≤ len → Strips mem' matrix size → order.Perm (List.range (k + n)) →
          Returns (run (readStrip (.moved size) matrix size offset (onDisk disk log)) order mem') fun mem'' =>
            Rewritten mem' mem'' matrix (fun _ => True) size fun i p => stripByte mem (in_ ++ out) i (offset + p) := by
  rw [putSegments_spec hs hp horder, List.nil_append]
  refine returns_some fun disk mem' matrix size offset order hrange hm hperm => ?_
  obtain ⟨T, hT⟩ := hm.exists_values fun i p => stripByte mem (in_ ++ out) i (offset + p)
  have hlt : ∀ i ∈ order, i < k + n := fun i hi => List.mem_range.1 (hperm.mem_iff.1 hi)
  refine (run_written (W := fun i q => ∃ p, p < size ∧ q = (cell matrix i).add p) (T := T)
    fun i hi t D ht => ?_).mono fun mem'' h => ⟨h.size, fun r hr _ p hp => ?_, fun q hq => h.frame q ?_⟩
  · have hik := hlt i hi
    have hmoved : (Outcome.moved size).transferred size = size := Nat.min_self size
    refine (readStrip_written (o := .moved size) (T := T) hik (fun p hpx => ht.isSome (hm.valid i hik p hpx))
      fun p hpx => ?_).mono fun t' h => h.congr fun q => by rw [hmoved]
    rw [hmoved] at hpx
    have hpos : position k i offset + p = position k i (offset + p) := Nat.add_assoc _ _ _
    rw [hT i hik p hpx, position_eq hkn hik (by omega), hpos, disk_byte hkn hlen hp horder disk hik (by omega)]
  · rw [h.set _ ⟨r, hperm.mem_iff.2 (List.mem_range.2 hr), p, hp, rfl⟩, hT r hr p hp]
  · rintro ⟨i, hi, p, hp, rfl⟩
    exact hq ⟨i, hlt i hi, trivial, p, Nat.zero_le p, hp, rfl⟩

/-- Three bytes of three strips, the last segment written first. -/
theorem placement_round_trip_three :
    Returns (run (putSegment (ownBuffers 0 2) (ownBuffers 2 1) #[#[1, 2, 3], #[4, 5, 6], #[7, 8, 9]])
      [⟨2, 1, [2, 0, 1]⟩, ⟨0, 2, [1, 2, 0]⟩] []) fun log =>
      Returns (run (@readStrip 2 1 (.moved 2) (ownBuffers 0 3) 2 1 (onDisk (fun _ _ => 0) log)) [1, 0, 2]
        #[#[0, 0], #[0, 0], #[0, 0]]) fun mem'' =>
        Rewritten #[#[0, 0], #[0, 0], #[0, 0]] mem'' (ownBuffers 0 3) (fun _ => True) 2 fun i p =>
          stripByte #[#[1, 2, 3], #[4, 5, 6], #[7, 8, 9]] (ownBuffers 0 2 ++ ownBuffers 2 1) i (1 + p) := by
  refine (@placement_round_trip 2 1 (ownBuffers 0 2) (ownBuffers 2 1) #[#[1, 2, 3], #[4, 5, 6], #[7, 8, 9]] 3
    [⟨2, 1, [2, 0, 1]⟩, ⟨0, 2, [1, 2, 0]⟩] (by decide) (by decide) (by decide)
    ⟨by decide, by decide, by decide⟩ (by decide)).mono fun log h => ?_
  exact h (fun _ _ => 0) #[#[0, 0], #[0, 0], #[0, 0]] (ownBuffers 0 3) 2 1 [1, 0, 2] (by decide) (by decide)
    (by decide)

end ErasureCode.Ssd
