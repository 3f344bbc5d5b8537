import ErasureCode.Core.Refinement
import ErasureCode.Ssd.Reports

/-!
# The devices as a store of strips

What the three devices are for is simple: they keep `k + n` strips of 10 GiB
(`Store`). A transfer of `parallel_write_ssd` sets, in one strip, the bytes its
request moves (`Store.put`); a read finds what was put there last.

`put_refines`: the devices do that, one transfer after the other. The transfers of
a call may be taken in any order, those of several calls may be mixed, segments
may overlap, and any request may fail or stop short, so a list of transfers is
what any calls, by any threads, come to. `devices_refine_store` puts this together
with `parallel_read_ssd`, and `calls_refine_store` says it of calls one after
another, each of which is its transfers (`parallelWriteSsd_puts`).
-/
namespace ErasureCode.Ssd

open ErasureCode.Core IsaEC

variable {k n : Nat}

/-! ## The store -/

/-- Byte `q` of strip `i`. -/
abbrev Store := Nat → Nat → UInt8

/-- One round of `parallel_write_ssd`: strip `i` of its arguments, the memory it
finds, and what the system does with the request. -/
structure Transfer (k n : Nat) where
  outcome : Outcome
  in_ : Vector Ptr k
  out : Vector Ptr n
  size : Nat
  offset : Nat
  mem : Mem
  i : Nat

/-- The round, on the log of the devices. -/
def Transfer.send (c : Transfer k n) (log : List Pwrite) : Option (List Pwrite) :=
  writeStrip c.outcome c.in_ c.out c.size c.offset c.mem c.i log

/-- The strip exists, its bytes can be read, and the segment ends in its slot. -/
structure Transfer.InSlot (c : Transfer k n) : Prop where
  strip : c.i < k + n
  valid : Valid c.mem (cell (c.in_ ++ c.out) c.i) c.size
  slot : c.offset + c.size ≤ strip_offset

/-- The bytes the request moves, and no others. -/
def Store.put (c : Transfer k n) (t : Store) : Store := fun i q =>
  if i = c.i ∧ c.offset ≤ q ∧ q < c.offset + c.outcome.transferred c.size then
    stripByte c.mem (c.in_ ++ c.out) i (q - c.offset)
  else t i q

/-- The store, as a specification of the transfers. -/
def Store.spec (k n : Nat) : Spec (Transfer k n) Store := ⟨fun c _ => c.InSlot, Store.put⟩

/-- The strips that the devices hold, each at its place. -/
def Store.of (k : Nat) (disk : Disk) : Store := fun i q => disk (place k i).1 (position k i q)

/-- The devices hold the strips of the store. -/
def Keeps (k n : Nat) (disk : Disk) (t : Store) : Prop :=
  ∀ i, i < k + n → ∀ q, q < strip_offset → Store.of k disk i q = t i q

/-! ## The devices refine it -/

theorem onDisk_append (disk : Disk) (log log' : List Pwrite) :
    onDisk disk (log ++ log') = onDisk (onDisk disk log) log' := by
  rw [onDisk, List.map_append, List.foldl_append]
  rfl

/-- What a write at the place of strip `i` puts where. -/
theorem stripWrite_puts_iff (hkn : k + n ≤ 256) {i offset : Nat} (hi : i < k + n) (hoff : offset ≤ strip_offset)
    {bytes : List UInt8} {dev : Device} {x : Nat} {b : UInt8} :
    (stripWrite k i offset bytes).region.Puts dev x b ↔
      ∃ p, (place k i).1 = dev ∧ position k i (offset + p) = x ∧ bytes[p]? = some b := by
  have hpos : ∀ p, position k i (offset + p) = position k i offset + p := fun p => (Nat.add_assoc _ _ _).symm
  unfold Region.Puts Pwrite.region stripWrite
  dsimp only
  rw [position_eq hkn hi hoff]
  constructor
  · rintro ⟨hdev, hle, hb⟩
    exact ⟨x - position k i offset, hdev, by rw [hpos, Nat.add_sub_cancel' hle], hb⟩
  · rintro ⟨p, hdev, rfl, hb⟩
    rw [hpos, Nat.add_sub_cancel_left]
    exact ⟨hdev, Nat.le_add_right _ _, hb⟩

theorem bytesAt_getElem? (mem : Mem) (data : Ptr) (len p : Nat) :
    (bytesAt mem data len)[p]? = if p < len then some (byteAt mem (data.add p)) else none := by
  unfold bytesAt
  split
  · rename_i hp
    simp [hp]
  · rename_i hp
    simp [Nat.not_lt.1 hp]

/-- A transfer, seen from byte `q` of strip `i`: it is put by a transfer of that
strip that moves it, and by no other. -/
theorem send_puts (hkn : k + n ≤ 256) {c : Transfer k n} (hc : c.InSlot) {i q : Nat} (hq : q < strip_offset) {b : UInt8} :
    (∃ w ∈ (c.outcome.sent k c.i (cell (c.in_ ++ c.out) c.i) c.size c.offset c.mem).map Pwrite.region,
      w.Puts (place k i).1 (position k i q) b) ↔
      (i = c.i ∧ c.offset ≤ q ∧ q < c.offset + c.outcome.transferred c.size) ∧
        b = stripByte c.mem (c.in_ ++ c.out) i (q - c.offset) := by
  have hslot := hc.slot
  have hmoved : c.outcome.transferred c.size ≤ c.size := transferred_le _ _
  rcases sent_cases c.outcome k c.i (cell (c.in_ ++ c.out) c.i) c.size c.offset c.mem with ⟨e, hz⟩ | e
  · rw [e, hz]
    simp only [List.map_nil, List.not_mem_nil, false_and, exists_false, false_iff, Nat.add_zero]
    rintro ⟨⟨-, h1, h2⟩, -⟩
    omega
  · rw [e]
    simp only [List.map_cons, List.map_nil, List.mem_singleton, exists_eq_left]
    rw [stripWrite_puts_iff hkn hc.strip (by omega)]
    constructor
    · rintro ⟨p, hdev, hpos, hb⟩
      rw [bytesAt_getElem?] at hb
      split at hb
      · rename_i hp
        obtain ⟨rfl, rfl⟩ := position_inj (by omega) hq hdev hpos
        rw [Nat.add_sub_cancel_left]
        exact ⟨⟨rfl, Nat.le_add_right _ _, by omega⟩, (Option.some.inj hb).symm⟩
      · cases hb
    · rintro ⟨⟨rfl, h1, h2⟩, rfl⟩
      refine ⟨q - c.offset, rfl, by rw [Nat.add_sub_cancel' h1], ?_⟩
      rw [bytesAt_getElem?, if_pos (by omega)]
      rfl

/-- **One transfer.** -/
theorem put_refines (hkn : k + n ≤ 256) (disk : Disk) :
    Refines Transfer.send (Store.spec k n) fun log t => Keeps k n (onDisk disk log) t := by
  intro c log t hlog hc
  have hin : c.InSlot := hc
  rw [Transfer.send, writeStrip_eq hin.strip hin.valid]
  refine returns_some fun i hi q hq => ?_
  rw [onDisk_append, Store.of, onDisk]
  change _ = Store.put c t i q
  unfold Store.put
  split
  · rename_i hcov
    obtain ⟨w, hw, hputs⟩ := (send_puts hkn hin hq).2 ⟨hcov, rfl⟩
    refine writes_read ⟨w, hw, _, hputs⟩ fun w' hw' b' hb' => ?_
    exact ((send_puts hkn hin hq).1 ⟨w', hw', hb'⟩).2
  · rename_i hcov
    rw [writes_frame fun w hw b hb => hcov ((send_puts hkn hin hq).1 ⟨w, hw, hb⟩).1]
    exact hlog i hi q hq

theorem spec_allows {w : List (Transfer k n)} {t : Store} : (Store.spec k n).Allows w t ↔ ∀ c ∈ w, c.InSlot := by
  induction w generalizing t with
  | nil => simp [Spec.Allows]
  | cons c w ih => rw [Spec.Allows, ih, List.forall_mem_cons, Store.spec]

/-- **The devices are a store of strips.** After any transfers, each inside its
slot, a read of any range of the strips gives, as far as its requests go, the
bytes of the store after these transfers, and leaves the rest as it was. -/
theorem devices_refine_store (hkn : k + n ≤ 256) (disk : Disk) {w : List (Transfer k n)} (hw : ∀ c ∈ w, c.InSlot) :
    Returns (run Transfer.send w []) fun log =>
      ∀ (o : Nat → Outcome) (matrix : Vector Ptr (k + n)) (size offset : Nat) (mem : Mem),
        offset + size ≤ strip_offset → Strips mem matrix size →
        Returns (parallelReadSsd o matrix size offset (onDisk disk log) mem) fun r => r.2 = true ∧
          ∀ i, i < k + n → ∀ p, p < size → load r.1 ((cell matrix i).add p) = some
            (if p < (o i).transferred size then (Store.spec k n).after w (Store.of k disk) i (offset + p)
            else stripByte mem matrix i p) := by
  refine ((put_refines hkn disk).run (t := Store.of k disk) (fun _ _ _ _ => rfl) (spec_allows.2 hw)).mono fun log hlog => ?_
  intro o matrix size offset mem hin hm
  refine (parallelReadSsd_spec hm _).mono fun r ⟨ht, hr⟩ => ⟨ht, fun i hi p hp => ?_⟩
  rw [hr i hi p hp]
  split
  · rw [← hlog i hi _ (by omega), position_eq hkn hi (by omega), Store.of, position, position, Nat.add_assoc]
  · rfl

/-- Two bytes of the parity strip, the second written over by a transfer that stops
there; a read that starts at the second. -/
theorem devices_refine_store_two :
    Returns (run Transfer.send
      [⟨.moved 2, ownBuffers 0 1, ownBuffers 1 1, 2, 0, #[#[5, 6], #[7, 8]], 1⟩,
        ⟨.moved 1, ownBuffers 0 1, ownBuffers 1 1, 2, 1, #[#[1, 2], #[3, 4]], 1⟩] []) fun log =>
      Returns (@parallelReadSsd 1 1 (fun _ => .moved 2) (ownBuffers 0 2) 2 1 (onDisk (fun _ _ => 0) log)
        #[#[0, 0], #[0, 0]]) fun r => r.2 = true ∧
          ∀ i, i < 1 + 1 → ∀ p, p < 2 → load r.1 ((cell (ownBuffers 0 2) i).add p) = some
            (if p < (Outcome.moved 2).transferred 2 then (Store.spec 1 1).after
              [⟨.moved 2, ownBuffers 0 1, ownBuffers 1 1, 2, 0, #[#[5, 6], #[7, 8]], 1⟩,
                ⟨.moved 1, ownBuffers 0 1, ownBuffers 1 1, 2, 1, #[#[1, 2], #[3, 4]], 1⟩]
              (Store.of 1 fun _ _ => 0) i (1 + p)
            else stripByte #[#[0, 0], #[0, 0]] (ownBuffers 0 2) i p) := by
  refine (devices_refine_store (by decide) (fun _ _ => 0) (List.forall_mem_cons.2 ⟨⟨by decide, by decide, by decide⟩,
    List.forall_mem_cons.2 ⟨⟨by decide, by decide, by decide⟩, List.forall_mem_nil _⟩⟩)).mono fun log h => ?_
  exact h (fun _ => .moved 2) (ownBuffers 0 2) 2 1 #[#[0, 0], #[0, 0]] (by decide) (by decide)

/-! ## Calls -/

/-- A call of `parallel_write_ssd`: its arguments, the memory it finds, and what the
system does with each request. -/
structure WriteCall (k n : Nat) where
  outcome : Nat → Outcome
  in_ : Vector Ptr k
  out : Vector Ptr n
  size : Nat
  offset : Nat
  mem : Mem

/-- The call, on the log of the devices. -/
def WriteCall.write (c : WriteCall k n) (log : List Pwrite) : Option (List Pwrite) :=
  (parallelWriteSsd c.outcome c.in_ c.out c.size c.offset c.mem log).map Prod.fst

/-- Its rounds. -/
def WriteCall.transfers (c : WriteCall k n) : List (Transfer k n) :=
  (List.range (k + n)).map fun i => ⟨c.outcome i, c.in_, c.out, c.size, c.offset, c.mem, i⟩

/-- The strips can be read, and the segment ends in the slots. -/
structure WriteCall.InSlots (c : WriteCall k n) : Prop where
  valid : ∀ i, i < k + n → Valid c.mem (cell (c.in_ ++ c.out) i) c.size
  slot : c.offset + c.size ≤ strip_offset

theorem parallelWriteSsd_puts (c : WriteCall k n) : c.write = run Transfer.send c.transfers := by
  funext log
  rw [WriteCall.write, WriteCall.transfers, run_map, run_range, parallelWriteSsd, Option.map_eq_bind, Option.bind_eq_bind,
    Option.bind_assoc]
  exact Option.bind_fun_some _

theorem WriteCall.InSlots.transfers {c : WriteCall k n} (h : c.InSlots) : ∀ x ∈ c.transfers, x.InSlot := by
  intro x hx
  obtain ⟨i, hi, rfl⟩ := List.mem_map.1 hx
  have hi' := List.mem_range.1 hi
  exact ⟨hi', h.valid i hi', h.slot⟩

/-- Calls, each inside the slots, leave the devices with the strips of the store after
all their transfers. -/
theorem calls_refine_store (hkn : k + n ≤ 256) (disk : Disk) {calls : List (WriteCall k n)} (h : ∀ c ∈ calls, c.InSlots) :
    Returns (run WriteCall.write calls []) fun log =>
      Keeps k n (onDisk disk log) ((Store.spec k n).after (calls.flatMap WriteCall.transfers) (Store.of k disk)) := by
  have hflat : run WriteCall.write calls [] = run Transfer.send (calls.flatMap WriteCall.transfers) [] := by
    rw [run_flatMap]
    exact run_congr fun c _ log => by rw [parallelWriteSsd_puts]
  rw [hflat]
  refine (put_refines hkn disk).run (fun _ _ _ _ => rfl) (spec_allows.2 fun x hx => ?_)
  obtain ⟨c, hc, hx⟩ := List.mem_flatMap.1 hx
  exact (h c hc).transfers x hx

end ErasureCode.Ssd
