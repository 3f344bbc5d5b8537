import ErasureCode.Core.CInt
import ErasureCode.Core.Run
import ErasureCode.IsaEC.Blocks

/-!
# Transfers to and from the SSDs

`write_ssd`, `parallel_write_ssd`, `read_ssd` and `parallel_read_ssd`
(`src/IsaEC.cpp:233-347`). What has been put on the devices is the list of the
`pwrite`s that moved something (`Pwrite`); what the system does with a request
is its `Outcome`. A read finds the devices as a `Disk`.

`parallelWriteSsd_eq`: one call adds to the log what its requests have moved;
when that is all their bytes, each strip is at its place (`place`), byte for byte
(`parallelWriteSsd_spec`). `readStrip_eq`: a read takes it from there.
-/
namespace ErasureCode.Ssd

open ErasureCode.Core IsaEC

/-- The three devices.
mirrors src/IsaEC.cpp:266-268 -/
inductive Device where
  | ssd1 | ssd2 | ssd3
  deriving DecidableEq, Repr

/-- A `pwrite` that has moved `bytes`. -/
structure Pwrite where
  ssd : Device
  offset : Nat
  bytes : List UInt8
  deriving DecidableEq, Repr

/-- `open` fails, `pwrite` fails, or `pwrite` moves so many bytes. -/
inductive Outcome where
  | noOpen | failed | moved (count : Nat)
  deriving DecidableEq, Repr

/-- Reading `len` bytes from `p` on. -/
def loadBytes (mem : Mem) (p : Ptr) (len : Nat) : Option (List UInt8) :=
  (List.range len).mapM fun x => load mem (p.add x)

/-- The transfers so far, and the value returned.
mirrors src/IsaEC.cpp:233-253 -/
def writeSsd (o : Outcome) (data : Ptr) (size offset : Nat) (ssd_name : Device) (mem : Mem) (log : List Pwrite) :
    Option (List Pwrite × Bool) :=
  match o with
  | .noOpen => some (log, false)
  | .failed => some (log, false)
  | .moved count => do
    let bytes ← loadBytes mem data (min count size)
    return (log ++ [⟨ssd_name, offset, bytes⟩], true)

/-- 10 GiB.
mirrors src/IsaEC.cpp:270 -/
def strip_offset : Nat := 1024 * 1024 * 1024 * 10

variable {k n : Nat}

/-- One round: strip `i` goes to its device.
mirrors src/IsaEC.cpp:272-289 -/
def writeStrip (o : Outcome) (in_ : Vector Ptr k) (out : Vector Ptr n) (size offset : Nat) (mem : Mem) (i : Nat)
    (log : List Pwrite) : Option (List Pwrite) := do
  if i < k / 2 then
    return (← writeSsd o (← in_[i]?) size (addSize (mulSize i strip_offset) offset) .ssd1 mem log).1
  else if i < k then
    return (← writeSsd o (← in_[i]?) size (addSize (mulSize (i - k / 2) strip_offset) offset) .ssd2 mem log).1
  else
    return (← writeSsd o (← out[i - k]?) size (addSize (mulSize (i - k) strip_offset) offset) .ssd3 mem log).1

/-- `o i` is the outcome for strip `i`. The rounds are in order: each only adds
its own transfer. Their number `k + n` is an int sum, which a call keeps below
2^31.
mirrors src/IsaEC.cpp:264-292 -/
def parallelWriteSsd (o : Nat → Outcome) (in_ : Vector Ptr k) (out : Vector Ptr n) (size offset : Nat) (mem : Mem)
    (log : List Pwrite) : Option (List Pwrite × Bool) := do
  let log ← forUp 0 (k + n) log fun i log => writeStrip (o i) in_ out size offset mem i log
  return (log, true)

/-- The bytes on the devices, each of which has no end. -/
abbrev Disk := Device → Nat → UInt8

/-- The memory, and the value returned.
mirrors src/IsaEC.cpp:297-316 -/
def readSsd (o : Outcome) (data : Ptr) (size offset : Nat) (ssd_name : Device) (disk : Disk) (mem : Mem) :
    Option (Mem × Bool) :=
  match o with
  | .noOpen => some (mem, false)
  | .failed => some (mem, false)
  | .moved count => do
    let mem ← forUp 0 (min count size) mem fun p mem => store mem (data.add p) (disk ssd_name (offset + p))
    return (mem, true)

/-- One round: strip `i` comes from its device.
mirrors src/IsaEC.cpp:327-343 -/
def readStrip (o : Outcome) (matrix : Vector Ptr (k + n)) (size offset : Nat) (disk : Disk) (i : Nat) (mem : Mem) :
    Option Mem := do
  if i < k / 2 then
    return (← readSsd o (← matrix[i]?) size (addSize (mulSize i strip_offset) offset) .ssd1 disk mem).1
  else if i < k then
    return (← readSsd o (← matrix[i]?) size (addSize (mulSize (i - k / 2) strip_offset) offset) .ssd2 disk mem).1
  else
    return (← readSsd o (← matrix[i]?) size (addSize (mulSize (i - k) strip_offset) offset) .ssd3 disk mem).1

/-- The rounds in order, `k + n` of them as above.
mirrors src/IsaEC.cpp:319-347 -/
def parallelReadSsd (o : Nat → Outcome) (matrix : Vector Ptr (k + n)) (size offset : Nat) (disk : Disk) (mem : Mem) :
    Option (Mem × Bool) := do
  let mem ← forUp 0 (k + n) mem fun i mem => readStrip (o i) matrix size offset disk i mem
  return (mem, true)

/-- The device strip `i` goes to, and its number there. -/
def place (k i : Nat) : Device × Nat :=
  if i < k / 2 then (.ssd1, i) else if i < k then (.ssd2, i - k / 2) else (.ssd3, i - k)

/-- Strip `i` of the segment at `offset`, on its device. -/
def stripWrite (k i offset : Nat) (bytes : List UInt8) : Pwrite :=
  ⟨(place k i).1, addSize (mulSize (place k i).2 strip_offset) offset, bytes⟩

/-! ## Segments of strips -/

/-- `in[i] + offset` for each strip. -/
def advance {c : Nat} (v : Vector Ptr c) (offset : Nat) : Vector Ptr c := v.map fun p => p.add offset

section
variable {c : Nat} {v : Vector Ptr c} {mem : Mem} {len off L : Nat}

theorem cell_advance {i : Nat} (hi : i < c) : cell (advance v off) i = (cell v i).add off := by
  rw [cell_eq_getElem _ hi, cell_eq_getElem _ hi, advance, Vector.getElem_map]

theorem advance_append {in_ : Vector Ptr k} {out : Vector Ptr n} :
    advance in_ off ++ advance out off = advance (in_ ++ out) off := by
  simp [advance]

theorem advance_strips (h : Strips mem v len) (hL : off + L ≤ len) : Strips mem (advance v off) L := by
  refine ⟨fun r hr p hp => ?_, fun r hr r' hr' hne p hp p' hp' => ?_⟩
  · rw [cell_advance hr, Ptr.add_add]
    exact h.valid r hr _ (by omega)
  · rw [cell_advance hr, cell_advance hr', Ptr.add_add, Ptr.add_add]
    exact h.disj r hr r' hr' hne _ (by omega) _ (by omega)

theorem stripByte_advance {r p : Nat} (hr : r < c) : stripByte mem (advance v off) r p = stripByte mem v r (off + p) := by
  rw [stripByte, cell_advance hr, Ptr.add_add, stripByte]

end

/-! ## One request -/

theorem loadBytes_eq {mem : Mem} {p : Ptr} {len : Nat} (h : Valid mem p len) :
    loadBytes mem p len = some (bytesAt mem p len) := by
  unfold loadBytes bytesAt
  induction len with
  | zero => rfl
  | succ len ih =>
    rw [List.range_succ, List.mapM_append, ih fun i hi => h i (by omega), List.map_append]
    simp [load_eq (h len (Nat.lt_succ_self len))]

/-- The bytes a request for `size` bytes moves. -/
def Outcome.transferred (o : Outcome) (size : Nat) : Nat :=
  match o with
  | .noOpen => 0
  | .failed => 0
  | .moved count => min count size

/-- What a write of strip `i` adds to the log. -/
def Outcome.sent (o : Outcome) (k i : Nat) (data : Ptr) (size offset : Nat) (mem : Mem) : List Pwrite :=
  match o with
  | .noOpen => []
  | .failed => []
  | .moved count => [stripWrite k i offset (bytesAt mem data (min count size))]

theorem writeSsd_eq {mem : Mem} {data : Ptr} {size : Nat} (h : Valid mem data size) (o : Outcome) (k i offset : Nat)
    (log : List Pwrite) :
    (writeSsd o data size (addSize (mulSize (place k i).2 strip_offset) offset) (place k i).1 mem log).map Prod.fst =
      some (log ++ o.sent k i data size offset mem) := by
  cases o with
  | noOpen => simp [writeSsd, Outcome.sent]
  | failed => simp [writeSsd, Outcome.sent]
  | moved count =>
    rw [writeSsd, loadBytes_eq fun x hx => h x (Nat.lt_of_lt_of_le hx (Nat.min_le_right _ _))]
    rfl

/-- A round puts strip `i` at its place. -/
theorem writeStrip_eq {in_ : Vector Ptr k} {out : Vector Ptr n} {size i : Nat} {mem : Mem} (hi : i < k + n)
    (h : Valid mem (cell (in_ ++ out) i) size) (o : Outcome) (offset : Nat) (log : List Pwrite) :
    writeStrip o in_ out size offset mem i log =
      some (log ++ o.sent k i (cell (in_ ++ out) i) size offset mem) := by
  rw [← writeSsd_eq h o k i offset log]
  rw [cell_append in_ out hi]
  unfold writeStrip place
  by_cases hik : i < k
  · rw [if_pos hik, rd_eq in_ hik]
    simp only [if_pos hik, Option.bind_eq_bind, Option.bind_some, Option.map_eq_bind]
    split <;> rfl
  · have hhalf : ¬ i < k / 2 := by omega
    rw [if_neg hik, if_neg hhalf, if_neg hik, rd_eq out (show i - k < n by omega)]
    simp only [if_neg hhalf, if_neg hik, Option.bind_eq_bind, Option.bind_some, Option.map_eq_bind]
    rfl

/-- A call returns true, and has added what its requests have moved. -/
theorem parallelWriteSsd_eq {in_ : Vector Ptr k} {out : Vector Ptr n} {size : Nat} {mem : Mem}
    (h : ∀ i, i < k + n → Valid mem (cell (in_ ++ out) i) size) (o : Nat → Outcome) (offset : Nat)
    (log : List Pwrite) :
    parallelWriteSsd o in_ out size offset mem log =
      some (log ++ (List.range (k + n)).flatMap fun i => (o i).sent k i (cell (in_ ++ out) i) size offset mem, true) := by
  rw [parallelWriteSsd, ← run_range, run_log fun i hi log =>
    writeStrip_eq (List.mem_range.1 hi) (h i (List.mem_range.1 hi)) (o i) offset log]
  rfl

theorem readSsd_eq (o : Outcome) (data : Ptr) (size offset : Nat) (ssd_name : Device) (disk : Disk) (mem : Mem) :
    (readSsd o data size offset ssd_name disk mem).map Prod.fst =
      forUp 0 (o.transferred size) mem fun p mem => store mem (data.add p) (disk ssd_name (offset + p)) := by
  cases o with
  | noOpen => rw [Outcome.transferred, forUp_of_le (Nat.le_refl 0), readSsd, Option.map_some]
  | failed => rw [Outcome.transferred, forUp_of_le (Nat.le_refl 0), readSsd, Option.map_some]
  | moved count =>
    rw [Outcome.transferred, readSsd]
    cases forUp 0 (min count size) mem fun p mem => store mem (data.add p) (disk ssd_name (offset + p)) with
    | none => rfl
    | some m => rfl

/-- Where strip `i` is read from is where it is put. -/
theorem readStrip_eq (o : Outcome) (matrix : Vector Ptr (k + n)) (size offset : Nat) (disk : Disk) {i : Nat}
    (hi : i < k + n) (mem : Mem) :
    readStrip o matrix size offset disk i mem =
      forUp 0 (o.transferred size) mem fun p mem => store mem ((cell matrix i).add p)
        (disk (place k i).1 (addSize (mulSize (place k i).2 strip_offset) offset + p)) := by
  rw [← readSsd_eq]
  unfold readStrip place
  rw [rd_eq matrix hi]
  simp only [Option.bind_eq_bind, Option.bind_some, Option.map_eq_bind]
  split
  · rfl
  · split <;> rfl

theorem transferred_le (o : Outcome) (size : Nat) : o.transferred size ≤ size := by
  cases o with
  | noOpen => exact Nat.zero_le _
  | failed => exact Nat.zero_le _
  | moved count => exact Nat.min_le_right _ _

/-- A read sets the bytes it moves. -/
theorem readStrip_written {o : Outcome} {matrix : Vector Ptr (k + n)} {size offset i : Nat} {disk : Disk} {mem : Mem}
    {T : Ptr → UInt8} (hi : i < k + n) (hv : Valid mem (cell matrix i) size)
    (hT : ∀ p, p < o.transferred size → T ((cell matrix i).add p) =
      disk (place k i).1 (addSize (mulSize (place k i).2 strip_offset) offset + p)) :
    Returns (readStrip o matrix size offset disk i mem) fun mem' =>
      Written mem mem' (fun q => ∃ p, p < o.transferred size ∧ q = (cell matrix i).add p) T := by
  rw [readStrip_eq o matrix size offset disk hi]
  refine (forUp_written (W := fun p q => q = (cell matrix i).add p) (T := T) (Nat.zero_le _) fun p u _ hp hu => ?_).mono
    fun mem' h => h.congr fun q => by simp
  refine (store_spec (hu.isSome (hv p (Nat.lt_of_lt_of_le hp (transferred_le o size)))) _).mono
    fun u' ⟨hsize, hload⟩ => ⟨hsize, fun q hq => ?_, fun q hq => ?_⟩
  · rw [hload, if_pos hq, hq, hT p hp]
  · rw [hload, if_neg hq]

/-! ## Requests that move all their bytes -/

theorem writeStrip_full {in_ : Vector Ptr k} {out : Vector Ptr n} {size i : Nat} {mem : Mem} (hi : i < k + n)
    (h : Valid mem (cell (in_ ++ out) i) size) (offset : Nat) (log : List Pwrite) :
    writeStrip (.moved size) in_ out size offset mem i log =
      some (log ++ [stripWrite k i offset (bytesAt mem (cell (in_ ++ out) i) size)]) := by
  rw [writeStrip_eq hi h, Outcome.sent, Nat.min_self]

theorem parallelWriteSsd_spec {in_ : Vector Ptr k} {out : Vector Ptr n} {size : Nat} {mem : Mem}
    (h : ∀ i, i < k + n → Valid mem (cell (in_ ++ out) i) size) (offset : Nat) (log : List Pwrite) :
    parallelWriteSsd (fun _ => .moved size) in_ out size offset mem log =
      some (log ++ (List.range (k + n)).map fun i =>
        stripWrite k i offset (bytesAt mem (cell (in_ ++ out) i) size), true) := by
  rw [parallelWriteSsd_eq h, List.map_eq_flatMap]
  simp only [Outcome.sent, Nat.min_self]

end ErasureCode.Ssd
