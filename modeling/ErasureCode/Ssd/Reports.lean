import ErasureCode.Ssd.Placement

/-!
# What a transfer reports

`write_ssd` and `read_ssd` return false when `open`, `pwrite` or `pread` fails,
and true for a transfer that stops short (`src/IsaEC.cpp:233-253,297-316`).
`parallel_write_ssd` and `parallel_read_ssd` do not look at what they return
(`src/IsaEC.cpp:272-291,327-346`): they return true, whatever happens
(`parallelWriteSsd_eq`, `parallelReadSsd_spec`).

`reports_failures_iff`: so a call returns true only with all bytes of all strips
transferred exactly when every request moves all its bytes.
-/
namespace ErasureCode.Ssd

open ErasureCode.Core IsaEC

variable {k n : Nat} {o : Nat → Outcome} {size offset : Nat}

/-- Each byte of each strip is in the bytes that the strip's transfer has put on
its device. -/
def WroteStrips (in_ : Vector Ptr k) (out : Vector Ptr n) (size offset : Nat) (mem : Mem) (log : List Pwrite) : Prop :=
  ∀ i, i < k + n → ∀ p, p < size → ∃ bytes, stripWrite k i offset bytes ∈ log ∧
    bytes[p]? = some (stripByte mem (in_ ++ out) i p)

/-- Each byte of each strip is the one on its device. -/
def ReadStrips (matrix : Vector Ptr (k + n)) (size offset : Nat) (disk : Disk) (mem : Mem) : Prop :=
  ∀ i, i < k + n → ∀ p, p < size → load mem ((cell matrix i).add p) =
    some (disk (place k i).1 (addSize (mulSize (place k i).2 strip_offset) offset + p))

/-- Every request moves all its bytes. -/
def AllTransferred (k n : Nat) (o : Nat → Outcome) (size : Nat) : Prop :=
  ∀ i, i < k + n → (o i).transferred size = size

/-- 10 GiB is 5 times 2^31: the positions of fewer than 2^31 slots differ, even
where they wrap. -/
theorem slot_inj {s s' : Nat} (hs : s < 2 ^ 31) (hs' : s' < 2 ^ 31)
    (h : addSize (mulSize s strip_offset) offset = addSize (mulSize s' strip_offset) offset) : s = s' := by
  unfold addSize mulSize at h
  rw [Nat.mod_add_mod, Nat.mod_add_mod] at h
  have hmul : s * strip_offset ≡ s' * strip_offset [MOD 2 ^ 64] := Nat.ModEq.add_right_cancel' offset h
  have hfive : s * 5 ≡ s' * 5 [MOD 2 ^ 33] := by
    refine Nat.ModEq.mul_right_cancel' (c := 2 ^ 31) (by decide) ?_
    rw [Nat.mul_assoc, Nat.mul_assoc, ← Nat.pow_add]
    exact hmul
  exact Nat.ModEq.eq_of_lt_of_lt (Nat.ModEq.cancel_right_of_coprime (by decide) hfive) (by omega) (by omega)

/-- No two strips start at one position of one device. -/
theorem stripWrite_inj (hkn : k + n < 2 ^ 31) {i i' : Nat} (hi : i < k + n) (hi' : i' < k + n)
    {bytes bytes' : List UInt8} (h : stripWrite k i offset bytes = stripWrite k i' offset bytes') :
    i = i' ∧ bytes = bytes' := by
  simp only [stripWrite, Pwrite.mk.injEq] at h
  obtain ⟨hdev, hoff, hbytes⟩ := h
  have hslot : ∀ i, i < k + n → (place k i).2 < 2 ^ 31 := fun i hi => by
    rcases place_cases k i with ⟨h1, e⟩ | ⟨-, h2, e⟩ | ⟨h1, e⟩ <;> rw [e] <;> dsimp only <;> omega
  exact ⟨place_inj (Prod.ext hdev (slot_inj (hslot i hi) (hslot i' hi') hoff)), hbytes⟩

/-- A request adds nothing and moves nothing, or adds what it moves. -/
theorem sent_cases (o : Outcome) (k i : Nat) (data : Ptr) (size offset : Nat) (mem : Mem) :
    (o.sent k i data size offset mem = [] ∧ o.transferred size = 0) ∨
      o.sent k i data size offset mem = [stripWrite k i offset (bytesAt mem data (o.transferred size))] := by
  cases o with
  | noOpen => exact .inl ⟨rfl, rfl⟩
  | failed => exact .inl ⟨rfl, rfl⟩
  | moved count => exact .inr rfl

/-- The strips have been written when their requests have moved all bytes. -/
theorem wroteStrips_iff (hkn : k + n < 2 ^ 31) (in_ : Vector Ptr k) (out : Vector Ptr n) (mem : Mem) :
    WroteStrips in_ out size offset mem
        ((List.range (k + n)).flatMap fun i => (o i).sent k i (cell (in_ ++ out) i) size offset mem) ↔
      AllTransferred k n o size := by
  constructor
  · intro h i hi
    by_contra hne
    have hlt : (o i).transferred size < size := Nat.lt_of_le_of_ne (transferred_le _ _) hne
    -- the first byte that has not been moved
    obtain ⟨bytes, hmem, hbyte⟩ := h i hi _ hlt
    obtain ⟨i', hi', hw⟩ := List.mem_flatMap.1 hmem
    rcases sent_cases (o i') k i' (cell (in_ ++ out) i') size offset mem with ⟨e, -⟩ | e <;> rw [e] at hw
    · exact absurd hw List.not_mem_nil
    · obtain ⟨rfl, rfl⟩ := stripWrite_inj hkn hi (List.mem_range.1 hi') (List.mem_singleton.1 hw)
      simp [bytesAt] at hbyte
  · intro h i hi p hp
    have hall := h i hi
    rcases sent_cases (o i) k i (cell (in_ ++ out) i) size offset mem with ⟨-, e⟩ | e
    · omega
    · rw [hall] at e
      refine ⟨bytesAt mem (cell (in_ ++ out) i) size, List.mem_flatMap.2 ⟨i, List.mem_range.2 hi, ?_⟩, ?_⟩
      · rw [e]
        exact List.mem_singleton_self _
      · simp [bytesAt, hp, stripByte]

/-- A call returns true, and has set the bytes its requests have moved. -/
theorem parallelReadSsd_spec {matrix : Vector Ptr (k + n)} {mem : Mem} (hm : Strips mem matrix size) (disk : Disk) :
    Returns (parallelReadSsd o matrix size offset disk mem) fun r => r.2 = true ∧
      ∀ i, i < k + n → ∀ p, p < size → load r.1 ((cell matrix i).add p) = some
        (if p < (o i).transferred size then
          disk (place k i).1 (addSize (mulSize (place k i).2 strip_offset) offset + p)
        else stripByte mem matrix i p) := by
  obtain ⟨T, hT⟩ := hm.exists_values fun i p =>
    disk (place k i).1 (addSize (mulSize (place k i).2 strip_offset) offset + p)
  unfold parallelReadSsd
  refine (forUp_written (W := fun i q => ∃ p, p < (o i).transferred size ∧ q = (cell matrix i).add p) (T := T)
    (Nat.zero_le _) fun i t _ hi ht => ?_).bind fun mem' hw => returns_some ⟨rfl, fun i hi p hp => ?_⟩
  · exact readStrip_written hi (fun p hp => ht.isSome (hm.valid i hi p hp)) fun p hp =>
      hT i hi p (Nat.lt_of_lt_of_le hp (transferred_le _ _))
  · split
    · rename_i hlt
      rw [hw.set _ ⟨i, Nat.zero_le _, hi, p, hlt, rfl⟩, hT i hi p hp]
    · rename_i hge
      rw [hw.frame, load_eq (hm.valid i hi p hp), stripByte]
      rintro ⟨i', -, hi', p', hp', e⟩
      obtain ⟨rfl, rfl⟩ := hm.add_inj hi hi' hp (Nat.lt_of_lt_of_le hp' (transferred_le _ _)) e
      exact hge hp'

/-- The strips hold what is on the devices, whatever that is, when their requests
have moved all bytes. -/
theorem readStrips_iff {matrix : Vector Ptr (k + n)} {mem : Mem} (hm : Strips mem matrix size) :
    (∀ disk, Returns (parallelReadSsd o matrix size offset disk mem) fun r =>
      r.2 = true → ReadStrips matrix size offset disk r.1) ↔ AllTransferred k n o size := by
  constructor
  · intro h i hi
    by_contra hne
    have hlt : (o i).transferred size < size := Nat.lt_of_le_of_ne (transferred_le _ _) hne
    -- devices that hold another byte than the strip, where it has not been read
    obtain ⟨r, hr, hread⟩ := h fun _ _ => stripByte mem matrix i ((o i).transferred size) + 1
    obtain ⟨htrue, hbytes⟩ := (parallelReadSsd_spec hm _).of_eq hr
    have hold := hbytes i hi _ hlt
    rw [if_neg (Nat.lt_irrefl _), hread htrue i hi _ hlt] at hold
    simp at hold
  · intro h disk
    refine (parallelReadSsd_spec hm disk).mono fun r ⟨_, hbytes⟩ _ i hi p hp => ?_
    rw [hbytes i hi p hp, if_pos (by rw [h i hi]; exact hp)]

/-- **Failures are reported** by a call on strips of `size` bytes, whatever its
requests do, exactly when there is none: every request moves all its bytes. The
number of strips, `k + n`, is an int. -/
theorem reports_failures_iff (hkn : k + n < 2 ^ 31) (o : Nat → Outcome) (size offset : Nat)
    {in_ : Vector Ptr k} {out : Vector Ptr n} {mem : Mem} (hs : ∀ i, i < k + n → Valid mem (cell (in_ ++ out) i) size)
    {matrix : Vector Ptr (k + n)} {mem' : Mem} (hm : Strips mem' matrix size) :
    ((Returns (parallelWriteSsd o in_ out size offset mem []) fun r =>
      r.2 = true → WroteStrips in_ out size offset mem r.1) ↔ AllTransferred k n o size) ∧
    ((∀ disk, Returns (parallelReadSsd o matrix size offset disk mem') fun r =>
      r.2 = true → ReadStrips matrix size offset disk r.1) ↔ AllTransferred k n o size) := by
  refine ⟨?_, readStrips_iff hm⟩
  rw [parallelWriteSsd_eq hs, List.nil_append]
  constructor
  · intro h
    exact (wroteStrips_iff hkn in_ out mem).1 (h.of_eq rfl rfl)
  · intro h
    exact returns_some fun _ => (wroteStrips_iff hkn in_ out mem).2 h

/-- One strip of each kind; of the second one byte is moved. -/
theorem reports_failures_iff_one :
    ((Returns (parallelWriteSsd (fun i => .moved (2 - i)) (ownBuffers 0 1) (ownBuffers 1 1) 2 0 #[#[5, 6], #[7, 8]] [])
      fun r => r.2 = true → WroteStrips (ownBuffers 0 1) (ownBuffers 1 1) 2 0 #[#[5, 6], #[7, 8]] r.1) ↔
        AllTransferred 1 1 (fun i => .moved (2 - i)) 2) ∧
    ((∀ disk, Returns (@parallelReadSsd 1 1 (fun i => .moved (2 - i)) (ownBuffers 0 2) 2 0 disk #[#[0, 0], #[0, 0]])
      fun r => r.2 = true → @ReadStrips 1 1 (ownBuffers 0 2) 2 0 disk r.1) ↔
        AllTransferred 1 1 (fun i => .moved (2 - i)) 2) :=
  reports_failures_iff (by decide) _ 2 0 (by decide) (by decide)

/-- The device of the data strip does not open, and the parity strip is written
in part: the call returns true. -/
theorem failures_unreported : ∃ o : Nat → Outcome, o 0 = .noOpen ∧ o 1 = .moved 1 ∧
    ∃ log, parallelWriteSsd o (ownBuffers 0 1) (ownBuffers 1 1) 2 0 #[#[5, 6], #[7, 8]] [] = some (log, true) ∧
      ¬ WroteStrips (ownBuffers 0 1) (ownBuffers 1 1) 2 0 #[#[5, 6], #[7, 8]] log := by
  refine ⟨fun i => if i = 0 then .noOpen else .moved 1, rfl, rfl, [⟨.ssd3, 0, [7]⟩], by decide, fun h => ?_⟩
  obtain ⟨bytes, hmem, -⟩ := h 0 (by decide) 0 (by decide)
  have hdev : (place 1 0).1 = .ssd3 := congrArg Pwrite.ssd (List.mem_singleton.1 hmem)
  exact absurd hdev (by decide)

end ErasureCode.Ssd
