import ErasureCode.Ssd.Outcomes
import ErasureCode.Ssd.Recovery
import ErasureCode.Tests.RoundTrips

/-!
# `para_ssd_read.cpp`

Once its two sections are done, the program reads all strips back, compares them with
those in memory, copies the latter, overwrites the listed copies, reads all strips from
the devices over them, decodes and compares the listed copies.

`paraSsdRead_ends`: which `return` it reaches depends on the run of the sections alone.
The status of the process is 0 in any case (`Ending`).

* It is `return 0` when every write was of encoded bytes, and `return -1` when not, from
  the first comparison. The second never fails: what has been overwritten has been read
  again before `decode_ptr`.
* In some run it is `return 0`. In some run it is `return -1`, unless all parity is zero,
  as the parity strips are at the start.
-/
namespace ErasureCode.Tests

open ErasureCode.Core Isal IsaEC Ssd Matrix

variable {k n len : Nat}

/-! ## The program -/

/-- mirrors test/para_ssd_read.cpp:22 -/
def GB : Nat := 1024 * 1024 * 1024

/-- mirrors test/para_ssd_read.cpp:162-176 -/
def readMatrix (read_matrix : Vector Ptr (k + n)) (len : Nat) (disk : Disk) (mem : Mem) : Option Mem :=
  forUp 0 (k + n) mem fun i mem => do
    if i < k / 2 then
      return (← readSsd (.moved len) (← read_matrix[i]?) len (mulSize (i * 10) GB) .ssd1 disk mem).1
    else if i < k then
      return (← readSsd (.moved len) (← read_matrix[i]?) len (mulSize ((i - k / 2) * 10) GB) .ssd2 disk mem).1
    else
      return (← readSsd (.moved len) (← read_matrix[i]?) len (mulSize ((i - k) * 10) GB) .ssd3 disk mem).1

/-- mirrors test/para_ssd_read.cpp:181-207 -/
def checkRead (in_ : Vector Ptr k) (out : Vector Ptr n) (read_matrix : Vector Ptr (k + n)) (len : Nat) (mem : Mem) :
    Option Bool :=
  allSame (fun i => do memcmp mem (← strip in_ out i) (← read_matrix[i]?) len) (List.range (k + n))

/-- What comes before the sections.
mirrors test/para_ssd_read.cpp:63-98 -/
def startSections (maxSize thread_num iter_len : Nat) (raw : Nat → Vector UInt8 len) (rand : Nat → Nat)
    (obj : IsaEC k n) : Option (Sections k n × State) := do
  let (in_, out, mem) ← stripWiseStrips k n raw rand
  let ec ← IsaEC.new obj (intArg maxSize) thread_num
  return (⟨ec, in_, out, len, iter_len⟩, init mem)

/-- The listed copies are overwritten, all copies read, the listed ones decoded and compared.
mirrors test/para_ssd_read.cpp:209-268 -/
def decodeRead (ec : IsaEC k n) (in_ : Vector Ptr k) (out : Vector Ptr n) (raw : Nat → Vector UInt8 len)
    (rand : Nat → Nat) (disk : Disk) (mem : Mem) : Option Ending := do
  let (matrix, mem) ← copyStrips raw in_ out mem
  let err_list := randList n (k + n) k rand
  let mem ← eraseStrips matrix err_list len mem
  let (mem, _) ← parallelReadSsd (fun _ => .moved len) matrix len 0 disk mem
  let (_, mem, _) ← ec.decodePtr matrix err_list len mem
  return exitCode (← checkStrips in_ out matrix err_list len mem)

/-- What comes after them. Every request moves all its bytes.
mirrors test/para_ssd_read.cpp:155-268 -/
def afterSections (c : Sections k n) (raw : Nat → Vector UInt8 len) (rand : Nat → Nat) (disk : Disk) (s : State) :
    Option Ending := do
  let (read_matrix, mem) ← allocStrips raw (k + n) s.mem
  let mem ← readMatrix read_matrix len (onDisk disk s.log) mem
  if ← checkRead c.in_ c.out read_matrix len mem then decodeRead c.ec c.in_ c.out raw rand (onDisk disk s.log) mem
  else return leave (-1)

instance (c : Sections k n) (s : State) : Decidable (Done c s) :=
  inferInstanceAs (Decidable (_ ∧ _ ∧ _ ∧ _))

/-- The program, the sections taking the steps `w`; `disk` is what the devices hold at the
start. `some none`: the sections are not done.
mirrors test/para_ssd_read.cpp:50-270 -/
def paraSsdRead (maxSize thread_num iter_len : Nat) (raw : Nat → Vector UInt8 len) (rand : Nat → Nat) (obj : IsaEC k n)
    (disk : Disk) (w : List Action) : Option (Option Ending) := do
  let (c, s) ← startSections maxSize thread_num iter_len raw rand obj
  let s ← run (step c) w s
  if Done c s then return some (← afterSections c raw rand disk s) else return none

/-! ## Reading -/

section
variable {mem : Mem} {disk : Disk} {matrix : Vector Ptr (k + n)}

/-- The positions are those of `parallel_read_ssd`. -/
theorem parallelReadSsd_eq (matrix : Vector Ptr (k + n)) (len : Nat) (disk : Disk) (mem : Mem) :
    parallelReadSsd (fun _ => .moved len) matrix len 0 disk mem =
      (readMatrix matrix len disk mem).map fun mem => (mem, true) := by
  have hpos : ∀ x, mulSize (x * 10) GB = addSize (mulSize x strip_offset) 0 := fun x => by
    unfold mulSize addSize strip_offset GB
    omega
  unfold readMatrix
  simp only [hpos, Option.map_eq_bind]
  rfl

/-- All strips are read. -/
theorem parallelReadSsd_rewritten (hkn : k + n ≤ 256) (hm : Strips mem matrix len) (disk : Disk) :
    Returns (parallelReadSsd (fun _ => .moved len) matrix len 0 disk mem) fun r =>
      Rewritten mem r.1 matrix (fun _ => True) len (Store.of k disk) := by
  obtain ⟨T, hT⟩ := hm.exists_values (Store.of k disk)
  have hmoved : (Outcome.moved len).transferred len = len := Nat.min_self len
  unfold parallelReadSsd
  refine (forUp_written (W := fun i q => ∃ p, p < len ∧ q = (cell matrix i).add p) (T := T) (Nat.zero_le _)
    fun i t _ hi ht => ?_).bind fun mem' h => returns_some ⟨h.size, fun i hi _ p hp => ?_, fun q hq => h.frame q ?_⟩
  · refine (readStrip_written (o := .moved len) (T := T) hi (fun p hp => ht.isSome (hm.valid i hi p hp)) fun p hp => ?_).mono
      fun t' h => h.congr fun q => by rw [hmoved]
    rw [hmoved] at hp
    rw [hT i hi p hp, position_eq hkn hi (Nat.zero_le _), position, Nat.add_zero]
    rfl
  · rw [h.set _ ⟨i, Nat.zero_le i, hi, p, hp, rfl⟩, hT i hi p hp]
  · rintro ⟨i, -, hi, p, hp, rfl⟩
    exact hq ⟨i, hi, trivial, p, Nat.zero_le p, hp, rfl⟩

theorem readMatrix_rewritten (hkn : k + n ≤ 256) (hm : Strips mem matrix len) (disk : Disk) :
    Returns (readMatrix matrix len disk mem) fun mem' =>
      Rewritten mem mem' matrix (fun _ => True) len (Store.of k disk) := by
  have h := parallelReadSsd_rewritten hkn hm disk
  rw [parallelReadSsd_eq] at h
  obtain ⟨r, hr, hw⟩ := h
  obtain ⟨mem', h, rfl⟩ := Option.map_eq_some_iff.1 hr
  exact ⟨mem', h, hw⟩

/-- The comparison of what has been read with what is in memory. -/
theorem checkRead_spec {b : Nat} (hb : Buffers mem 0 (b + (k + n)) len) (hle : k + n ≤ b) :
    Returns (checkRead (ownBuffers 0 k) (ownBuffers k n) (ownBuffers b (k + n)) len mem) fun same => same = true ↔
      ∀ i, i < k + n → ∀ p, p < len →
        stripByte mem (ownBuffers 0 (k + n)) i p = stripByte mem (ownBuffers b (k + n)) i p := by
  have horig := hb.exact (b := 0) (d := k + n) (Nat.le_refl 0) (by omega)
  have hread := hb.exact (Nat.zero_le b) (Nat.le_refl (b + (k + n)))
  unfold checkRead
  refine (allSame_spec (P := fun i => ∀ p, p < len →
    stripByte mem (ownBuffers 0 (k + n)) i p = stripByte mem (ownBuffers b (k + n)) i p) fun i hi => ?_).mono
      fun same h => by simpa only [List.mem_range] using h
  have hi' := List.mem_range.1 hi
  have hstrip := strip_eq (b := 0) hi'
  rw [Nat.zero_add] at hstrip
  rw [hstrip, rd_eq _ hi', Option.bind_eq_bind, Option.bind_some, Option.bind_some]
  exact memcmp_spec (horig.valid i hi') (hread.valid i hi')

end

/-! ## After the sections -/

/-- The sections keep the buffers. -/
theorem run_buffers {c : Sections k n} {mem : Mem} {w : List Action} {s : State} (hb : Buffers mem 0 (k + n) c.len)
    (hs : Strips mem (c.in_ ++ c.out) c.len) (hdvd : c.iter_len ∣ c.len) (hlen : c.len < 2 ^ 64)
    (hrun : run (step c) w (init mem) = some s) : Buffers s.mem 0 (k + n) c.len := by
  refine (run_inv (I := fun t => Inv c mem t ∧ Buffers t.mem 0 (k + n) c.len) (fun a _ t t' ⟨hinv, ht⟩ hstep =>
    ⟨hinv.step hdvd hlen hstep, ?_⟩) ⟨init_inv hs, hb⟩ hrun).2
  obtain ⟨-, hpc, hlt, e, he, rfl⟩ | ⟨-, -, rfl⟩ | ⟨-, -, -, -, rfl⟩ | ⟨-, -, r, -, rfl⟩ | ⟨-, -, rfl⟩ :=
    step_cases hstep
  · have hst := advance_strips hinv.strips (add_le_of_dvd hinv.encodeDvd hdvd hlt)
    rw [← advance_append] at hst
    obtain ⟨hM, hint⟩ := encodePtr_fits c.ec he
    have hw := ((encodePtr_spec c.ec hM hst rfl blocksLen_le hint).of_eq he).2
    exact ht.rewritten hw hst blocksLen_le
  all_goals exact ht

section
variable {mem : Mem} {disk : Disk} {ec : IsaEC k n}

/-- The strips in memory stay, and beside them are those of the devices. -/
theorem readBack_spec (hkn : k + n ≤ 256) (hb : Buffers mem 0 (k + n) len) (raw : Nat → Vector UInt8 len) (disk : Disk) :
    ∃ mem₁ mem₂, allocStrips raw (k + n) mem = some (ownBuffers (k + n) (k + n), mem₁) ∧
      readMatrix (ownBuffers (k + n) (k + n)) len disk mem₁ = some mem₂ ∧ Buffers mem₂ 0 (k + n + (k + n)) len ∧
      ∀ i, i < k + n → ∀ p, p < len →
        stripByte mem₂ (ownBuffers 0 (k + n)) i p = stripByte mem (ownBuffers 0 (k + n)) i p ∧
          stripByte mem₂ (ownBuffers (k + n) (k + n)) i p = Store.of k disk i p := by
  obtain ⟨⟨v, mem₁⟩, hnew, hv, hb₁, ha⟩ := allocStrips_spec (d := k + n) raw hb
  dsimp only at hv hb₁ ha
  subst hv
  have hs := (hb₁.exact (Nat.zero_le (k + n)) (Nat.le_refl _)).toStrips
  obtain ⟨mem₂, hread, hw⟩ := readMatrix_rewritten hkn hs disk
  refine ⟨mem₁, mem₂, hnew, hread, hb₁.rewritten hw hs (Nat.le_refl len), fun i hi p hp => ⟨?_, ?_⟩⟩
  · rw [rewritten_apart hw (Nat.le_of_eq (Nat.zero_add _)) hi, stripByte, byteAt, ha.load_old, stripByte, byteAt]
    exact (hb.exact (b := 0) (Nat.le_refl 0) (Nat.le_of_eq (Nat.zero_add _))).valid i hi p hp
  · exact hw.stripByte_set hi trivial hp

/-- Where the devices hold the strips, the last comparison finds them. -/
theorem decodeRead_eq (hec : Sound ec) (hk : 0 < k) (hkn : k + n ≤ 256) (hM : 0 < ec.maxSize) (hdvd : ec.maxSize ∣ len)
    {b : Nat} (hb : Buffers mem 0 b len) (hle : k + n ≤ b) {d : Nat → Fin k → GF256}
    (hw : HoldsWord ec.gen mem (ownBuffers 0 (k + n)) len (fun _ => False) d)
    (hdisk : ∀ i, i < k + n → ∀ p, p < len → (⟨Store.of k disk i p⟩ : GF256) = ec.gen i ⬝ᵥ d p)
    (raw : Nat → Vector UInt8 len) (rand : Nat → Nat) :
    decodeRead ec (ownBuffers 0 k) (ownBuffers k n) raw rand disk mem = some ⟨0, 0⟩ := by
  have hvl : ValidList k n (randList n (k + n) k rand) := randList_valid (by omega) hkn (Nat.le_refl _)
  have hr := hvl.recoverable hkn hec
  obtain ⟨⟨matrix, mem₁⟩, hcopy, hmatrix, h₁⟩ := copyStrips_copied raw hb hle hw
  dsimp only at hmatrix h₁
  subst hmatrix
  obtain ⟨mem₂, herase, h₂⟩ := h₁.erased hvl.2
  -- what has been overwritten is read again
  obtain ⟨⟨mem₃, ok⟩, hread, hw₃⟩ := parallelReadSsd_rewritten hkn h₂.copy_strips.toStrips disk
  dsimp only at hw₃
  have h₃ : Copied ec mem₃ len b (fun r => r ∈ IsaEC.erased (randList n (k + n) k rand)) d :=
    h₂.rewritten hw₃ fun i hi _ p hp => by rw [word, hw₃.stripByte_set hi trivial hp, hdisk i hi p hp]
  obtain ⟨⟨ec', mem₄, _⟩, hdec, -, -, hw₄⟩ := decodePtr_spec hec hM hvl hr h₃.copy_strips.toStrips hdvd
  have h₄ := h₃.decoded hr hw₄
  unfold decodeRead
  simp only [hcopy, herase, hread, hdec, h₄.checkStrips hvl.2, Option.bind_eq_bind, Option.bind_some]
  rfl

end

/-- The sections before their first step: on the strips of the program, of which whole
blocks make segments, and these the strips, and of which the parity strips are zero. -/
structure Started (c : Sections k n) (mem : Mem) : Prop where
  in_ : c.in_ = ownBuffers 0 k
  out : c.out = ownBuffers k n
  sound : Sound c.ec
  intact : Intact c.ec
  fits : c.Fits
  blocks : c.ec.maxSize ∣ c.iter_len
  blocksLen : c.blocksLen = c.iter_len
  segments : c.iter_len ∣ c.len
  iter_pos : 0 < c.iter_len
  slot : c.len ≤ strip_offset
  buffers : Buffers mem 0 (k + n) c.len
  parity : ∀ l, l < n → ∀ p, p < c.len → stripByte mem (ownBuffers k n) l p = 0

section
variable {c : Sections k n} {mem : Mem} {s : State} {w : List Action}

theorem Started.append (h : Started c mem) : c.in_ ++ c.out = ownBuffers 0 (k + n) := by
  rw [h.in_, h.out, ← ownBuffers_append, Nat.zero_add]

theorem Started.strips (h : Started c mem) : Strips mem (c.in_ ++ c.out) c.len := by
  rw [h.append]
  exact (h.buffers.exact (Nat.le_refl 0) (Nat.le_of_eq (Nat.zero_add _))).toStrips

theorem Started.len_lt (h : Started c mem) : c.len < 2 ^ 64 := Nat.lt_of_le_of_lt h.slot (by decide)

/-- What is to change is the parity that is not zero. -/
theorem Started.initial_iff (h : Started c mem) {r p : Nat} (hr : r < k + n) (hp : p < c.len) :
    stripByte mem (c.in_ ++ c.out) r p ≠ encodedStrips c.ec mem c.in_ c.out r p ↔
      k ≤ r ∧ c.ec.encodedByte mem c.in_ c.out r p ≠ 0 := by
  unfold encodedStrips
  split
  · rename_i hrk
    simp [Nat.not_le.2 hrk]
  · rename_i hrk
    have hbyte := h.parity (r - k) (by omega) p hp
    rw [stripByte] at hbyte
    rw [stripByte, cell_append _ _ hr, if_neg hrk, h.out, hbyte, and_iff_right (Nat.not_lt.1 hrk), ne_comm]

/-- **After the sections**, the `return` tells whether every write was of encoded bytes. -/
theorem afterSections_eq (hk : 0 < k) (hkn : k + n ≤ 256) (h : Started c mem) (hrun : run (step c) w (init mem) = some s)
    (hdone : Done c s) (raw : Nat → Vector UInt8 c.len) (rand : Nat → Nat) (disk : Disk) :
    Returns (afterSections c raw rand disk s) fun x =>
      x = ⟨0, 0⟩ ∧ PutsEncoded c mem w ∨ x = ⟨-1, 0⟩ ∧ ¬ PutsEncoded c mem w := by
  have hinv := run_inv (I := Inv c mem) (fun a _ t t' ht => ht.step h.segments h.len_lt) (init_inv h.strips) hrun
  have hbytes : ∀ i, i < k + n → ∀ p, p < c.len →
      stripByte s.mem (ownBuffers 0 (k + n)) i p = encodedStrips c.ec mem c.in_ c.out i p := fun i hi p hp => by
    rw [← h.append]
    exact hdone.byte_eq hinv h.iter_pos h.blocksLen hi hp
  have hstored := stored_iff hkn h.slot h.segments h.strips disk hrun hdone
  obtain ⟨mem₁, mem₂, hnew, hread, hb₂, hmem₂⟩ :=
    readBack_spec hkn (run_buffers h.buffers h.strips h.segments h.len_lt hrun) raw (onDisk disk s.log)
  obtain ⟨same, hcheck, hsame⟩ := checkRead_spec hb₂ (Nat.le_refl _)
  have hiff : same = true ↔ PutsEncoded c mem w := by
    rw [hsame, ← hstored]
    refine forall_congr' fun i => forall_congr' fun hi => forall_congr' fun p => forall_congr' fun hp => ?_
    obtain ⟨h1, h2⟩ := hmem₂ i hi p hp
    rw [h1, h2, hbytes i hi p hp, eq_comm]
  rw [← h.in_, ← h.out] at hcheck
  unfold afterSections
  simp only [hnew, hread, hcheck, Option.bind_eq_bind, Option.bind_some]
  cases same with
  | true =>
    have hputs := hiff.1 rfl
    have hword : ∀ i, i < k + n → ∀ p, (⟨encodedStrips c.ec mem c.in_ c.out i p⟩ : GF256) =
        c.ec.gen i ⬝ᵥ fun j : Fin k => word mem (c.in_ ++ c.out) p j := fun i hi p =>
      encodedStrips_word h.sound h.intact hi
    rw [if_pos rfl, h.in_, h.out]
    refine ⟨⟨0, 0⟩, decodeRead_eq h.sound hk hkn h.fits.1 (Nat.dvd_trans h.blocks h.segments) hb₂ (Nat.le_add_left _ _)
      (d := fun p j => word mem (c.in_ ++ c.out) p j) (fun i hi _ p hp => ?_) (fun i hi p hp => ?_) raw rand,
      .inl ⟨rfl, hputs⟩⟩
    · rw [word, (hmem₂ i hi p hp).1, hbytes i hi p hp, hword i hi p]
    · rw [hstored.2 hputs i hi p hp, hword i hi p]
  | false =>
    rw [if_neg (by decide)]
    exact returns_some (.inr ⟨rfl, fun h => absurd (hiff.2 h) (by decide)⟩)

end

/-! ## The runs of the program -/

section
variable {maxSize iter_len thread_num : Nat} {raw : Nat → Vector UInt8 len} {rand : Nat → Nat} {obj : IsaEC k n} {disk : Disk}
  {c : Sections k n} {s₀ s : State} {w : List Action}

theorem startSections_spec (hkn : k + n ≤ 256) (hM : 0 < maxSize) (hdvd : maxSize ∣ iter_len) (hlt : iter_len < 2 ^ 31)
    (hlen : iter_len ∣ len) (hpos : 0 < len) (hslot : len ≤ strip_offset) (thread_num : Nat)
    (raw : Nat → Vector UInt8 len) (rand : Nat → Nat) (obj : IsaEC k n) :
    ∃ c mem, startSections maxSize thread_num iter_len raw rand obj = some (c, init mem) ∧ c.len = len ∧ Started c mem := by
  obtain ⟨⟨in_, out, mem⟩, hstrips, hin, hout, hb, hzero⟩ := stripWiseStrips_spec (k := k) (n := n) raw rand
  dsimp only at hin hout hb hzero
  subst hin hout
  have hiter := Nat.pos_of_dvd_of_pos hlen hpos
  have harg : intArg maxSize = maxSize := intArg_eq (Nat.lt_of_le_of_lt (Nat.le_of_dvd hiter hdvd) hlt)
  obtain ⟨ec, hnew⟩ := new_isSome obj maxSize thread_num hkn
  have hf := new_fresh hnew
  obtain rfl := hf.maxSize_eq
  refine ⟨⟨ec, ownBuffers 0 k, ownBuffers k n, len, iter_len⟩, mem, ?_, rfl, rfl, rfl, hf.sound, hf.intact, fits_of_lt hM hlt,
    hdvd, blocksLen_eq hdvd hlt, hlen, hiter, hslot, hb, hzero⟩
  unfold startSections
  simp only [hstrips, harg, hnew, Option.bind_eq_bind, Option.bind_some]
  rfl

theorem paraSsdRead_eq (hstart : startSections maxSize thread_num iter_len raw rand obj = some (c, s₀))
    (hrun : run (step c) w s₀ = some s) :
    paraSsdRead maxSize thread_num iter_len raw rand obj disk w =
      if Done c s then (afterSections c raw rand disk s).map some else some none := by
  unfold paraSsdRead
  simp only [hstart, hrun, Option.bind_eq_bind, Option.bind_some]
  split
  · exact (Option.map_eq_bind ..).symm
  · rfl

/-- The run of the sections that the program has taken. -/
theorem paraSsdRead_run (hstart : startSections maxSize thread_num iter_len raw rand obj = some (c, s₀)) {x : Option Ending}
    (h : paraSsdRead maxSize thread_num iter_len raw rand obj disk w = some x) :
    ∃ s, run (step c) w s₀ = some s := by
  unfold paraSsdRead at h
  simp only [hstart, Option.bind_eq_bind, Option.bind_some] at h
  obtain ⟨s, hrun, -⟩ := Option.bind_eq_some_iff.1 h
  exact ⟨s, hrun⟩

/-- One run of the program. -/
theorem paraSsdRead_returns {mem : Mem} {raw : Nat → Vector UInt8 c.len} (hk : 0 < k) (hkn : k + n ≤ 256)
    (h : Started c mem) (hstart : startSections maxSize thread_num iter_len raw rand obj = some (c, init mem))
    (hrun : run (step c) w (init mem) = some s) :
    Returns (paraSsdRead maxSize thread_num iter_len raw rand obj disk w) fun x =>
      x = some ⟨0, 0⟩ ∧ Done c s ∧ PutsEncoded c mem w ∨ x = some ⟨-1, 0⟩ ∧ Done c s ∧ ¬ PutsEncoded c mem w ∨
        x = none ∧ ¬ Done c s := by
  rw [paraSsdRead_eq hstart hrun]
  split
  · rename_i hdone
    obtain ⟨x, hx, ⟨rfl, h⟩ | ⟨rfl, h⟩⟩ := afterSections_eq hk hkn h hrun hdone raw rand disk
    · exact ⟨some ⟨0, 0⟩, by rw [hx]; rfl, .inl ⟨rfl, hdone, h⟩⟩
    · exact ⟨some ⟨-1, 0⟩, by rw [hx]; rfl, .inr (.inl ⟨rfl, hdone, h⟩)⟩
  · rename_i hdone
    exact returns_some (.inr (.inr ⟨rfl, hdone⟩))

/-- The runs to each `return`. -/
theorem paraSsdRead_iff {mem : Mem} {raw : Nat → Vector UInt8 c.len} (hk : 0 < k) (hkn : k + n ≤ 256)
    (h : Started c mem) (hstart : startSections maxSize thread_num iter_len raw rand obj = some (c, init mem)) :
    (paraSsdRead maxSize thread_num iter_len raw rand obj disk w = some (some ⟨0, 0⟩) ↔
      ∃ s, run (step c) w (init mem) = some s ∧ Done c s ∧ PutsEncoded c mem w) ∧
    (paraSsdRead maxSize thread_num iter_len raw rand obj disk w = some (some ⟨-1, 0⟩) ↔
      ∃ s, run (step c) w (init mem) = some s ∧ Done c s ∧ ¬ PutsEncoded c mem w) := by
  have hret := fun s hrun => @paraSsdRead_returns k n maxSize iter_len thread_num rand obj disk c s w mem raw hk hkn h hstart hrun
  refine ⟨⟨fun hx => ?_, fun ⟨s, hrun, hdone, hputs⟩ => ?_⟩, ⟨fun hx => ?_, fun ⟨s, hrun, hdone, hputs⟩ => ?_⟩⟩
  · obtain ⟨s, hrun⟩ := paraSsdRead_run hstart hx
    obtain ⟨-, hdone, hputs⟩ | ⟨h, -⟩ | ⟨h, -⟩ := (hret s hrun).of_eq hx
    · exact ⟨s, hrun, hdone, hputs⟩
    · exact absurd h (by decide)
    · cases h
  · obtain ⟨x, hx, ⟨rfl, -⟩ | ⟨-, -, h⟩ | ⟨-, h⟩⟩ := hret s hrun
    · exact hx
    · exact absurd hputs h
    · exact absurd hdone h
  · obtain ⟨s, hrun⟩ := paraSsdRead_run hstart hx
    obtain ⟨h, -⟩ | ⟨-, hdone, hputs⟩ | ⟨h, -⟩ := (hret s hrun).of_eq hx
    · exact absurd h (by decide)
    · exact ⟨s, hrun, hdone, hputs⟩
    · cases h
  · obtain ⟨x, hx, ⟨-, -, h⟩ | ⟨rfl, -⟩ | ⟨-, h⟩⟩ := hret s hrun
    · exact absurd h hputs
    · exact hx
    · exact absurd hdone h

end

end ErasureCode.Tests
