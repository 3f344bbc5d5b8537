import ErasureCode.Ssd.Segments

/-!
# Encoding and writing at the same time

The two parallel sections of `test/para_ssd_read.cpp:96-148`. The encoder calls
`encode_ptr` on one segment of `iter_len` bytes after the other and counts them
in `encode_offset`; the writer calls `parallel_write_ssd` on one after the other
and counts in `write_offset`. Before each call the writer waits, but while
`write_offset < encode_offset` (`:131`): while there is something to write. It
goes on when the encoder is *not* ahead.

A write is safe when its segment has been encoded (`WriteSafe`); then what it
puts on the devices is what `encode_ptr` computes. `pipeline_safe_iff`: the writes
of a run are all safe exactly when each time the writer has left its wait loop
the encoder finishes a segment before the write. `writes_too_early` is a run
where it does not.
-/
namespace ErasureCode.Ssd

open ErasureCode.Core Isal IsaEC

variable {k n : Nat}

/-- Where the encoder is: before its call, or before it adds. -/
inductive EncoderPc where
  | encode | add
  deriving DecidableEq, Repr

/-- Where the writer is: in its wait loop, before its call, or before it adds. -/
inductive WriterPc where
  | wait | write | add
  deriving DecidableEq, Repr

/-- mirrors test/para_ssd_read.cpp:96-97 -/
structure State where
  encode_offset : Nat
  write_offset : Nat
  encoder : EncoderPc
  writer : WriterPc
  mem : Mem
  log : List Pwrite
  deriving DecidableEq, Repr

/-- What the sections share and do not change. -/
structure Sections (k n : Nat) where
  ec : IsaEC k n
  in_ : Vector Ptr k
  out : Vector Ptr n
  len : Nat
  iter_len : Nat

/-- A step of one of the sections. A round of the wait loop changes nothing. -/
inductive Action where
  | encode | encodeAdd | leaveWait | write | writeAdd
  deriving DecidableEq, Repr

/-- The call of `parallel_write_ssd`, every request moving all its bytes. -/
def Sections.put (c : Sections k n) (s : State) : Option (List Pwrite × Bool) :=
  parallelWriteSsd (fun _ => .moved c.iter_len) (advance c.in_ s.write_offset) (advance c.out s.write_offset)
    c.iter_len s.write_offset s.mem s.log

/-- `none`: the section is not there, or has run into undefined behaviour.
mirrors test/para_ssd_read.cpp:106-147 -/
def step (c : Sections k n) (a : Action) (s : State) : Option State :=
  match a with
  | .encode =>
    if s.encoder = .encode ∧ s.encode_offset < c.len then do
      let r ← c.ec.encodePtr (advance c.in_ s.encode_offset) (advance c.out s.encode_offset) c.iter_len s.mem
      return { s with encoder := .add, mem := r.1 }
    else none
  | .encodeAdd =>
    if s.encoder = .add then
      some { s with encoder := .encode, encode_offset := addSize s.encode_offset c.iter_len }
    else none
  | .leaveWait =>
    if s.writer = .wait ∧ s.write_offset < c.len ∧ ¬ s.write_offset < s.encode_offset then
      some { s with writer := .write }
    else none
  | .write =>
    if s.writer = .write then do
      let r ← c.put s
      return { s with writer := .add, log := r.1 }
    else none
  | .writeAdd =>
    if s.writer = .add then some { s with writer := .wait, write_offset := addSize s.write_offset c.iter_len }
    else none

def init (mem : Mem) : State := ⟨0, 0, .encode, .wait, mem, []⟩

/-- The write the writer is about to do is safe: its segment has been encoded,
and the call puts on the devices what the strips hold after `encode_ptr` on that
segment, `mem₀` being the memory at the start. -/
structure WriteSafe (c : Sections k n) (mem₀ : Mem) (s : State) : Prop where
  encoded : s.write_offset + c.iter_len ≤ s.encode_offset
  puts : Returns (c.ec.encodePtr (advance c.in_ s.write_offset) (advance c.out s.write_offset) c.iter_len mem₀)
    fun e => Returns (c.put s) fun r => r.1 = s.log ++ (List.range (k + n)).map fun i =>
      stripWrite k i s.write_offset
        (bytesAt e.1 (cell (advance c.in_ s.write_offset ++ advance c.out s.write_offset) i) c.iter_len)

/-- Every write of the run `w` is safe. -/
def WritesSafe (c : Sections k n) (mem₀ : Mem) (w : List Action) : Prop :=
  ∀ w₁ w₂ s, w = w₁ ++ .write :: w₂ → run (step c) w₁ (init mem₀) = some s → WriteSafe c mem₀ s

/-- Each time the writer has left its wait loop, the encoder finishes a segment
before the write. -/
def EncodesBeforeWrites (w : List Action) : Prop :=
  ∀ w₁ w₂ w₃, w = w₁ ++ .leaveWait :: w₂ ++ .write :: w₃ → .write ∉ w₂ → .encodeAdd ∈ w₂

/-- What a step does. -/
theorem step_cases {c : Sections k n} {a : Action} {s s' : State} (h : step c a s = some s') :
    (a = .encode ∧ s.encoder = .encode ∧ s.encode_offset < c.len ∧
      ∃ e, c.ec.encodePtr (advance c.in_ s.encode_offset) (advance c.out s.encode_offset) c.iter_len s.mem = some e ∧
        s' = { s with encoder := .add, mem := e.1 }) ∨
    (a = .encodeAdd ∧ s.encoder = .add ∧
      s' = { s with encoder := .encode, encode_offset := addSize s.encode_offset c.iter_len }) ∨
    (a = .leaveWait ∧ s.writer = .wait ∧ s.write_offset < c.len ∧ s.encode_offset ≤ s.write_offset ∧
      s' = { s with writer := .write }) ∨
    (a = .write ∧ s.writer = .write ∧ ∃ r, c.put s = some r ∧ s' = { s with writer := .add, log := r.1 }) ∨
    (a = .writeAdd ∧ s.writer = .add ∧
      s' = { s with writer := .wait, write_offset := addSize s.write_offset c.iter_len }) := by
  cases a with
  | encode =>
    simp only [step] at h
    split at h
    · rename_i hc
      obtain ⟨e, he, h⟩ := Option.bind_eq_some_iff.1 h
      cases h
      exact .inl ⟨rfl, hc.1, hc.2, e, he, rfl⟩
    · cases h
  | encodeAdd =>
    simp only [step] at h
    split at h
    · cases h
      exact .inr (.inl ⟨rfl, by assumption, rfl⟩)
    · cases h
  | leaveWait =>
    simp only [step] at h
    split at h
    · rename_i hc
      cases h
      exact .inr (.inr (.inl ⟨rfl, hc.1, hc.2.1, Nat.not_lt.1 hc.2.2, rfl⟩))
    · cases h
  | write =>
    simp only [step] at h
    split at h
    · rename_i hc
      obtain ⟨r, hr, h⟩ := Option.bind_eq_some_iff.1 h
      cases h
      exact .inr (.inr (.inr (.inl ⟨rfl, hc, r, hr, rfl⟩)))
    · cases h
  | writeAdd =>
    simp only [step] at h
    split at h
    · cases h
      exact .inr (.inr (.inr (.inr ⟨rfl, by assumption, rfl⟩)))
    · cases h

/-- The next multiple. -/
theorem add_le_of_dvd {d a b : Nat} (ha : d ∣ a) (hb : d ∣ b) (h : a < b) : a + d ≤ b := by
  obtain ⟨x, rfl⟩ := ha
  obtain ⟨y, rfl⟩ := hb
  have := Nat.mul_le_mul_left d (Nat.lt_of_mul_lt_mul_left h)
  rwa [Nat.mul_succ] at this

/-! ## What has been encoded -/

section
variable {c : Sections k n} {mem mem₀ : Mem} {s s' : State}

/-- How many bytes of a segment `encode_ptr` encodes: whole blocks, counted in
an `int`. -/
def Sections.blocksLen (c : Sections k n) : Nat := (toInt (c.iter_len / c.ec.maxSize)).toNat * c.ec.maxSize

theorem blocksLen_le : c.blocksLen ≤ c.iter_len :=
  Nat.le_trans (Nat.mul_le_mul_right _ (toInt_le _)) (Nat.div_mul_le_self _ _)

/-- `encode_ptr` can divide by the block size, and its `int` products fit. -/
def Sections.Fits (c : Sections k n) : Prop :=
  0 < c.ec.maxSize ∧ ∀ b, b < (toInt (c.iter_len / c.ec.maxSize)).toNat → b * c.ec.maxSize < 2 ^ 31

/-- One segment encoded. -/
theorem encode_segment {off : Nat} (hs : Strips mem (c.in_ ++ c.out) c.len) (hoff : off + c.iter_len ≤ c.len)
    (hfit : c.Fits) :
    Returns (c.ec.encodePtr (advance c.in_ off) (advance c.out off) c.iter_len mem) fun e =>
      Strips e.1 (c.in_ ++ c.out) c.len ∧ ∀ r, r < k + n → ∀ p, p < c.len →
        stripByte e.1 (c.in_ ++ c.out) r p =
          if k ≤ r ∧ off ≤ p ∧ p < off + c.blocksLen then c.ec.encodedByte mem c.in_ c.out r p
          else stripByte mem (c.in_ ++ c.out) r p := by
  have hb := @blocksLen_le _ _ c
  have hs' := advance_strips hs hoff
  rw [← advance_append] at hs'
  refine (encodePtr_spec c.ec hfit.1 hs' rfl hb hfit.2).mono fun e ⟨_, hw⟩ =>
    ⟨hw.strips hs, fun r hr p hp => ?_⟩
  rw [advance_append] at hw
  split
  · rename_i hc
    obtain ⟨q, rfl⟩ := Nat.exists_eq_add_of_le hc.2.1
    rw [← stripByte_advance hr, hw.stripByte_set hr hc.1 (show q < c.blocksLen by omega), encodedByte_advance]
  · rename_i hc
    rw [stripByte, byteAt, hw.frame, stripByte, byteAt]
    rintro ⟨r', hr', hk, q, _, hq, e⟩
    change q < c.blocksLen at hq
    rw [cell_advance hr', Ptr.add_add] at e
    obtain ⟨rfl, rfl⟩ := hs.add_inj hr hr' hp (by omega) e
    exact hc ⟨hk, by omega, by omega⟩

/-- How far the encoder has come, the call before its add included. -/
def encodedTo (c : Sections k n) (s : State) : Nat :=
  match s.encoder with
  | .encode => s.encode_offset
  | .add => s.encode_offset + c.iter_len

/-- What holds in every state of a run: the offsets count segments, the parity
strips hold the parity of the segments encoded and are unchanged after them,
and the data strips are unchanged. -/
structure Inv (c : Sections k n) (mem₀ : Mem) (s : State) : Prop where
  strips : Strips s.mem (c.in_ ++ c.out) c.len
  encodeDvd : c.iter_len ∣ s.encode_offset
  writeDvd : c.iter_len ∣ s.write_offset
  encoded_le : encodedTo c s ≤ c.len
  fits : 0 < encodedTo c s → c.Fits
  writing : s.writer ≠ .wait → s.write_offset < c.len
  bytes : ∀ r, r < k + n → ∀ p, p < c.len → stripByte s.mem (c.in_ ++ c.out) r p =
    if k ≤ r ∧ p < encodedTo c s ∧ p % c.iter_len < c.blocksLen then c.ec.encodedByte mem₀ c.in_ c.out r p
    else stripByte mem₀ (c.in_ ++ c.out) r p

theorem init_inv (hs : Strips mem₀ (c.in_ ++ c.out) c.len) : Inv c mem₀ (init mem₀) := by
  refine ⟨hs, Nat.dvd_zero _, Nat.dvd_zero _, Nat.zero_le _, fun h => absurd h (Nat.lt_irrefl 0), fun h => absurd rfl h,
    fun r hr p hp => ?_⟩
  rw [if_neg fun hc => absurd hc.2.1 (Nat.not_lt_zero p)]
  rfl

/-- A data byte is as at the start. -/
theorem Inv.data (h : Inv c mem₀ s) {j p : Nat} (hj : j < k) (hp : p < c.len) :
    stripByte s.mem (c.in_ ++ c.out) j p = stripByte mem₀ (c.in_ ++ c.out) j p := by
  rw [h.bytes j (by omega) p hp, if_neg fun hc => absurd hc.1 (by omega)]

/-- The bytes once the call at `encode_offset` is done. -/
theorem Inv.encoded (h : Inv c mem₀ s) (hpc : s.encoder = .encode) {e : Mem × Bool} (hb : ∀ r, r < k + n → ∀ p, p < c.len → stripByte e.1 (c.in_ ++ c.out) r p =
      if k ≤ r ∧ s.encode_offset ≤ p ∧ p < s.encode_offset + c.blocksLen then c.ec.encodedByte s.mem c.in_ c.out r p
      else stripByte s.mem (c.in_ ++ c.out) r p) {r p : Nat} (hr : r < k + n) (hp : p < c.len) :
    stripByte e.1 (c.in_ ++ c.out) r p =
      if k ≤ r ∧ p < s.encode_offset + c.iter_len ∧ p % c.iter_len < c.blocksLen then
        c.ec.encodedByte mem₀ c.in_ c.out r p
      else stripByte mem₀ (c.in_ ++ c.out) r p := by
  have hcov := @blocksLen_le _ _ c
  have hto : encodedTo c s = s.encode_offset := by rw [encodedTo, hpc]
  have hold := h.bytes r hr p hp
  rw [hto] at hold
  rw [hb r hr p hp]
  by_cases hlt : p < s.encode_offset
  · rw [if_neg (by omega), hold]
    exact if_congr (by omega) rfl rfl
  · rw [if_neg (show ¬ (k ≤ r ∧ p < s.encode_offset ∧ _) from fun hc => hlt hc.2.1)] at hold
    rw [hold]
    obtain ⟨q, rfl⟩ := Nat.exists_eq_add_of_le (Nat.not_lt.1 hlt)
    obtain ⟨x, hx⟩ := h.encodeDvd
    by_cases hq : q < c.iter_len
    · -- in the segment just encoded
      have hmod : (s.encode_offset + q) % c.iter_len = q := by rw [hx, Nat.mul_add_mod, Nat.mod_eq_of_lt hq]
      have henc : c.ec.encodedByte s.mem c.in_ c.out r (s.encode_offset + q) =
          c.ec.encodedByte mem₀ c.in_ c.out r (s.encode_offset + q) :=
        dotBytes_congr (fun _ _ => rfl) fun j hj => h.data hj hp
      rw [hmod, henc]
      exact if_congr (by omega) rfl rfl
    · rw [if_neg (by omega), if_neg (by omega)]

/-- The encoder's counter does not wrap. -/
theorem Inv.encode_add (h : Inv c mem₀ s) (hlen : c.len < 2 ^ 64) (hpc : s.encoder = .add) :
    addSize s.encode_offset c.iter_len = s.encode_offset + c.iter_len := by
  have hle := h.encoded_le
  rw [encodedTo, hpc] at hle
  exact addSize_eq (by simp only at hle; omega)

/-- The writer's counter does not wrap. -/
theorem Inv.write_add (h : Inv c mem₀ s) (hdvd : c.iter_len ∣ c.len) (hlen : c.len < 2 ^ 64) (hpc : s.writer ≠ .wait) :
    addSize s.write_offset c.iter_len = s.write_offset + c.iter_len := by
  have hle := add_le_of_dvd h.writeDvd hdvd (h.writing hpc)
  exact addSize_eq (by omega)

/-- Every step keeps the invariant. -/
theorem Inv.step (h : Inv c mem₀ s) (hdvd : c.iter_len ∣ c.len) (hlen : c.len < 2 ^ 64) {a : Action}
    (hstep : step c a s = some s') : Inv c mem₀ s' := by
  obtain ⟨-, hpc, hlt, e, he, rfl⟩ | ⟨-, hpc, rfl⟩ | ⟨-, hpc, hlt, -, rfl⟩ | ⟨-, hpc, r, -, rfl⟩ | ⟨-, hpc, rfl⟩ :=
    step_cases hstep
  · have hoff := add_le_of_dvd h.encodeDvd hdvd hlt
    have hfit : c.Fits := encodePtr_fits c.ec he
    obtain ⟨hs', hb⟩ := (encode_segment h.strips hoff hfit).of_eq he
    exact ⟨hs', h.encodeDvd, h.writeDvd, hoff, fun _ => hfit, h.writing, fun r hr p hp => h.encoded hpc hb hr hp⟩
  · have hto : encodedTo c s = s.encode_offset + c.iter_len := by rw [encodedTo, hpc]
    refine ⟨h.strips, ?_, h.writeDvd, ?_, ?_, h.writing, ?_⟩ <;> simp only [encodedTo, h.encode_add hlen hpc]
    · exact Nat.dvd_add h.encodeDvd (Nat.dvd_refl _)
    · exact hto ▸ h.encoded_le
    · exact hto ▸ h.fits
    · exact hto ▸ h.bytes
  · exact ⟨h.strips, h.encodeDvd, h.writeDvd, h.encoded_le, h.fits, fun _ => hlt, h.bytes⟩
  · exact ⟨h.strips, h.encodeDvd, h.writeDvd, h.encoded_le, h.fits, fun _ => h.writing (by rw [hpc]; decide), h.bytes⟩
  · refine ⟨h.strips, h.encodeDvd, ?_, h.encoded_le, h.fits, fun hn => absurd rfl hn, h.bytes⟩
    rw [h.write_add hdvd hlen (by rw [hpc]; decide)]
    exact Nat.dvd_add h.writeDvd (Nat.dvd_refl _)

/-- A write whose segment is counted in `encode_offset` is safe. -/
theorem Inv.writeSafe (h : Inv c mem₀ s) (hs₀ : Strips mem₀ (c.in_ ++ c.out) c.len) (hiter : 0 < c.iter_len)
    (hdvd : c.iter_len ∣ c.len) (hpc : s.writer = .write) (hle : s.write_offset + c.iter_len ≤ s.encode_offset) :
    WriteSafe c mem₀ s := by
  have hoff := add_le_of_dvd h.writeDvd hdvd (h.writing (by rw [hpc]; decide))
  have hto : s.encode_offset ≤ encodedTo c s := by
    unfold encodedTo
    split <;> omega
  refine ⟨hle, (encode_segment hs₀ hoff (h.fits (by omega))).mono fun e ⟨_, hb⟩ => ?_⟩
  have hst := advance_strips h.strips hoff
  rw [← advance_append] at hst
  rw [Sections.put, parallelWriteSsd_spec hst.valid]
  refine returns_some (congrArg _ (List.map_congr_left fun r hr => congrArg _ ?_))
  have hr' : r < k + n := List.mem_range.1 hr
  refine List.map_congr_left fun q hq => ?_
  have hq' : q < c.iter_len := List.mem_range.1 hq
  obtain ⟨x, hx⟩ := h.writeDvd
  have hmod : (s.write_offset + q) % c.iter_len = q := by rw [hx, Nat.mul_add_mod, Nat.mod_eq_of_lt hq']
  rw [advance_append]
  change stripByte s.mem (advance (c.in_ ++ c.out) s.write_offset) r q =
    stripByte e.1 (advance (c.in_ ++ c.out) s.write_offset) r q
  rw [stripByte_advance hr', stripByte_advance hr', h.bytes r hr' _ (by omega), hb r hr' _ (by omega), hmod]
  exact if_congr (by omega) rfl rfl

/-! ## Runs -/

/-- The state a run is in, its actions so far being `w`: while the writer is
before its call, it has left its wait loop with the encoder at `write_offset`. -/
structure Paced (c : Sections k n) (mem₀ : Mem) (w : List Action) (s : State) : Prop extends Inv c mem₀ s where
  wait : s.writer = .wait → s.write_offset ≤ s.encode_offset
  write : s.writer = .write → ∃ u u', w = u ++ .leaveWait :: u' ∧ .write ∉ u' ∧
    s.write_offset ≤ s.encode_offset ∧ (.encodeAdd ∈ u' → s.write_offset + c.iter_len ≤ s.encode_offset)
  add : s.writer = .add → s.write_offset + c.iter_len ≤ s.encode_offset

theorem Paced.step {w : List Action} {a : Action} (h : Paced c mem₀ w s) (hdvd : c.iter_len ∣ c.len)
    (hlen : c.len < 2 ^ 64) (hstep : Ssd.step c a s = some s')
    (hpace : a = .write → ∀ u u', w = u ++ .leaveWait :: u' → .write ∉ u' → .encodeAdd ∈ u') :
    Paced c mem₀ (w ++ [a]) s' := by
  refine ⟨h.toInv.step hdvd hlen hstep, ?_, ?_, ?_⟩ <;>
    obtain ⟨rfl, hpc, -, e, -, rfl⟩ | ⟨rfl, hpc, rfl⟩ | ⟨rfl, hpc, -, hge, rfl⟩ | ⟨rfl, hpc, r, -, rfl⟩ | ⟨rfl, hpc, rfl⟩ :=
      step_cases hstep <;> intro hw
  -- before the wait loop
  · exact h.wait hw
  · have := h.wait hw
    simp only [h.toInv.encode_add hlen hpc]
    omega
  · cases hw
  · cases hw
  · simp only [h.toInv.write_add hdvd hlen (by rw [hpc]; decide)]
    exact h.add hpc
  -- before the call
  · obtain ⟨u, u', rfl, hn, hle, hadd⟩ := h.write hw
    exact ⟨u, u' ++ [.encode], by simp, by simpa using hn, hle, fun hm => hadd (by simpa using hm)⟩
  · obtain ⟨u, u', rfl, hn, hle, -⟩ := h.write hw
    simp only [h.toInv.encode_add hlen hpc]
    exact ⟨u, u' ++ [.encodeAdd], by simp, by simpa using hn, by omega, fun _ => by omega⟩
  · exact ⟨w, [], rfl, List.not_mem_nil, h.wait hpc, fun hm => absurd hm List.not_mem_nil⟩
  · cases hw
  · cases hw
  -- before the add
  · exact h.add hw
  · have := h.add hw
    simp only [h.toInv.encode_add hlen hpc]
    omega
  · cases hw
  · obtain ⟨u, u', hu, hn, -, hadd⟩ := h.write hpc
    exact hadd (hpace rfl u u' hu hn)
  · cases hw

/-- A write is only taken before the writer's call. -/
theorem step_write {c : Sections k n} (h : Ssd.step c .write s = some s') : s.writer = .write := by
  obtain ⟨h, -⟩ | ⟨h, -⟩ | ⟨h, -⟩ | ⟨-, hpc, -⟩ | ⟨h, -⟩ := step_cases h
  · cases h
  · cases h
  · cases h
  · exact hpc
  · cases h

/-- One run. -/
theorem writesSafe_iff {w : List Action} (hiter : 0 < c.iter_len) (hdvd : c.iter_len ∣ c.len) (hlen : c.len < 2 ^ 64)
    (hs : Strips mem (c.in_ ++ c.out) c.len) (hrun : run (Ssd.step c) w (init mem) = some s) :
    WritesSafe c mem w ↔ EncodesBeforeWrites w := by
  constructor
  · intro hsafe w₁ w₂ w₃ hw hn
    by_contra hadd
    rw [hw, run_append] at hrun
    obtain ⟨t, ht, -⟩ := Option.bind_eq_some_iff.1 hrun
    have hle := (hsafe _ _ t hw ht).encoded
    rw [run_append] at ht
    obtain ⟨t₀, -, ht⟩ := Option.bind_eq_some_iff.1 ht
    rw [run_cons] at ht
    obtain ⟨t₁, hleave, ht⟩ := Option.bind_eq_some_iff.1 ht
    -- the encoder is not ahead when the writer leaves, and adds nothing
    have hbehind : t.writer = .write ∧ t.encode_offset ≤ t.write_offset := by
      refine run_inv (I := fun u => u.writer = .write ∧ u.encode_offset ≤ u.write_offset)
        (fun a ha u u' hu hstep => ?_) ?_ ht
      · obtain ⟨-, -, -, e, -, rfl⟩ | ⟨rfl, -⟩ | ⟨-, hpc, -⟩ | ⟨rfl, -⟩ | ⟨-, hpc, -⟩ := step_cases hstep
        · exact hu
        · exact absurd ha hadd
        · rw [hu.1] at hpc
          cases hpc
        · exact absurd ha hn
        · rw [hu.1] at hpc
          cases hpc
      · obtain ⟨h, -⟩ | ⟨h, -⟩ | ⟨-, -, -, hge, rfl⟩ | ⟨h, -⟩ | ⟨h, -⟩ := step_cases hleave
        · cases h
        · cases h
        · exact ⟨rfl, hge⟩
        · cases h
        · cases h
    omega
  · intro hpace w₁ w₂ t hw ht
    have hpaced : Paced c mem w₁ t := by
      refine run_inv_prefix (I := Paced c mem) ?_ (fun v a v' u u' hv hu hstep => ?_) ht
      · exact ⟨init_inv hs, fun _ => Nat.le_refl 0, fun h => (by cases h), fun h => (by cases h)⟩
      · refine hu.step hdvd hlen hstep fun ha x x' hx hn => hpace x x' (v' ++ .write :: w₂) ?_ hn
        rw [hw, hv, ha, hx]
        simp
    rw [hw, run_append, ht] at hrun
    obtain ⟨t', hstep, -⟩ := Option.bind_eq_some_iff.1 (run_cons ▸ hrun)
    have hpc := step_write hstep
    obtain ⟨u, u', hu, hn, -, hadd⟩ := hpaced.write hpc
    exact hpaced.toInv.writeSafe hs hiter hdvd hpc (hadd (hpace u u' w₂ (by rw [hw, hu]) hn))

/-- **When the writes are safe.** In a run of the two sections, every write puts
the encoded segment on the devices exactly when each time the writer has left
its wait loop the encoder finishes a segment before the write. Nothing makes it
do so: unless there is nothing to write, some run has an unsafe write. -/
theorem pipeline_safe_iff (hiter : 0 < c.iter_len) (hdvd : c.iter_len ∣ c.len) (hlen : c.len < 2 ^ 64)
    (hs : Strips mem (c.in_ ++ c.out) c.len) :
    (∀ w s, run (Ssd.step c) w (init mem) = some s → (WritesSafe c mem w ↔ EncodesBeforeWrites w)) ∧
    ((∀ w s, run (Ssd.step c) w (init mem) = some s → WritesSafe c mem w) ↔ c.len = 0) := by
  refine ⟨fun w s hrun => writesSafe_iff hiter hdvd hlen hs hrun, fun hall => ?_, fun h0 w s hrun w₁ w₂ t hw ht => ?_⟩
  · by_contra hne
    -- the writer goes first
    have hle := Nat.le_of_dvd (Nat.pos_of_ne_zero hne) hdvd
    have hst := @advance_strips _ _ mem c.len 0 c.iter_len hs (by omega)
    rw [← advance_append] at hst
    have hput : Returns (c.put { init mem with writer := .write }) fun _ => True :=
      ⟨_, parallelWriteSsd_spec hst.valid 0 [], trivial⟩
    obtain ⟨r, hr, -⟩ := hput
    have hrun : run (Ssd.step c) [.leaveWait, .write] (init mem) =
        some { init mem with writer := .add, log := r.1 } := by
      have h1 : Ssd.step c .leaveWait (init mem) = some { init mem with writer := .write } :=
        if_pos ⟨rfl, Nat.pos_of_ne_zero hne, Nat.lt_irrefl 0⟩
      rw [run_cons, h1, Option.bind_eq_bind, Option.bind_some, run_cons]
      simp only [Ssd.step, if_true, hr, Option.bind_eq_bind, Option.bind_some]
      rfl
    have hpace := (writesSafe_iff hiter hdvd hlen hs hrun).1 (hall _ _ hrun)
    exact absurd (hpace [] [] [] rfl List.not_mem_nil) List.not_mem_nil
  · rw [hw, run_append, ht] at hrun
    obtain ⟨t', hstep, -⟩ := Option.bind_eq_some_iff.1 (run_cons ▸ hrun)
    have hinv := run_inv (I := Inv c mem) (fun a _ u u' hu he => hu.step hdvd hlen he) (init_inv hs) ht
    have := hinv.writing (by rw [step_write hstep]; decide)
    omega

end

/-- One segment of one byte, with one data and one parity strip. -/
def oneSegment (ec : IsaEC 1 1) : Sections 1 1 := ⟨ec, ownBuffers 0 1, ownBuffers 1 1, 1, 1⟩

theorem pipeline_safe_iff_one : ∃ ec : IsaEC 1 1, IsaEC.new default 1 4 = some ec ∧
    (WritesSafe (oneSegment ec) #[#[5], #[0]] [.leaveWait, .encode, .encodeAdd, .write] ↔
      EncodesBeforeWrites [.leaveWait, .encode, .encodeAdd, .write]) := by
  have hret : (IsaEC.new (default : IsaEC 1 1) 1 4 >>= fun ec => run (step (oneSegment ec))
      [.leaveWait, .encode, .encodeAdd, .write] (init #[#[5], #[0]])).isSome := by decide +kernel
  obtain ⟨ec, h⟩ := new_isSome (default : IsaEC 1 1) 1 4 (by decide)
  rw [h, Option.bind_eq_bind, Option.bind_some] at hret
  obtain ⟨s, hrun⟩ := Option.isSome_iff_exists.1 hret
  exact ⟨ec, h, (pipeline_safe_iff (by decide : 0 < 1) (Nat.dvd_refl 1) (by decide : 1 < 2 ^ 64)
    (by decide : Strips #[#[5], #[0]] (ownBuffers 0 1 ++ ownBuffers 1 1) 1)).1 _ s hrun⟩

/-- The writer leaves its wait loop at once, both counters being 0, and writes
the parity strip as it was allocated: 0, where `encode_ptr` computes 5. -/
theorem writes_too_early : ∃ ec : IsaEC 1 1, IsaEC.new default 1 4 = some ec ∧
    (encodePtr ec (ownBuffers 0 1) (ownBuffers 1 1) 1 #[#[5], #[0]]).map Prod.fst = some #[#[5], #[5]] ∧
    (run (step (oneSegment ec)) [.leaveWait, .write] (init #[#[5], #[0]])).map State.log =
      some [⟨.ssd2, 0, [5]⟩, ⟨.ssd3, 0, [0]⟩] ∧
    ¬ WritesSafe (oneSegment ec) #[#[5], #[0]] [.leaveWait, .write] := by
  have hcomp : (do
      let ec ← IsaEC.new (default : IsaEC 1 1) 1 4
      let e ← encodePtr ec (ownBuffers 0 1) (ownBuffers 1 1) 1 #[#[5], #[0]]
      let s ← run (step (oneSegment ec)) [.leaveWait, .write] (init #[#[5], #[0]])
      return (e.1, s.log)) = some (#[#[5], #[5]], [⟨.ssd2, 0, [5]⟩, ⟨.ssd3, 0, [0]⟩]) := by
    decide +kernel
  obtain ⟨ec, h⟩ := new_isSome (default : IsaEC 1 1) 1 4 (by decide)
  rw [h, Option.bind_eq_bind, Option.bind_some] at hcomp
  obtain ⟨e, he, hcomp⟩ := Option.bind_eq_some_iff.1 hcomp
  obtain ⟨s, hs, hcomp⟩ := Option.bind_eq_some_iff.1 hcomp
  obtain ⟨hmem, hlog⟩ := Prod.mk.inj (Option.some.inj hcomp)
  refine ⟨ec, h, by rw [he, Option.map_some, hmem], by rw [hs, Option.map_some, hlog], fun hsafe => ?_⟩
  exact absurd (show 0 + 1 ≤ 0 from (hsafe [.leaveWait] [] _ rfl rfl).encoded) (by decide)

end ErasureCode.Ssd
