import ErasureCode.Ssd.EncodeWrite
import ErasureCode.Ssd.Store

/-!
# How the two sections end

The two sections of `test/para_ssd_read.cpp:96-148` are done when both have left their
loops (`Done`). What the devices hold then depends on the run.

* `stored_iff`: they hold the data and its parity exactly when every write of the run
  was of bytes that had been encoded (`PutsEncoded`).
* `rounds_run`: in some run each write comes after the encoder's call for its segment,
  and in some run before it.
-/
namespace ErasureCode.Ssd

open ErasureCode.Core Isal IsaEC

variable {k n : Nat} {c : Sections k n} {mem₀ : Mem} {s s' t u : State} {w w' : List Action} {a : Action}

/-! ## Writes of a run -/

/-- Both sections have left their loops. -/
def Done (c : Sections k n) (s : State) : Prop :=
  s.encoder = .encode ∧ c.len ≤ s.encode_offset ∧ s.writer = .wait ∧ c.len ≤ s.write_offset

/-- The run `w` from `s` takes a write in state `u`. -/
def Writes (c : Sections k n) (s : State) (w : List Action) (u : State) : Prop :=
  ∃ w₁ w₂, w = w₁ ++ .write :: w₂ ∧ run (step c) w₁ s = some u

theorem writes_cons : Writes c s (a :: w) u ↔ (a = .write ∧ s = u) ∨ ∃ t, step c a s = some t ∧ Writes c t w u := by
  constructor
  · rintro ⟨w₁, w₂, hw, hrun⟩
    cases w₁ with
    | nil =>
      obtain ⟨rfl, rfl⟩ := List.cons.inj hw
      exact .inl ⟨rfl, Option.some.inj hrun⟩
    | cons b w₁ =>
      obtain ⟨rfl, rfl⟩ := List.cons.inj hw
      obtain ⟨t, ht, hrun⟩ := Option.bind_eq_some_iff.1 (run_cons ▸ hrun)
      exact .inr ⟨t, ht, w₁, w₂, rfl, hrun⟩
  · rintro (⟨rfl, rfl⟩ | ⟨t, ht, w₁, w₂, rfl, hrun⟩)
    · exact ⟨[], w, rfl, rfl⟩
    · exact ⟨a :: w₁, w₂, rfl, by rw [run_cons, ht]; exact hrun⟩

theorem not_writes_nil : ¬ Writes c s [] u := by
  rintro ⟨w₁, w₂, hw, -⟩
  exact List.append_ne_nil_of_right_ne_nil w₁ (List.cons_ne_nil _ _) hw.symm

theorem writes_append (h : run (step c) w s = some t) : Writes c s (w ++ w') u ↔ Writes c s w u ∨ Writes c t w' u := by
  induction w generalizing s with
  | nil =>
    cases h
    exact (or_iff_right not_writes_nil).symm
  | cons a w ih =>
    obtain ⟨s₁, hs₁, h⟩ := Option.bind_eq_some_iff.1 (run_cons ▸ h)
    have hstep : ∀ l, (∃ t, step c a s = some t ∧ Writes c t l u) ↔ Writes c s₁ l u := fun l => by
      rw [hs₁]
      simp
    rw [List.cons_append, writes_cons, writes_cons, hstep, hstep, ih h, or_assoc]

/-- At a write, the writer is before its call. -/
theorem Writes.writing (h : Writes c s w u) (hrun : run (step c) w s = some s') :
    u.writer = .write ∧ ∀ I : State → Prop, I s → (∀ a t t', I t → step c a t = some t' → I t') → I u := by
  obtain ⟨w₁, w₂, rfl, hu⟩ := h
  rw [run_append, hu] at hrun
  obtain ⟨u', hstep, -⟩ := Option.bind_eq_some_iff.1 (run_cons ▸ hrun)
  exact ⟨step_write hstep, fun I hs hI => run_inv (fun a _ t t' => hI a t t') hs hu⟩

/-- The invariant, at a write. -/
theorem Writes.inv (h : Writes c (init mem₀) w u) (hrun : run (step c) w (init mem₀) = some s)
    (hs : Strips mem₀ (c.in_ ++ c.out) c.len) (hdvd : c.iter_len ∣ c.len) (hlen : c.len < 2 ^ 64) :
    Inv c mem₀ u ∧ u.write_offset + c.iter_len ≤ c.len := by
  obtain ⟨hpc, hinv⟩ := h.writing hrun
  have hu := hinv (Inv c mem₀) (init_inv hs) fun a t t' ht => ht.step hdvd hlen
  exact ⟨hu, add_le_of_dvd hu.writeDvd hdvd (hu.writing (by rw [hpc]; decide))⟩

/-! ## What the devices hold -/

/-- A call of `parallel_write_ssd` puts its segment of every strip on the devices. -/
theorem put_stores (hkn : k + n ≤ 256) (hs : Strips s.mem (c.in_ ++ c.out) c.len)
    (hin : s.write_offset + c.iter_len ≤ c.len) (hlen : c.len ≤ strip_offset) {r : List Pwrite × Bool}
    (h : c.put s = some r) (disk : Disk) {i q : Nat} (hi : i < k + n) (hq : q < strip_offset) :
    Store.of k (onDisk disk r.1) i q =
      if s.write_offset ≤ q ∧ q < s.write_offset + c.iter_len then stripByte s.mem (c.in_ ++ c.out) i q
      else Store.of k (onDisk disk s.log) i q := by
  have hst := advance_strips hs hin
  rw [← advance_append] at hst
  rw [Sections.put, parallelWriteSsd_spec hst.valid] at h
  cases h
  rw [onDisk_append, Store.of, Store.of, onDisk]
  have hmem : ∀ x, x ∈ ((List.range (k + n)).map fun i => stripWrite k i s.write_offset
      (bytesAt s.mem (cell (advance c.in_ s.write_offset ++ advance c.out s.write_offset) i) c.iter_len)).map
        Pwrite.region ↔ ∃ i, i < k + n ∧ (stripWrite k i s.write_offset
          (bytesAt s.mem ((cell (c.in_ ++ c.out) i).add s.write_offset) c.iter_len)).region = x := fun x => by
    simp only [List.mem_map, List.mem_range, exists_exists_and_eq_and, advance_append]
    exact exists_congr fun i => and_congr_right fun hi => by rw [cell_advance hi]
  have hputs := fun i (hi : i < k + n) dev x b => @stripWrite_puts k n s.mem hkn i s.write_offset c.iter_len hi
    (Nat.le_trans hin hlen) (c.in_ ++ c.out) dev x b
  split
  · rename_i hcov
    obtain ⟨p, rfl⟩ := Nat.exists_eq_add_of_le hcov.1
    refine writes_read ⟨_, (hmem _).2 ⟨i, hi, rfl⟩, _, (hputs i hi _ _ _).2 ⟨p, by omega, rfl, rfl, rfl⟩⟩
      fun x hx b hb => ?_
    obtain ⟨i', hi', rfl⟩ := (hmem x).1 hx
    obtain ⟨p', hp', hdev, hpos, rfl⟩ := (hputs i' hi' _ _ _).1 hb
    obtain ⟨rfl, hpp⟩ := position_inj (by omega) hq hdev hpos
    rw [hpp]
  · rename_i hcov
    refine writes_frame fun x hx b hb => hcov ?_
    obtain ⟨i', hi', rfl⟩ := (hmem x).1 hx
    obtain ⟨p', hp', hdev, hpos, rfl⟩ := (hputs i' hi' _ _ _).1 hb
    obtain ⟨rfl, rfl⟩ := position_inj (by omega) hq hdev hpos
    omega

/-- How far the writer has come, the call before its add included. -/
def writtenTo (c : Sections k n) (s : State) : Nat :=
  match s.writer with
  | .add => s.write_offset + c.iter_len
  | _ => s.write_offset

/-- After the run `w`, each segment before `writtenTo` has been written, and is on the
devices as it was at its write. -/
structure Logged (c : Sections k n) (mem₀ : Mem) (disk : Disk) (w : List Action) (s : State) : Prop
    extends Inv c mem₀ s where
  reached : run (step c) w (init mem₀) = some s
  cover : ∀ p, p < writtenTo c s → ∃ u, Writes c (init mem₀) w u ∧ u.write_offset ≤ p ∧ p < u.write_offset + c.iter_len
  each : ∀ u, Writes c (init mem₀) w u → u.write_offset + c.iter_len ≤ writtenTo c s ∧
    ∀ r, r < k + n → ∀ p, u.write_offset ≤ p → p < u.write_offset + c.iter_len →
      Store.of k (onDisk disk s.log) r p = stripByte u.mem (c.in_ ++ c.out) r p

theorem writes_snoc (h : run (step c) w s = some t) : Writes c s (w ++ [a]) u ↔ Writes c s w u ∨ (a = .write ∧ t = u) := by
  rw [writes_append h, writes_cons]
  simp [not_writes_nil]

/-- A step that is not a write. -/
theorem Logged.silent {disk : Disk} (h : Logged c mem₀ disk w s) (hinv : Inv c mem₀ s') (hstep : step c a s = some s')
    (ha : a ≠ .write) (hlog : s'.log = s.log) (hto : writtenTo c s' = writtenTo c s) :
    Logged c mem₀ disk (w ++ [a]) s' := by
  have hwrites : ∀ u, Writes c (init mem₀) (w ++ [a]) u ↔ Writes c (init mem₀) w u := fun u => by
    rw [writes_snoc h.reached, or_iff_left fun hc => ha hc.1]
  refine ⟨hinv, ?_, fun p hp => ?_, fun u hu => ?_⟩
  · rw [run_append, h.reached, Option.bind_eq_bind, Option.bind_some, run_cons, hstep]
    rfl
  · rw [hto] at hp
    simpa only [hwrites] using h.cover p hp
  · rw [hto, hlog]
    exact h.each u ((hwrites u).1 hu)

theorem Logged.step (hkn : k + n ≤ 256) (hlen : c.len ≤ strip_offset) (hdvd : c.iter_len ∣ c.len) {disk : Disk}
    (h : Logged c mem₀ disk w s) (hstep : step c a s = some s') : Logged c mem₀ disk (w ++ [a]) s' := by
  have hlen64 : c.len < 2 ^ 64 := Nat.lt_of_le_of_lt hlen (by decide)
  have hinv := h.toInv.step hdvd hlen64 hstep
  obtain ⟨rfl, -, -, e, -, rfl⟩ | ⟨rfl, -, rfl⟩ | ⟨rfl, hpc, -, -, rfl⟩ | ⟨rfl, hpc, r, hr, rfl⟩ | ⟨rfl, hpc, rfl⟩ :=
    step_cases hstep
  · exact h.silent hinv hstep (by decide) rfl rfl
  · exact h.silent hinv hstep (by decide) rfl rfl
  · exact h.silent hinv hstep (by decide) rfl (by simp only [writtenTo, hpc])
  · have hin := add_le_of_dvd h.writeDvd hdvd (h.writing (by rw [hpc]; decide))
    have hstore := fun i hi q hq => @put_stores k n c s hkn h.strips hin hlen r hr disk i q hi hq
    have hto : writtenTo c s = s.write_offset := by rw [writtenTo, hpc]
    refine ⟨hinv, ?_, fun p hp => ?_, fun u hu => ?_⟩
    · rw [run_append, h.reached, Option.bind_eq_bind, Option.bind_some, run_cons, hstep]
      rfl
    · simp only [writes_snoc h.reached, true_and]
      by_cases hps : p < s.write_offset
      · obtain ⟨u, hu, hseg⟩ := h.cover p (by rw [hto]; exact hps)
        exact ⟨u, .inl hu, hseg⟩
      · exact ⟨s, .inr rfl, Nat.not_lt.1 hps, hp⟩
    · rw [writes_snoc h.reached] at hu
      rcases hu with hu | ⟨-, rfl⟩
      · obtain ⟨hle, hbytes⟩ := h.each u hu
        rw [hto] at hle
        refine ⟨Nat.le_trans hle (Nat.le_add_right _ _), fun r hr p h1 h2 => ?_⟩
        rw [hstore r hr p (by omega), if_neg (by omega), hbytes r hr p h1 h2]
      · exact ⟨Nat.le_refl _, fun r hr p h1 h2 => by rw [hstore r hr p (by omega), if_pos ⟨h1, h2⟩]⟩
  · exact h.silent hinv hstep (by decide) rfl (by
      simp only [writtenTo, hpc, h.toInv.write_add hdvd hlen64 (by rw [hpc]; decide)])

theorem run_logged (hkn : k + n ≤ 256) (hlen : c.len ≤ strip_offset) (hdvd : c.iter_len ∣ c.len)
    (hs : Strips mem₀ (c.in_ ++ c.out) c.len) (disk : Disk) (hrun : run (Ssd.step c) w (init mem₀) = some s) :
    Logged c mem₀ disk w s := by
  refine run_inv_prefix (I := Logged c mem₀ disk) ?_ (fun w₁ a w₂ t t' _ ht hstep => ht.step hkn hlen hdvd hstep) hrun
  exact ⟨init_inv hs, rfl, fun p hp => absurd hp (Nat.not_lt_zero p), fun u hu => absurd hu not_writes_nil⟩

/-! ## Whether that is the parity -/

/-- Every write of the run is of bytes as they are to be. -/
def PutsEncoded (c : Sections k n) (mem₀ : Mem) (w : List Action) : Prop :=
  ∀ u, Writes c (init mem₀) w u → ∀ r, r < k + n → ∀ p, u.write_offset ≤ p → p < u.write_offset + c.iter_len →
    stripByte u.mem (c.in_ ++ c.out) r p = encodedStrips c.ec mem₀ c.in_ c.out r p

/-- Blocks that fill a segment. -/
theorem blocksLen_eq (hdvd : c.ec.maxSize ∣ c.iter_len) (hlt : c.iter_len < 2 ^ 31) : c.blocksLen = c.iter_len := by
  have hB := Nat.div_le_self c.iter_len c.ec.maxSize
  rw [Sections.blocksLen, toInt_eq (by omega), Int.toNat_natCast, Nat.div_mul_cancel hdvd]

/-- The `int` products of a segment below 2^31 fit. -/
theorem fits_of_lt (hM : 0 < c.ec.maxSize) (hlt : c.iter_len < 2 ^ 31) : c.Fits := by
  refine ⟨hM, fun b hb => ?_⟩
  have hle := Nat.mul_le_mul_right c.ec.maxSize (Nat.le_of_lt (Nat.lt_of_lt_of_le hb (toInt_le _)))
  exact Nat.lt_of_le_of_lt (Nat.le_trans hle (Nat.div_mul_le_self _ _)) hlt

/-- The strips, in any state of a run. -/
theorem Inv.byte_eq (h : Inv c mem₀ s) (hiter : 0 < c.iter_len) (hblocks : c.blocksLen = c.iter_len) {r p : Nat}
    (hr : r < k + n) (hp : p < c.len) :
    stripByte s.mem (c.in_ ++ c.out) r p =
      if p < encodedTo c s then encodedStrips c.ec mem₀ c.in_ c.out r p else stripByte mem₀ (c.in_ ++ c.out) r p := by
  have hmod := Nat.mod_lt p hiter
  rw [h.bytes r hr p hp, hblocks, encodedStrips]
  by_cases hrk : r < k
  · rw [if_neg (by omega), if_pos hrk, ite_self]
  · exact if_neg hrk ▸ if_congr (by omega) rfl rfl

/-- Parity that is right at the start is right at every write. -/
theorem putsEncoded_of_same (hs : Strips mem₀ (c.in_ ++ c.out) c.len) (hdvd : c.iter_len ∣ c.len) (hlen : c.len < 2 ^ 64)
    (hiter : 0 < c.iter_len) (hblocks : c.blocksLen = c.iter_len)
    (hsame : ∀ r, r < k + n → ∀ p, p < c.len →
      stripByte mem₀ (c.in_ ++ c.out) r p = encodedStrips c.ec mem₀ c.in_ c.out r p)
    (hrun : run (Ssd.step c) w (init mem₀) = some s) : PutsEncoded c mem₀ w := by
  intro u hu r hr p h1 h2
  obtain ⟨hinv, hin⟩ := hu.inv hrun hs hdvd hlen
  have hp : p < c.len := by omega
  rw [hinv.byte_eq hiter hblocks hr hp, hsame r hr p hp, ite_self]

/-- Once the sections are done, the strips are as they are to be. -/
theorem Done.byte_eq (hdone : Done c s) (h : Inv c mem₀ s) (hiter : 0 < c.iter_len) (hblocks : c.blocksLen = c.iter_len)
    {r p : Nat} (hr : r < k + n) (hp : p < c.len) :
    stripByte s.mem (c.in_ ++ c.out) r p = encodedStrips c.ec mem₀ c.in_ c.out r p := by
  obtain ⟨hpc, hle, -⟩ := hdone
  rw [h.byte_eq hiter hblocks hr hp, if_pos (by rw [encodedTo, hpc]; exact Nat.lt_of_lt_of_le hp hle)]

/-- **What the devices hold in the end** is the data and its parity exactly when every
write was of encoded bytes. -/
theorem stored_iff (hkn : k + n ≤ 256) (hlen : c.len ≤ strip_offset) (hdvd : c.iter_len ∣ c.len)
    (hs : Strips mem₀ (c.in_ ++ c.out) c.len) (disk : Disk) (hrun : run (Ssd.step c) w (init mem₀) = some s)
    (hdone : Done c s) :
    (∀ r, r < k + n → ∀ p, p < c.len →
      Store.of k (onDisk disk s.log) r p = encodedStrips c.ec mem₀ c.in_ c.out r p) ↔ PutsEncoded c mem₀ w := by
  have h := run_logged hkn hlen hdvd hs disk hrun
  constructor
  · intro hall u hu r hr p h1 h2
    obtain ⟨-, hin⟩ := hu.inv hrun hs hdvd (Nat.lt_of_le_of_lt hlen (by decide))
    rw [← (h.each u hu).2 r hr p h1 h2, hall r hr p (by omega)]
  · intro hputs r hr p hp
    obtain ⟨-, -, hpc, hle⟩ := hdone
    obtain ⟨u, hu, h1, h2⟩ := h.cover p (by rw [writtenTo, hpc]; exact Nat.lt_of_lt_of_le hp hle)
    rw [(h.each u hu).2 r hr p h1 h2, hputs u hu r hr p h1 h2]

/-! ## Runs that end -/

/-- One segment in both sections, the call of the writer before that of the encoder, or
after it. -/
def roundActions (early : Bool) : List Action :=
  if early then [.leaveWait, .write, .encode, .encodeAdd, .writeAdd]
  else [.leaveWait, .encode, .write, .encodeAdd, .writeAdd]

/-- Both sections are at the start of the segment at `off`. -/
def atSegment (off : Nat) (mem : Mem) (log : List Pwrite) : State := ⟨off, off, .encode, .wait, mem, log⟩

/-- At its writes, the encoder is at the start of the segment, or has encoded it. -/
def WritesAt (c : Sections k n) (early : Bool) (s : State) (w : List Action) : Prop :=
  ∀ u, Writes c s w u → encodedTo c u = u.write_offset + if early then 0 else c.iter_len

theorem round_run {off : Nat} {mem : Mem} {log : List Pwrite} (h : Inv c mem₀ (atSegment off mem log))
    (hin : off + c.iter_len ≤ c.len) (hiter : 0 < c.iter_len) (hlen : c.len < 2 ^ 64) (hfit : c.Fits) (early : Bool) :
    WritesAt c early (atSegment off mem log) (roundActions early) ∧
      Returns (run (Ssd.step c) (roundActions early) (atSegment off mem log)) fun s' =>
        ∃ mem' log', s' = atSegment (off + c.iter_len) mem' log' := by
  have hst := advance_strips h.strips hin
  rw [← advance_append] at hst
  obtain ⟨e, he, hes, -⟩ := encode_segment h.strips hin hfit
  have hes' := advance_strips hes hin
  rw [← advance_append] at hes'
  have hadd : addSize off c.iter_len = off + c.iter_len := addSize_eq (by omega)
  have hlt : off < c.len := by omega
  change c.ec.encodePtr _ _ _ mem = some e at he
  unfold atSegment
  cases early with
  | true =>
    obtain ⟨r, hr⟩ : ∃ r, c.put ⟨off, off, .encode, .write, mem, log⟩ = some r := ⟨_, parallelWriteSsd_spec hst.valid off log⟩
    constructor
    · simp [WritesAt, roundActions, writes_cons, not_writes_nil, Ssd.step, encodedTo, hlt]
    · refine ⟨_, ?_, e.1, r.1, rfl⟩
      simp [roundActions, Ssd.step, hlt, hr, he, hadd]
  | false =>
    obtain ⟨r, hr⟩ : ∃ r, c.put ⟨off, off, .add, .write, e.1, log⟩ = some r := ⟨_, parallelWriteSsd_spec hes'.valid off log⟩
    constructor
    · simp [WritesAt, roundActions, writes_cons, not_writes_nil, Ssd.step, encodedTo, hlt, he]
    · refine ⟨_, ?_, e.1, r.1, rfl⟩
      simp [roundActions, Ssd.step, hlt, hr, he, hadd]

/-- So many segments, one after the other. -/
theorem rounds_run (hs : Strips mem₀ (c.in_ ++ c.out) c.len) (hdvd : c.iter_len ∣ c.len) (hiter : 0 < c.iter_len)
    (hlen : c.len < 2 ^ 64) (hfit : c.Fits) (early : Bool) {j : Nat} (hj : j * c.iter_len ≤ c.len) :
    ∃ w mem log, run (Ssd.step c) w (init mem₀) = some (atSegment (j * c.iter_len) mem log) ∧
      WritesAt c early (init mem₀) w := by
  induction j with
  | zero => exact ⟨[], mem₀, [], by rw [Nat.zero_mul]; rfl, fun u hu => absurd hu not_writes_nil⟩
  | succ j ih =>
    rw [Nat.succ_mul] at hj ⊢
    obtain ⟨w, mem, log, hrun, hw⟩ := ih (by omega)
    have hinv := run_inv (I := Inv c mem₀) (fun a _ t t' ht => ht.step hdvd hlen) (init_inv hs) hrun
    obtain ⟨hw', s', hround, mem', log', rfl⟩ := round_run hinv hj hiter hlen hfit early
    refine ⟨w ++ roundActions early, mem', log', ?_, fun u hu => ?_⟩
    · rw [run_append, hrun, Option.bind_eq_bind, Option.bind_some, hround]
    · rcases (writes_append hrun).1 hu with hu | hu
      · exact hw u hu
      · exact hw' u hu

/-- A run of all segments. -/
theorem exists_done (hs : Strips mem₀ (c.in_ ++ c.out) c.len) (hdvd : c.iter_len ∣ c.len) (hiter : 0 < c.iter_len)
    (hlen : c.len < 2 ^ 64) (hfit : c.Fits) (early : Bool) :
    ∃ w s, run (Ssd.step c) w (init mem₀) = some s ∧ Done c s ∧ WritesAt c early (init mem₀) w := by
  obtain ⟨w, mem, log, hrun, hw⟩ := rounds_run hs hdvd hiter hlen hfit early (Nat.div_mul_le_self c.len c.iter_len)
  rw [Nat.div_mul_cancel hdvd] at hrun
  exact ⟨w, _, hrun, ⟨rfl, Nat.le_refl _, rfl, Nat.le_refl _⟩, hw⟩

/-- Whether the writes of such a run are of encoded bytes. -/
theorem putsEncoded_iff (hs : Strips mem₀ (c.in_ ++ c.out) c.len) (hkn : k + n ≤ 256) (hlen : c.len ≤ strip_offset)
    (hdvd : c.iter_len ∣ c.len) (hiter : 0 < c.iter_len) (hblocks : c.blocksLen = c.iter_len) {early : Bool}
    (hrun : run (Ssd.step c) w (init mem₀) = some s) (hdone : Done c s) (hw : WritesAt c early (init mem₀) w) :
    PutsEncoded c mem₀ w ↔ (early → ∀ r, r < k + n → ∀ p, p < c.len →
      stripByte mem₀ (c.in_ ++ c.out) r p = encodedStrips c.ec mem₀ c.in_ c.out r p) := by
  have hlen64 : c.len < 2 ^ 64 := Nat.lt_of_le_of_lt hlen (by decide)
  have hbyte : ∀ u, Writes c (init mem₀) w u → ∀ r, r < k + n → ∀ p, u.write_offset ≤ p →
      p < u.write_offset + c.iter_len → stripByte u.mem (c.in_ ++ c.out) r p =
        if early then stripByte mem₀ (c.in_ ++ c.out) r p else encodedStrips c.ec mem₀ c.in_ c.out r p := by
    intro u hu r hr p h1 h2
    obtain ⟨hinv, hin⟩ := hu.inv hrun hs hdvd hlen64
    rw [hinv.byte_eq hiter hblocks hr (by omega), hw u hu]
    cases early with
    | true => exact if_neg (by simpa using h1)
    | false => exact if_pos (by simpa using h2)
  constructor
  · rintro hputs rfl r hr p hp
    obtain ⟨-, -, hpc, hle⟩ := hdone
    obtain ⟨u, hu, h1, h2⟩ := (run_logged hkn hlen hdvd hs (fun _ _ => 0) hrun).cover p
      (by rw [writtenTo, hpc]; exact Nat.lt_of_lt_of_le hp hle)
    rw [← hputs u hu r hr p h1 h2, hbyte u hu r hr p h1 h2, if_pos rfl]
  · intro h u hu r hr p h1 h2
    obtain ⟨-, hin⟩ := hu.inv hrun hs hdvd hlen64
    rw [hbyte u hu r hr p h1 h2]
    cases early with
    | true => exact h rfl r hr p (by omega)
    | false => rfl

/-- **How the runs that end do.** In some the writes are all of encoded bytes; in some
they are not, unless the parity is right at the start. -/
theorem done_runs (hs : Strips mem₀ (c.in_ ++ c.out) c.len) (hkn : k + n ≤ 256) (hlen : c.len ≤ strip_offset)
    (hdvd : c.iter_len ∣ c.len) (hiter : 0 < c.iter_len) (hblocks : c.blocksLen = c.iter_len) (hfit : c.Fits) :
    (∃ w s, run (Ssd.step c) w (init mem₀) = some s ∧ Done c s ∧ PutsEncoded c mem₀ w) ∧
    ((∃ w s, run (Ssd.step c) w (init mem₀) = some s ∧ Done c s ∧ ¬ PutsEncoded c mem₀ w) ↔
      ∃ r, r < k + n ∧ ∃ p, p < c.len ∧
        stripByte mem₀ (c.in_ ++ c.out) r p ≠ encodedStrips c.ec mem₀ c.in_ c.out r p) := by
  have hlen64 : c.len < 2 ^ 64 := Nat.lt_of_le_of_lt hlen (by decide)
  refine ⟨?_, fun ⟨w, s, hrun, _, hputs⟩ => ?_, fun ⟨r, hr, p, hp, hne⟩ => ?_⟩
  · obtain ⟨w, s, hrun, hdone, hw⟩ := exists_done hs hdvd hiter hlen64 hfit false
    exact ⟨w, s, hrun, hdone, (putsEncoded_iff hs hkn hlen hdvd hiter hblocks hrun hdone hw).2 fun h => nomatch h⟩
  · by_contra hno
    refine hputs (putsEncoded_of_same hs hdvd hlen64 hiter hblocks (fun r hr p hp => ?_) hrun)
    by_contra hne
    exact hno ⟨r, hr, p, hp, hne⟩
  · obtain ⟨w, s, hrun, hdone, hw⟩ := exists_done hs hdvd hiter hlen64 hfit true
    refine ⟨w, s, hrun, hdone, fun hputs => hne ?_⟩
    exact (putsEncoded_iff hs hkn hlen hdvd hiter hblocks hrun hdone hw).1 hputs rfl r hr p hp

end ErasureCode.Ssd
