import ErasureCode.IsaEC.Histories

/-!
# The block loops under any schedule

The rounds of the parallel loops of `encode_ptr`, `decode`, `decode_ptr` and
`cache_decode_ptr` fill pointer arrays of their own and then store one
destination byte after another. Here a round is a thread whose actions are
these stores, each computed from the source bytes then in memory, and the
rounds are interleaved in any way.

Rounds touch different windows of the strips, and the strips share no byte; so
stores of different rounds commute, even where a strip is both a source and a
destination (`windowStep_comm`). Hence every schedule leaves the strips as the
rounds in order do (`schedule_independent`).
-/
namespace ErasureCode.IsaEC

open ErasureCode.Core Isal

/-- The destination bytes of one window, in the order of the encoder's loops. -/
def stores (dests M : Nat) : List (Nat × Nat) :=
  (List.range dests).flatMap fun l => (List.range M).map fun i => (l, i)

/-- The stores of round `b` of `B`: round, destination, byte. -/
def rounds (dests M B b : Nat) : List (Nat × Nat × Nat) :=
  if b < B then (stores dests M).map (Prod.mk b) else []

theorem mem_rounds {dests M B b : Nat} {a : Nat × Nat × Nat} (h : a ∈ rounds dests M B b) :
    a.1 = b ∧ b < B ∧ a.2.1 < dests ∧ a.2.2 < M := by
  unfold rounds stores at h
  split at h
  · rename_i hb
    simp only [List.mem_map, List.mem_flatMap, List.mem_range] at h
    obtain ⟨_, ⟨l, hl, i, hi, rfl⟩, rfl⟩ := h
    exact ⟨rfl, hb, hl, hi⟩
  · exact absurd h List.not_mem_nil

/-! ## Windows -/

section
variable {c N srcs dests M L B : Nat} {v : Vector Ptr c} {tbl : Vector UInt8 N} {σ τ : Nat → Nat} {mem : Mem}

/-- A store of round `a.1` on its window. -/
def windowStep {c N : Nat} (M srcs : Nat) (tbl : Vector UInt8 N) (v : Vector Ptr c) (σ τ : Nat → Nat)
    (a : Nat × Nat × Nat) (mem : Mem) : Option Mem :=
  encodeByte srcs tbl (fun j => some ((cell v (σ j)).add (a.1 * M)))
    (fun l => some ((cell v (τ l)).add (a.1 * M))) a.2.1 a.2.2 mem

/-- The byte it stores. -/
def windowByte {c N : Nat} (M srcs : Nat) (tbl : Vector UInt8 N) (v : Vector Ptr c) (σ : Nat → Nat)
    (a : Nat × Nat × Nat) (mem : Mem) : UInt8 :=
  dotBytes srcs (coef tbl srcs a.2.1) fun j => stripByte mem v (σ j) (a.1 * M + a.2.2)

/-- A window is its stores, one after another. -/
theorem window_eq_run (b : Nat) :
    window M srcs dests tbl v σ τ (b * M) mem =
      run (windowStep M srcs tbl v σ τ) ((stores dests M).map (Prod.mk b)) mem := by
  unfold window ecEncodeData stores
  rw [run_map, run_flatMap, run_range]
  refine forUp_congr fun l t _ _ => ?_
  rw [run_map, run_range]
  rfl

variable (hs : Strips mem v L) (hσ : ∀ j, j < srcs → σ j < c) (hτ : ∀ l, l < dests → τ l < c)
  (htbl : dests * srcs * 32 ≤ N)

include hs hσ hτ htbl in
theorem windowStep_spec {a : Nat × Nat × Nat} (hl : a.2.1 < dests) (hp : a.1 * M + a.2.2 < L) :
    Returns (windowStep M srcs tbl v σ τ a mem) fun mem' =>
      Written mem mem' (fun q => q = (cell v (τ a.2.1)).add (a.1 * M + a.2.2)) fun _ =>
        windowByte M srcs tbl v σ a mem := by
  have h : Returns (windowStep M srcs tbl v σ τ a mem) _ := encodeByte_spec
    (fun j => (cell v (σ j)).add (a.1 * M)) (fun l => (cell v (τ l)).add (a.1 * M)) a.2.2 mem htbl
    (fun _ _ => rfl) hl rfl
    (fun j hj => by rw [Ptr.add_add]; exact hs.valid _ (hσ j hj) _ hp)
    (by rw [Ptr.add_add]; exact hs.valid _ (hτ _ hl) _ hp)
  simp only [Ptr.add_add] at h
  exact h

include hs hσ hτ htbl in
/-- Stores of different rounds commute. -/
theorem windowStep_comm {a a' : Nat × Nat × Nat} (hne : a.1 ≠ a'.1) (hl : a.2.1 < dests) (hl' : a'.2.1 < dests)
    (hi : a.2.2 < M) (hi' : a'.2.2 < M) (hp : a.1 * M + a.2.2 < L) (hp' : a'.1 * M + a'.2.2 < L) :
    (windowStep M srcs tbl v σ τ a mem >>= windowStep M srcs tbl v σ τ a') =
      (windowStep M srcs tbl v σ τ a' mem >>= windowStep M srcs tbl v σ τ a) := by
  -- the windows do not meet
  have hpos : a.1 * M + a.2.2 ≠ a'.1 * M + a'.2.2 := fun e => hne (pos_inj hi hi' e).1
  have hcell : ∀ r r', r < c → r' < c →
      (cell v r).add (a.1 * M + a.2.2) ≠ (cell v r').add (a'.1 * M + a'.2.2) := fun r r' hr hr' e =>
    hpos (hs.add_inj hr hr' hp hp' e).2
  refine written_comm (x := windowByte M srcs tbl v σ a mem) (y := windowByte M srcs tbl v σ a' mem)
    (hcell _ _ (hτ _ hl) (hτ _ hl')) (fun t ht => ?_) fun t ht => ?_
  · rcases ht with rfl | ht
    · exact windowStep_spec hs hσ hτ htbl hl hp
    · refine (windowStep_spec (hs.of_isSome fun _ => ht.isSome) hσ hτ htbl hl hp).mono fun t' h =>
        h.congrVal fun _ _ => dotBytes_congr (fun _ _ => rfl) fun j hj => ht.byteAt_frame ?_
      exact hcell _ _ (hσ j hj) (hτ _ hl')
  · rcases ht with rfl | ht
    · exact windowStep_spec hs hσ hτ htbl hl' hp'
    · refine (windowStep_spec (hs.of_isSome fun _ => ht.isSome) hσ hτ htbl hl' hp').mono fun t' h =>
        h.congrVal fun _ _ => dotBytes_congr (fun _ _ => rfl) fun j hj => ht.byteAt_frame ?_
      exact (hcell _ _ (hτ _ hl) (hσ j hj)).symm

variable (σ) in
include hs hσ hτ htbl in
/-- Any interleaving of the rounds ends like the rounds in order. -/
theorem windows_schedule (hL : B * M ≤ L) {w : List (Nat × Nat × Nat × Nat)}
    (hw : Schedules (rounds dests M B) w) :
    run (windowStep M srcs tbl v σ τ) (w.map Prod.snd) mem =
      forUp 0 B mem fun b t => window M srcs dests tbl v σ τ (b * M) t := by
  have hin : ∀ b, ∀ a ∈ rounds dests M B b, a.1 * M + a.2.2 < L := fun b a ha => by
    obtain ⟨rfl, hb, _, hi⟩ := mem_rounds ha
    exact Nat.lt_of_lt_of_le (pos_lt hb hi) hL
  rw [run_schedules (I := fun t => Strips t v L) hw List.nodup_range (fun b hb => ?_) (fun b a ha t t' ht he => ?_)
    (fun b b' hbb a ha a' ha' t ht => ?_) hs]
  · rw [run_flatMap, run_range]
    refine forUp_congr fun b t _ hb => ?_
    rw [window_eq_run, rounds, if_pos hb]
  · rw [List.mem_range]
    by_contra hc
    exact hb (if_neg hc)
  · obtain ⟨_, _, hl, _⟩ := mem_rounds ha
    exact ht.of_isSome fun _ => ((windowStep_spec ht hσ hτ htbl hl (hin b a ha)).of_eq he).isSome
  · obtain ⟨rfl, _, hl, hi⟩ := mem_rounds ha
    obtain ⟨rfl, _, hl', hi'⟩ := mem_rounds ha'
    exact windowStep_comm ht hσ hτ htbl hbb hl hl' hi hi' (hin _ a ha) (hin _ a' ha')

variable (σ) in
include hs hσ hτ htbl in
/-- The rounds in order run into no fault. -/
theorem windows_return (hL : B * M ≤ L) :
    Returns (forUp 0 B mem fun b t => window M srcs dests tbl v σ τ (b * M) t) fun t => Strips t v L := by
  refine Returns.forUp (fun _ t => Strips t v L) (Nat.zero_le B) hs fun b t _ hb ht => ?_
  rw [window_eq_run]
  refine Returns.run (fun a ha u hu => ?_) ht
  have ha' : a ∈ rounds dests M B b := by rwa [rounds, if_pos hb]
  obtain ⟨rfl, _, hl, hi⟩ := mem_rounds ha'
  exact (windowStep_spec hu hσ hτ htbl hl (Nat.lt_of_lt_of_le (pos_lt hb hi) hL)).mono fun u' h =>
    hu.of_isSome fun _ => h.isSome

end

/-! ## The methods' rounds -/

section
variable {k n err_num : Nat} {ec ec' : IsaEC k n} {matrix : Vector Ptr (k + n)}
  {err_list : Vector UInt8 err_num} {in_ : Vector Ptr k} {out : Vector Ptr n} {mem : Mem}
  {size maxSize thread_num : Nat}

/-- One store of round `a.1` of `encode_ptr`.
mirrors src/IsaEC.cpp:110-122 -/
def encodePtrStep (ec : IsaEC k n) (in_ : Vector Ptr k) (out : Vector Ptr n) (a : Nat × Nat × Nat)
    (mem : Mem) : Option Mem := do
  let index ← mulInt a.1 ec.maxSize
  let frag_ptrs ← fillPtrs (k + n) (fragPtr in_ out index)
  encodeByte k ec.g_tbls (slot frag_ptrs) (fun l => slot frag_ptrs (k + l)) a.2.1 a.2.2 mem

/-- One store of round `a.1` of a decode loop on the table `tbl`.
mirrors src/IsaEC.cpp:140-155,174-188,211-225 -/
def recoverStep (ec : IsaEC k n) (tbl : Vector UInt8 (n * k * 32)) (matrix : Vector Ptr (k + n))
    (err_list : Vector UInt8 err_num) (a : Nat × Nat × Nat) (mem : Mem) : Option Mem := do
  let recover_srcs ← fillPtrs k fun i => do stripPtr matrix (a.1 * ec.maxSize) (← ec.decode_index[i]?)
  let recover_outp ← fillPtrs err_num fun i => do stripPtr matrix (a.1 * ec.maxSize) (← err_list[i]?)
  encodeByte k tbl (slot recover_srcs) (slot recover_outp) a.2.1 a.2.2 mem

/-- Every source the decoders take is a strip. -/
def IndexValid (ec : IsaEC k n) : Prop := ∀ i, i < k → (cell ec.decode_index i).toNat < k + n

theorem encodePtrStep_eq {a : Nat × Nat × Nat} (hb : a.1 * ec.maxSize < 2 ^ 31) (hl : a.2.1 < n) :
    encodePtrStep ec in_ out a mem =
      windowStep ec.maxSize k ec.g_tbls (in_ ++ out) (fun j => j) (fun l => k + l) a mem := by
  obtain ⟨p, hp, hslot⟩ := fillPtrs_spec (f := fragPtr in_ out (a.1 * ec.maxSize)) fun i hi =>
    fragPtr_eq in_ out (a.1 * ec.maxSize) hi
  unfold encodePtrStep
  rw [mulInt_eq hb, Option.bind_eq_bind, Option.bind_some, hp, Option.bind_eq_bind, Option.bind_some]
  exact encodeByte_congr (fun j hj => hslot j (by omega)) (hslot (k + a.2.1) (by omega)) _ _

theorem recoverStep_eq (hidx : IndexValid ec) (hl : ∀ i, i < err_num → entry err_list i < k + n)
    (tbl : Vector UInt8 (n * k * 32)) {a : Nat × Nat × Nat} (ha : a.2.1 < err_num) :
    recoverStep ec tbl matrix err_list a mem =
      windowStep ec.maxSize k tbl matrix (fun j => (cell ec.decode_index j).toNat) (entry err_list) a mem := by
  obtain ⟨p, hp, hslot⟩ := fillPtrs_spec (srcPtr_eq matrix hidx (a.1 * ec.maxSize))
  obtain ⟨p', hp', hslot'⟩ := fillPtrs_spec (destPtr_eq matrix hl (a.1 * ec.maxSize))
  unfold recoverStep
  rw [hp, Option.bind_eq_bind, Option.bind_some, hp', Option.bind_eq_bind, Option.bind_some]
  exact encodeByte_congr hslot (hslot' _ ha) _ _

theorem Decodes.indexValid {tbl : Vector UInt8 (n * k * 32)} (h : Decodes ec tbl err_list)
    (hl : ValidList k n err_list) : IndexValid ec := fun _ hi => h.index_lt hl hi

/-- A decode loop, in order and under any schedule. -/
theorem recover_schedule (tbl : Vector UInt8 (n * k * 32)) (hidx : IndexValid ec)
    (hl : ValidList k n err_list) (hs : Strips mem matrix size) {B : Nat} (hB : B * ec.maxSize ≤ size) :
    Returns (forUp 0 B mem fun b t => recoverBlock ec tbl matrix err_list (b * ec.maxSize) t) fun mem' =>
      ∀ w, Schedules (rounds err_num ec.maxSize B) w →
        run (recoverStep ec tbl matrix err_list) (w.map Prod.snd) mem = some mem' := by
  have htbl := table_le k hl.1
  rw [forUp_congr fun b t _ _ => recoverBlock_eq hidx hl.2 tbl (b * ec.maxSize) t]
  obtain ⟨mem', he, _⟩ := windows_return (fun j => (cell ec.decode_index j).toNat) hs hidx hl.2 htbl hB
  refine ⟨mem', he, fun w hw => ?_⟩
  rw [← he, ← windows_schedule (fun j => (cell ec.decode_index j).toNat) hs hidx hl.2 htbl hB hw]
  refine run_congr fun a ha t => ?_
  obtain ⟨e, he, rfl⟩ := List.mem_map.1 ha
  exact recoverStep_eq hidx hl.2 tbl (mem_rounds (mem_of_schedules hw he)).2.2.1

/-- The loop of `encode_ptr`, in order and under any schedule. -/
theorem encode_schedule (ec : IsaEC k n) (hs : Strips mem (in_ ++ out) size) {B : Nat} (hB : B * ec.maxSize ≤ size)
    (hint : ∀ b, b < B → b * ec.maxSize < 2 ^ 31) :
    Returns (forUp 0 B mem fun b t => ec.encodeWindow in_ out (b * ec.maxSize) t) fun mem' =>
      ∀ w, Schedules (rounds n ec.maxSize B) w →
        run (encodePtrStep ec in_ out) (w.map Prod.snd) mem = some mem' := by
  have hσ : ∀ j, j < k → j < k + n := fun j hj => by omega
  have hτ : ∀ l, l < n → k + l < k + n := fun l hl => by omega
  obtain ⟨mem', he, _⟩ := windows_return (fun j => j) hs hσ hτ (Nat.le_refl _) hB
  refine ⟨mem', he, fun w hw => ?_⟩
  rw [← he, ← windows_schedule (fun j => j) hs hσ hτ (Nat.le_refl _) hB hw]
  refine run_congr fun a ha t => ?_
  obtain ⟨e, he, rfl⟩ := List.mem_map.1 ha
  obtain ⟨h1, hb, hl, _⟩ := mem_rounds (mem_of_schedules hw he)
  exact encodePtrStep_eq (hint _ (h1 ▸ hb)) hl

/-- A valid call keeps the sources valid, and `cache_g_tbls` makes them so. -/
theorem exec_indexValid {c : Call k n} (hkn : k + n ≤ 256) (hec : Sound ec) (hv : c.ValidLists)
    (h : exec c ec = some ec') (hi : IndexValid ec ∨ ¬ c.OnCache fun _ _ => False) : IndexValid ec' := by
  obtain ⟨rfl, -, hc⟩ | ⟨e, l, hload, hd, -⟩ | ⟨e, l, hcache, -, hc⟩ := exec_cases h
  · exact hi.resolve_right fun hn => hn (hc _)
  · have hl := (hd _).1 hv.1
    exact ((loadDecodeTables_spec hec hl (hl.recoverable hkn hec)).of_eq hload).decodes.indexValid hl
  · have hl := (hc _).1 hv.2
    exact ((cacheGTbls_spec hec hl (hl.recoverable hkn hec)).of_eq hcache).2.decodes.indexValid hl

/-- After `cache_g_tbls`, whatever follows. -/
theorem run_indexValid {calls : List (Call k n)} (hkn : k + n ≤ 256) (hec : Sound ec)
    (hv : ∀ c ∈ calls, c.ValidLists) (hrun : run exec calls ec = some ec')
    (hcached : ∃ c ∈ calls, ¬ c.OnCache fun _ _ => False) : IndexValid ec' := by
  obtain ⟨c, hc, hcc⟩ := hcached
  obtain ⟨l₁, l₂, rfl⟩ := List.append_of_mem hc
  rw [run_append] at hrun
  obtain ⟨t, ht, hrun⟩ := Option.bind_eq_some_iff.1 hrun
  rw [run_cons] at hrun
  obtain ⟨u, hu, hrun⟩ := Option.bind_eq_some_iff.1 hrun
  have hsound := (run_sameCode ht).sound hec
  refine (run_inv (I := fun u => Sound u ∧ IndexValid u) (fun d hd s s' hs he => ?_)
    ⟨(exec_sameCode hu).sound hsound, exec_indexValid hkn hsound (hv c hc) hu (.inr hcc)⟩ hrun).2
  exact ⟨(exec_sameCode he).sound hs.1, exec_indexValid hkn hs.1
    (hv d (List.mem_append_right _ (List.mem_cons_of_mem c hd))) he (.inl hs.2)⟩

/-- **Any schedule.** From any object that a history of valid calls has left,
the stores of the rounds of `encode_ptr`, `decode`, `decode_ptr` and (after some
`cache_g_tbls`) `cache_decode_ptr`, interleaved in any way, leave the memory
that the rounds in order leave. -/
theorem schedule_independent {raw ec₀ : IsaEC k n} (hk : 0 < k) (hkn : k + n ≤ 256) (hM : 0 < maxSize)
    (hnew : new raw maxSize thread_num = some ec₀) {calls : List (Call k n)}
    (hv : ∀ c ∈ calls, c.ValidLists) (hrun : run exec calls ec₀ = some ec) (hdvd : maxSize ∣ size)
    (hlt : size < 2 ^ 31) (hl : ValidList k n err_list) :
    (Strips mem (in_ ++ out) size → Returns (encodePtr ec in_ out size mem) fun r =>
      ∀ w, Schedules (rounds n maxSize (size / maxSize)) w →
        run (encodePtrStep ec in_ out) (w.map Prod.snd) mem = some r.1) ∧
    (Strips mem matrix size → Returns (decode ec matrix err_list (k * size) mem) fun r =>
      ∀ w, Schedules (rounds err_num maxSize (size / maxSize)) w →
        run (recoverStep r.1 r.1.g_tbls matrix err_list) (w.map Prod.snd) mem = some r.2.1) ∧
    (Strips mem matrix size → Returns (decodePtr ec matrix err_list size mem) fun r =>
      ∀ w, Schedules (rounds err_num maxSize (size / maxSize)) w →
        run (recoverStep r.1 r.1.g_tbls matrix err_list) (w.map Prod.snd) mem = some r.2.1) ∧
    (Strips mem matrix size → (∃ c ∈ calls, ¬ c.OnCache fun _ _ => False) →
      Returns (cacheDecodePtr ec matrix err_list (k * size) mem) fun r =>
        ∀ w, Schedules (rounds err_num maxSize (size / maxSize)) w →
          run (recoverStep ec ec.g_tbls_decode matrix err_list) (w.map Prod.snd) mem = some r.1) := by
  have hf := new_fresh hnew
  have hsc := run_sameCode hrun
  have hec := hsc.sound hf.sound
  obtain rfl : ec.maxSize = maxSize := hsc.maxSize.trans hf.maxSize_eq
  obtain ⟨B, rfl⟩ := hdvd
  rw [Nat.mul_comm] at hlt ⊢
  rw [Nat.mul_div_cancel _ hM]
  obtain ⟨hB, hint⟩ := blocks_fit hM hlt
  -- `decode` and `decode_ptr` run the same loop on the tables just loaded
  have hdec : Strips mem matrix (B * ec.maxSize) →
      Returns (decodePtr ec matrix err_list (B * ec.maxSize) mem) fun r =>
        ∀ w, Schedules (rounds err_num ec.maxSize B) w →
          run (recoverStep r.1 r.1.g_tbls matrix err_list) (w.map Prod.snd) mem = some r.2.1 := by
    intro hs
    obtain ⟨ec', hload, h⟩ := loadDecodeTables_spec hec hl (hl.recoverable hkn hec)
    rw [← h.maxSize] at hM hs ⊢
    obtain ⟨mem', he, hw⟩ := recover_schedule ec'.g_tbls (h.decodes.indexValid hl) hl hs (Nat.le_refl _)
    rw [decodePtr_eq hload hM, ceil_mul hM, he]
    exact returns_some hw
  refine ⟨fun hs => ?_, fun hs => ?_, hdec, fun hs hcached => ?_⟩
  · obtain ⟨mem', he, hw⟩ := encode_schedule ec hs (Nat.le_refl _) hint
    rw [encodePtr_eq ec hM hB hint, he]
    exact returns_some hw
  · rw [decode_eq_decodePtr hk hlt]
    exact hdec hs
  · have hidx := run_indexValid hkn hf.sound hv hrun hcached
    obtain ⟨mem', he, hw⟩ := recover_schedule ec.g_tbls_decode hidx hl hs (Nat.le_refl _)
    rw [cacheDecodePtr_eq hM hk (by rw [Nat.mul_div_cancel_left _ hk]; exact hlt), Nat.mul_div_cancel_left _ hk,
      ceil_mul hM, he]
    exact returns_some hw

/-- Two data strips and a parity strip of two bytes, in two blocks. The cache is for
another list. -/
theorem schedule_independent_two :
    let mem : Mem := #[#[5, 6], #[7, 8], #[9, 10]]
    let v : Vector Ptr (2 + 1) := ownBuffers 0 2 ++ ownBuffers 2 1
    ∃ ec₀ ec : IsaEC 2 1, new default 1 4 = some ec₀ ∧ run exec [⟨.cacheGTbls 1 #v[0], #[]⟩] ec₀ = some ec ∧
    (Returns (encodePtr ec (ownBuffers 0 2) (ownBuffers 2 1) 2 mem) fun r =>
      ∀ w, Schedules (rounds 1 1 (2 / 1)) w →
        run (encodePtrStep ec (ownBuffers 0 2) (ownBuffers 2 1)) (w.map Prod.snd) mem = some r.1) ∧
    (Returns (decode ec v #v[1] (2 * 2) mem) fun r =>
      ∀ w, Schedules (rounds 1 1 (2 / 1)) w →
        run (recoverStep r.1 r.1.g_tbls v #v[1]) (w.map Prod.snd) mem = some r.2.1) ∧
    (Returns (decodePtr ec v #v[1] 2 mem) fun r =>
      ∀ w, Schedules (rounds 1 1 (2 / 1)) w →
        run (recoverStep r.1 r.1.g_tbls v #v[1]) (w.map Prod.snd) mem = some r.2.1) ∧
    Returns (cacheDecodePtr ec v #v[1] (2 * 2) mem) fun r =>
      ∀ w, Schedules (rounds 1 1 (2 / 1)) w →
        run (recoverStep ec ec.g_tbls_decode v #v[1]) (w.map Prod.snd) mem = some r.1 := by
  intro mem v
  obtain ⟨ec₀, h⟩ := new_isSome (default : IsaEC 2 1) 1 4 (by decide)
  have hf := new_fresh h
  have hl₀ : ValidList 2 1 #v[0] := ⟨by decide, by decide⟩
  obtain ⟨c, hc, -⟩ := cacheGTbls_spec hf.sound hl₀ (hl₀.recoverable (by decide) hf.sound)
  have hrun : run exec [⟨.cacheGTbls 1 #v[0], #[]⟩] ec₀ = some c.1 := by simp [exec, hc]
  have hs : Strips mem v 2 := by decide
  obtain ⟨h1, h2, h3, h4⟩ := schedule_independent (by decide) (by decide) (by decide) h
    (by simp [Call.ValidLists, Call.OnDecode, Call.OnCache, hl₀]) hrun (show 1 ∣ 2 by decide) (by decide)
    (⟨by decide, by decide⟩ : ValidList 2 1 #v[1])
  exact ⟨ec₀, c.1, h, hrun, h1 hs, h2 hs, h3 hs, h4 hs ⟨_, List.mem_singleton_self _, fun hn => hn⟩⟩

end

end ErasureCode.IsaEC
