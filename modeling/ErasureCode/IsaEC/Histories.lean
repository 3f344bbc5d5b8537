import ErasureCode.IsaEC.Recovery

/-!
# What a history leaves in the tables

`g_tbls` serves the encoders, but `decode` and `decode_ptr` write their tables
into it (`src/IsaEC.cpp:135,168`). A list is `Harmless` when the rows it puts
there are the parity rows they replace.

* `encoder_intact_iff`: in a history of a new object, the encoders go on working
  as those of a new object exactly when the lists of all `decode` and
  `decode_ptr` calls are harmless.

`cache_g_tbls` has a table of its own, `g_tbls_decode`, but shares
`decode_index` with the uncached decoders.

* `cache_coherent`: the cached tables go on serving the list they were made for
  as long as `decode` and `decode_ptr` are called on lists with the same `k`
  lowest survivors.
-/
namespace ErasureCode.IsaEC

open ErasureCode.Core Isal Matrix

variable {k n : Nat}

/-- The lists in a call are valid. -/
def Call.ValidLists (c : Call k n) : Prop :=
  c.OnDecode (fun _ l => ValidList k n l) ∧ c.OnCache fun _ l => ValidList k n l

/-! ## The encoders' table -/

/-- The decode rows of the list are the parity rows in whose place they are
put. -/
def Harmless (k : Nat) (err_num : Nat) (err_list : Vector UInt8 err_num) : Prop :=
  ∀ i, i < err_num → encodeMatrix k (k + i) ᵥ* survivorRows (encodeMatrix k) (erased err_list) =
    encodeMatrix k (entry err_list i)

/-- `g_tbls` is intact, and `encode_ptr` does what it does on any new object
with the same block size. -/
def EncodesAsNew (maxSize : Nat) (ec : IsaEC k n) : Prop :=
  Intact ec ∧ ∀ (raw : IsaEC k n) (thread_num : Nat) (fresh : IsaEC k n),
    new raw maxSize thread_num = some fresh → ∀ in_ out size mem,
      encodePtr ec in_ out size mem = encodePtr fresh in_ out size mem

section
variable {ec ec' : IsaEC k n} {err_num : Nat} {err_list : Vector UInt8 err_num}

theorem encode_matrix_eq (h : Sound ec) (h' : Sound ec') : ec.encode_matrix = ec'.encode_matrix := by
  refine buffer_ext fun x hx => ?_
  obtain ⟨r, c, hr, hc, rfl⟩ := pos_surj hx
  have := congrFun ((h r hr).trans (h' r hr).symm) ⟨c, hc⟩
  exact congrArg GF256.byte this

theorem g_tbls_eq (h : Sound ec) (h' : Sound ec') (hi : Intact ec) (hi' : Intact ec') :
    ec.g_tbls = ec'.g_tbls :=
  buffer_ext fun x hx => by rw [hi x hx, hi' x hx, encode_matrix_eq h h']

theorem encodesAsNew {maxSize : Nat} (h : Sound ec) (hM : ec.maxSize = maxSize) (hi : Intact ec) :
    EncodesAsNew maxSize ec := by
  refine ⟨hi, fun raw thread_num fresh hnew in_ out size mem => ?_⟩
  have hf := new_fresh hnew
  unfold encodePtr encodePtrBlock
  rw [g_tbls_eq h hf.sound hi hf.intact, hM, hf.maxSize_eq]

/-- After a `decode` or `decode_ptr` the table is intact just when its list is
harmless. -/
theorem intact_loaded_iff (hec : Sound ec) (hi : Intact ec) (hl : ValidList k n err_list)
    (hr : Recoverable ec (erased err_list)) (h : Loaded ec ec' err_list) :
    Intact ec' ↔ Harmless k err_num err_list := by
  have hgen : ∀ i, i < err_num → ec'.gen (k + i) = encodeMatrix k (k + i) := fun i hi => by
    rw [h.toSameCode.gen]
    exact hec _ (by have := hl.1; omega)
  have hrows : ∀ i, i < err_num → tableRows k ec'.g_tbls i ᵥ* survivorRows (encodeMatrix k) (erased err_list) =
      encodeMatrix k (entry err_list i) := fun i hi => by
    rw [← survivorRows_sound hec hr.enough, ← h.toSameCode.gen, h.decodes.rows i hi, h.toSameCode.gen,
      hec _ (hl.2 i hi)]
  have hu : IsUnit (survivorRows (encodeMatrix k) (erased err_list)) := by
    rw [← survivorRows_sound hec hr.enough]
    exact hr.unit
  constructor
  · intro hi' i hlt
    rw [← hrows i hlt, tableRows_intact hi' (by have := hl.1; omega), hgen i hlt]
  · intro hh x hx
    rw [h.g_tbls, h.encode_matrix]
    split
    · rename_i hlt
      -- entry `x / 32` of the decode matrix is the parity coefficient
      obtain ⟨i, j, hil, hj, hp⟩ := pos_surj (show x / 32 < err_num * k by omega)
      have hrow := Mds.decodeRow_unique hu ((hrows i hil).trans (hh i hil).symm)
      have hcell := congrFun hrow ⟨j, hj⟩
      rw [tableRows_init h.g_tbls, if_pos hil, ← hec _ (by have := hl.1; omega), gen, rowsOf_apply,
        Nat.add_mul k i k, Nat.add_assoc] at hcell
      rw [hp]
      exact congrArg (fun b => tableByte b (x % 32)) (congrArg GF256.byte hcell)
    · exact hi x hx

end

theorem intact_always_iff (hkn : k + n ≤ 256) {calls : List (Call k n)} :
    ∀ {ec ec' : IsaEC k n}, Sound ec → Intact ec → (∀ c ∈ calls, c.ValidLists) →
      run exec calls ec = some ec' →
      (Always exec Intact calls ec ↔ ∀ c ∈ calls, c.OnDecode (Harmless k)) := by
  induction calls with
  | nil => exact fun _ hi _ _ => ⟨fun _ c hc => absurd hc List.not_mem_nil, fun _ => always_nil.2 hi⟩
  | cons c calls ih =>
    intro ec ec' hec hi hv hrun
    rw [run_cons] at hrun
    obtain ⟨t, ht, hrun⟩ := Option.bind_eq_some_iff.1 hrun
    have hvc := hv c List.mem_cons_self
    have htail : Intact t →
        (Always exec Intact calls t ↔ ∀ c ∈ calls, c.OnDecode (Harmless k)) := fun hit =>
      ih ((exec_sameCode ht).sound hec) hit (fun d hd => hv d (List.mem_cons_of_mem c hd)) hrun
    -- the call leaves the table intact just when its list is harmless
    have hstep : Intact t ↔ c.OnDecode (Harmless k) := by
      obtain ⟨rfl, hd, -⟩ | ⟨e, l, hload, hd, -⟩ | ⟨e, l, hcache, hd, hc⟩ := exec_cases ht
      · exact iff_of_true hi (hd _)
      · have hl := (hd _).1 hvc.1
        have hr := hl.recoverable hkn hec
        rw [hd]
        exact intact_loaded_iff hec hi hl hr ((loadDecodeTables_spec hec hl hr).of_eq hload)
      · have hl := (hc _).1 hvc.2
        have hca := ((cacheGTbls_spec hec hl (hl.recoverable hkn hec)).of_eq hcache).2
        refine iff_of_true (fun x hx => ?_) (hd _)
        rw [hca.g_tbls, hca.encode_matrix]
        exact hi x hx
    rw [always_cons, List.forall_mem_cons, ← hstep]
    constructor
    · rintro ⟨-, h⟩
      have hit := (always_head (h t ht))
      exact ⟨hit, (htail hit).1 (h t ht)⟩
    · rintro ⟨hit, h⟩
      refine ⟨hi, fun t' ht' => ?_⟩
      rw [ht] at ht'
      cases ht'
      exact (htail hit).2 h

/-- **The encoders after any history.** In a history of valid calls on a new
object, every state encodes as a new object does if and only if every
`decode` and `decode_ptr` was given a harmless list. -/
theorem encoder_intact_iff {raw ec₀ ec : IsaEC k n} {maxSize thread_num : Nat} {calls : List (Call k n)}
    (hkn : k + n ≤ 256) (hnew : new raw maxSize thread_num = some ec₀) (hv : ∀ c ∈ calls, c.ValidLists)
    (hrun : run exec calls ec₀ = some ec) :
    Always exec (EncodesAsNew maxSize) calls ec₀ ↔ ∀ c ∈ calls, c.OnDecode (Harmless k) := by
  have hf := new_fresh hnew
  rw [← intact_always_iff hkn hf.sound hf.intact hv hrun]
  constructor
  · exact fun h w t hw ht => (h w t hw ht).1
  · refine fun h w t hw ht => encodesAsNew ?_ ?_ (h w t hw ht)
    · exact (run_sameCode ht).sound hf.sound
    · exact (run_sameCode ht).maxSize.trans hf.maxSize_eq

theorem encoder_intact_iff_one : ∃ ec₀ ec : IsaEC 1 1, new default 1 4 = some ec₀ ∧
    run exec [⟨.decodePtr (ownBuffers 0 2) 1 #v[0] 1, #[#[5], #[7]]⟩] ec₀ = some ec ∧
    (Always exec (EncodesAsNew 1) [⟨.decodePtr (ownBuffers 0 2) 1 #v[0] 1, #[#[5], #[7]]⟩] ec₀ ↔
      ∀ c ∈ [(⟨.decodePtr (ownBuffers 0 2) 1 #v[0] 1, #[#[5], #[7]]⟩ : Call 1 1)], c.OnDecode (Harmless 1)) := by
  obtain ⟨ec₀, h⟩ := new_isSome (default : IsaEC 1 1) 1 4 (by decide)
  have hf := new_fresh h
  have hl : ValidList 1 1 #v[0] := ⟨by decide, by decide⟩
  obtain ⟨r, hr, -⟩ := decodePtr_spec hf.sound (by rw [hf.maxSize_eq]; decide) hl
    (hl.recoverable (by decide) hf.sound) (by decide : Strips #[#[5], #[7]] (ownBuffers 0 2) 1)
    (by rw [hf.maxSize_eq])
  have hrun : run exec [⟨.decodePtr (ownBuffers 0 2) 1 #v[0] 1, #[#[5], #[7]]⟩] ec₀ = some r.1 := by
    simp [exec, hr]
  refine ⟨ec₀, r.1, h, hrun, encoder_intact_iff (by decide) h ?_ hrun⟩
  simp [Call.ValidLists, Call.OnDecode, Call.OnCache, hl]

/-- A new object encodes data 1, 0 to parity 142; once `decode_ptr` has restored
strip 0 of a codeword, the same call gives another byte. -/
theorem decode_breaks_encoder : (do
    let ec ← new (default : IsaEC 2 1) 1 4
    let r ← decodePtr ec (ownBuffers 0 3) #v[0] 1 #[#[0], #[0], #[0]]
    let a ← encodePtr ec (ownBuffers 0 2) (ownBuffers 2 1) 1 #[#[1], #[0], #[0]]
    let b ← encodePtr r.1 (ownBuffers 0 2) (ownBuffers 2 1) 1 #[#[1], #[0], #[0]]
    return (a, b)) = some ((#[#[1], #[0], #[142]], true), (#[#[1], #[0], #[245]], true)) := by
  decide +kernel

/-! ## The cached table -/

/-- `cache_decode_ptr` restores every codeword from which the strips of the list
are lost. -/
def CacheCoherent {err_num : Nat} (err_list : Vector UInt8 err_num) (ec : IsaEC k n) : Prop :=
  ∀ (matrix : Vector Ptr (k + n)) (mem : Mem) (size : Nat) (d : Nat → Fin k → GF256),
    Strips mem matrix size → ec.maxSize ∣ size → size < 2 ^ 31 →
    HoldsWord ec.gen mem matrix size (fun r => r ∈ erased err_list) d →
    Returns (cacheDecodePtr ec matrix err_list (k * size) mem) fun r => r.2 = true ∧
      HoldsWord ec.gen r.1 matrix size (fun _ => False) d

section
variable {ec ec₁ : IsaEC k n} {err_num : Nat} {err_list : Vector UInt8 err_num} {maxSize thread_num : Nat}

/-- Tables that belong to the list are enough. -/
theorem cacheCoherent_of_decodes (hk : 0 < k) (hM : 0 < ec.maxSize) (hl : ValidList k n err_list)
    (hr : Recoverable ec (erased err_list)) (hd : Decodes ec ec.g_tbls_decode err_list) :
    CacheCoherent err_list ec := by
  intro matrix mem size d hs hdvd hlt hword
  obtain ⟨B, rfl⟩ := hdvd
  rw [Nat.mul_comm ec.maxSize] at hs hlt hword ⊢
  have hcov := covered_mul hk hM B
  rw [covered] at hcov
  have hdec := cacheDecodePtr_spec hM hk hd hl hr hs
    (by rw [Nat.mul_div_cancel_left _ hk]; exact hlt : k * (B * ec.maxSize) / k < 2 ^ 31) (Nat.le_of_eq hcov)
  rw [hcov] at hdec
  exact hdec.mono fun r h => ⟨h.1, decode_holds hr hs hword h.2⟩

/-- The list has the same `k` lowest survivors. -/
def SameSurvivors (k : Nat) (err_list : Vector UInt8 err_num) (e : Nat) (l : Vector UInt8 e) : Prop :=
  ∀ i, i < k → survivor (erased l) i = survivor (erased err_list) i

/-- **The cached tables after any history.** From `cache_g_tbls` on, as long as
it is not called again and every `decode` and `decode_ptr` is given a list with
the same `k` lowest survivors, the cached decoder restores its codewords in
every state. -/
theorem cache_coherent (hk : 0 < k) (hkn : k + n ≤ 256) (hM : 0 < maxSize)
    (hreach : Reachable maxSize thread_num ec) (hl : ValidList k n err_list)
    (hcache : cacheGTbls ec err_list = some (ec₁, true)) {calls : List (Call k n)}
    (hv : ∀ c ∈ calls, c.ValidLists) (hlast : ∀ c ∈ calls, c.OnCache fun _ _ => False)
    (hsame : ∀ c ∈ calls, c.OnDecode (SameSurvivors k err_list)) :
    Always exec (CacheCoherent err_list) calls ec₁ := by
  obtain ⟨hec, rfl, -⟩ := hreach.sound
  have hr := hl.recoverable hkn hec
  have hca := ((cacheGTbls_spec hec hl hr).of_eq hcache).2
  -- the invariant: same code, and the cached tables belong to the list
  have hinv : ∀ w t, w <+: calls → run exec w ec₁ = some t →
      SameCode ec t ∧ Decodes t t.g_tbls_decode err_list := by
    intro w t hw ht
    refine run_inv (I := fun t => SameCode ec t ∧ Decodes t t.g_tbls_decode err_list) (fun c hc s s' hs hc' => ?_)
      ⟨hca.toSameCode, hca.decodes⟩ ht
    have hmem := hw.subset hc
    refine ⟨hs.1.trans (exec_sameCode hc'), ?_⟩
    obtain ⟨rfl, -⟩ | ⟨e, l, hload, hd, -⟩ | ⟨e, l, -, -, hno⟩ := exec_cases hc'
    · exact hs.2
    · have hl' := (hd _).1 (hv c hmem).1
      have hec' := hs.1.sound hec
      have hlo := (loadDecodeTables_spec hec' hl' (hl'.recoverable hkn hec')).of_eq hload
      refine ⟨fun i hi => ?_, ?_⟩
      · rw [hlo.decodes.index i hi]
        exact (hd _).1 (hsame c hmem) i hi
      · rw [hlo.g_tbls_decode, hlo.toSameCode.gen]
        exact hs.2.rows
    · exact ((hno _).1 (hlast c hmem)).elim
  intro w t hw ht
  obtain ⟨hsc, hd⟩ := hinv w t hw ht
  exact cacheCoherent_of_decodes hk (hsc.maxSize ▸ hM) hl (hsc.recoverable hr) hd

end

theorem cache_coherent_one : ∃ ec ec₁ : IsaEC 1 1, Reachable 1 4 ec ∧ cacheGTbls ec #v[1] = some (ec₁, true) ∧
    Always exec (CacheCoherent #v[1]) [⟨.decodePtr (ownBuffers 0 2) 1 #v[1] 1, #[#[5], #[7]]⟩] ec₁ := by
  obtain ⟨ec, h⟩ := new_isSome (default : IsaEC 1 1) 1 4 (by decide)
  have hf := new_fresh h
  have hl : ValidList 1 1 #v[1] := ⟨by decide, by decide⟩
  obtain ⟨⟨ec₁, b⟩, hr, hb, -⟩ := cacheGTbls_spec hf.sound hl (hl.recoverable (by decide) hf.sound)
  obtain rfl : b = true := hb
  refine ⟨ec, ec₁, new_reachable h, hr, cache_coherent (by decide) (by decide) (by decide) (new_reachable h) hl hr
    ?_ ?_ ?_⟩
  · simp [Call.ValidLists, Call.OnDecode, Call.OnCache, hl]
  · simp [Call.OnCache]
  · simp [Call.OnDecode, SameSurvivors]

/-- One data and one parity strip. With the tables cached for the parity strip,
`decode_ptr` on the data strip makes `decode_index` point at the parity strip:
the cached decoder then copies the lost byte to itself. -/
theorem decode_breaks_cache : (do
    let ec ← new (default : IsaEC 1 1) 1 4
    let c ← cacheGTbls ec #v[1]
    let a ← cacheDecodePtr c.1 (ownBuffers 0 2) #v[1] 1 #[#[0], #[9]]
    let r ← decodePtr c.1 (ownBuffers 0 2) #v[0] 1 #[#[0], #[0]]
    let b ← cacheDecodePtr r.1 (ownBuffers 0 2) #v[1] 1 #[#[0], #[9]]
    return (a, b)) = some ((#[#[0], #[0]], true), (#[#[0], #[9]], true)) := by
  decide +kernel

end ErasureCode.IsaEC
