import ErasureCode.Core.Refinement
import ErasureCode.IsaEC.Recovery
import ErasureCode.IsaEC.SharedPointers

/-!
# Which strips to trust

A program that owns one object and `k + n` strips encodes them, loses some, decodes
with one list or another, reuses cached tables and encodes again. `trust` is its
specification: it knows which strips may have lost their codeword, how many rows of
`g_tbls` the decoders have written over, and which list the cache is for. It never
looks at a byte.

* A decoder all of whose sources are trusted makes the listed strips good; with one
  source in doubt, the listed strips are in doubt.
* After a decoder of `e` strips an encoder gets the parity strips from `k + e` on
  right, and those before are in doubt.
* When several threads run the rounds of `encode`, which share an array, all parity
  strips are in doubt.

`trusted_strips`: after any run of these calls the strips that are not in doubt hold
the codeword of the first data. `repairs_restore`: in particular all of them do after
rounds of losses, each repaired by a list that names what is lost.
-/
namespace ErasureCode.IsaEC

open ErasureCode.Core Isal Matrix

variable {k n : Nat}

/-! ## The specification -/

/-- The strips in doubt, the rows of `g_tbls` that are not the encoder's, and the list
that `g_tbls_decode` and `decode_index` belong to. -/
structure Trust where
  bad : Finset Nat
  clobbered : Nat
  cached : Option (Σ e, Vector UInt8 e)

/-- A change of the memory that leaves all strips but `strips` as they are. -/
structure Loss (v : Vector Ptr (k + n)) (L : Nat) where
  strips : Finset Nat
  change : Mem → Mem
  keeps : ∀ mem, Strips mem v L → Strips (change mem) v L ∧ SameOutside mem (change mem) v L (fun r => r ∈ strips)

/-- What the program does with the strips `v` of `L` bytes. The rounds of `encode` are
assigned to threads, and `w` is the schedule of these. -/
inductive Action (v : Vector Ptr (k + n)) (L : Nat) where
  | lose (x : Loss v L)
  | encode (assign : Nat → Nat) (w : List (Nat × FragAction))
  | encodePtr
  | decode (err_num : Nat) (err_list : Vector UInt8 err_num)
  | decodePtr (err_num : Nat) (err_list : Vector UInt8 err_num)
  | cacheGTbls (err_num : Nat) (err_list : Vector UInt8 err_num)
  | cacheDecodePtr (err_num : Nat) (err_list : Vector UInt8 err_num)

namespace Trust

/-- The parity strips `k ≤ r < k + c`. -/
def parity (k c : Nat) : Finset Nat := Finset.Ico k (k + c)

/-- The parity strips come from the data strips and the rows of `g_tbls`. -/
def encoded (k n : Nat) (t : Trust) : Trust :=
  { t with bad := if ∀ r, r ∈ t.bad → k ≤ r then parity k t.clobbered else t.bad ∪ parity k n }

/-- The rounds of `encode` got into each other. -/
def mixed (k n : Nat) (t : Trust) : Trust := { t with bad := t.bad ∪ parity k n }

open Classical in
/-- The strips in `E` come from the `k` lowest strips outside. -/
noncomputable def recovered (k : Nat) (t : Trust) (E : Finset Nat) : Finset Nat :=
  if ∀ i, i < k → survivor E i ∉ t.bad then t.bad \ E else t.bad ∪ E

/-- The tables of the cache stay, but `decode_index` is overwritten. -/
noncomputable def decoded (k : Nat) (t : Trust) {e : Nat} (l : Vector UInt8 e) : Trust where
  bad := t.recovered k (erased l)
  clobbered := max t.clobbered e
  cached := t.cached.filter fun c => erased c.2 = erased l

end Trust

/-- The specification, in blocks of `M` bytes and with `thread_num` threads.
`cache_decode_ptr` is called with the list in the cache. -/
noncomputable def trust (M thread_num : Nat) (v : Vector Ptr (k + n)) (L : Nat) : Spec (Action v L) Trust where
  pre a t := match a with
    | .lose _ | .encodePtr => True
    | .encode assign w =>
      (∀ b, b < L / M → assign b < thread_num) ∧ Schedules (threadProgram (k + n) (L / M) assign) w
    | .decode _ l | .decodePtr _ l | .cacheGTbls _ l => ValidList k n l
    | .cacheDecodePtr e l => t.cached = some ⟨e, l⟩
  next a t := match a with
    | .lose x => { t with bad := t.bad ∪ x.strips }
    | .encode _ _ => if thread_num = 1 ∨ L ≤ M then t.encoded k n else t.mixed k n
    | .encodePtr => t.encoded k n
    | .decode _ l | .decodePtr _ l => t.decoded k l
    | .cacheGTbls e l => { t with cached := some ⟨e, l⟩ }
    | .cacheDecodePtr _ l => { t with bad := t.recovered k (erased l) }

/-- The program. The methods take the length of the strips, or of `k` strips. The rounds
of `encode` are those of its loop (`encode_eq_run`), as they are scheduled. -/
def act (in_ : Vector Ptr k) (out : Vector Ptr n) (L : Nat) (a : Action (in_ ++ out) L) (s : IsaEC k n × Mem) :
    Option (IsaEC k n × Mem) :=
  match a with
  | .lose x => some (s.1, x.change s.2)
  | .encode _ w =>
    (run (fragStep s.1 in_ out) (w.map Prod.snd) (Vector.replicate (k + n) none, s.2)).map fun r => (s.1, r.2)
  | .encodePtr => call s.1 s.2 (.encodePtr in_ out L)
  | .decode e l => call s.1 s.2 (.decode (in_ ++ out) e l (k * L))
  | .decodePtr e l => call s.1 s.2 (.decodePtr (in_ ++ out) e l L)
  | .cacheGTbls e l => call s.1 s.2 (.cacheGTbls e l)
  | .cacheDecodePtr e l => call s.1 s.2 (.cacheDecodePtr (in_ ++ out) e l (k * L))

/-- The strips that are not in doubt hold the words of `d`, and the tables are as the
specification has them. -/
structure Trusted (M L : Nat) (v : Vector Ptr (k + n)) (d : Nat → Fin k → GF256) (s : IsaEC k n × Mem) (t : Trust) :
    Prop where
  sound : Sound s.1
  maxSize : s.1.maxSize = M
  strips : Strips s.2 v L
  words : HoldsWord s.1.gen s.2 v L (fun r => r ∈ t.bad) d
  clobbered : t.clobbered ≤ n
  rows : ∀ l, t.clobbered ≤ l → l < n → tableRows k s.1.g_tbls l = s.1.gen (k + l)
  cached : ∀ e l, t.cached = some ⟨e, l⟩ → ValidList k n l ∧ Decodes s.1 s.1.g_tbls_decode l

/-! ## The calls keep it -/

section
variable {M L : Nat} {in_ : Vector Ptr k} {out : Vector Ptr n} {v : Vector Ptr (k + n)} {d : Nat → Fin k → GF256}
  {ec ec' : IsaEC k n} {mem mem' : Mem} {t : Trust} {e : Nat} {l : Vector UInt8 e} {E : Finset Nat}

/-- Strips outside `E` and their symbols are all that the recovered ones come from. -/
theorem recovered_of_sources (hr : Recoverable ec E) {p : Nat}
    (h : ∀ i, i < k → word mem v p (survivor E i) = ec.gen (survivor E i) ⬝ᵥ d p) (r : Nat) :
    ec.recovered E (word mem v p) r = ec.gen r ⬝ᵥ d p :=
  Mds.recover_eq_of_fits hr.unit (fun i => (h i i.isLt).symm) r

theorem HoldsWord.recovered (hr : Recoverable ec E) (hs : Strips mem v L)
    (h : HoldsWord ec.gen mem v L (fun r => r ∈ t.bad) d)
    (hw : Rewritten mem mem' v (fun r => r ∈ E) L fun r p => (ec.recovered E (word mem v p) r).byte) :
    HoldsWord ec.gen mem' v L (fun r => r ∈ t.recovered k E) d := by
  intro r hrc (hbad : r ∉ t.recovered k E) p hp
  by_cases hsrc : ∀ i, i < k → survivor E i ∉ t.bad
  · rw [Trust.recovered, if_pos hsrc, Finset.mem_sdiff, not_and_not_right] at hbad
    by_cases hrE : r ∈ E
    · rw [word, hw.stripByte_set hrc hrE hp]
      exact recovered_of_sources hr (fun i hi => h _ (survivor_lt hr.enough hi) (hsrc i hi) p hp) r
    · rw [word, hw.stripByte_frame hs (Nat.le_refl L) hrc hp fun hc => hrE hc.1]
      exact h r hrc (fun hb => hrE (hbad hb)) p hp
  · rw [Trust.recovered, if_neg hsrc, Finset.mem_union, not_or] at hbad
    rw [word, hw.stripByte_frame hs (Nat.le_refl L) hrc hp fun hc => hbad.2 hc.1]
    exact h r hrc hbad.1 p hp

/-- A row of `g_tbls` that is the encoder's gives its parity strip the codeword, when
the data strips have it. -/
theorem HoldsWord.encoded (hec : Sound ec) (hs : Strips mem (in_ ++ out) L)
    (hrows : ∀ l, t.clobbered ≤ l → l < n → tableRows k ec.g_tbls l = ec.gen (k + l))
    (h : HoldsWord ec.gen mem (in_ ++ out) L (fun r => r ∈ t.bad) d)
    (hw : Rewritten mem mem' (in_ ++ out) (fun r => k ≤ r) L (ec.encodedByte mem in_ out)) :
    HoldsWord ec.gen mem' (in_ ++ out) L (fun r => r ∈ (t.encoded k n).bad) d := by
  intro r hrc (hbad : r ∉ (t.encoded k n).bad) p hp
  have hdata : r < k → word mem' (in_ ++ out) p r = word mem (in_ ++ out) p r := fun hrk => by
    rw [word, hw.stripByte_frame hs (Nat.le_refl L) hrc hp fun hc => Nat.not_le.2 hrk hc.1]
    rfl
  by_cases hall : ∀ r, r ∈ t.bad → k ≤ r
  · simp only [Trust.encoded, if_pos hall, Trust.parity, Finset.mem_Ico, not_and, Nat.not_lt] at hbad
    have hgood : ∀ j, j < k → word mem (in_ ++ out) p j = ec.gen j ⬝ᵥ d p := fun j hj =>
      h j (by omega) (fun hb => Nat.not_le.2 hj (hall j hb)) p hp
    by_cases hrk : r < k
    · rw [hdata hrk]
      exact hgood r hrk
    · have hle := hbad (Nat.not_lt.1 hrk)
      have hrow : tableRows k ec.g_tbls (r - k) = ec.gen r := by
        rw [hrows (r - k) (by omega) (by omega), Nat.add_sub_cancel' (Nat.not_lt.1 hrk)]
      rw [word, hw.stripByte_set hrc (Nat.not_lt.1 hrk) hp, encodedByte, mk_dotBytes, ← hrow]
      refine Finset.sum_congr rfl fun j _ => ?_
      rw [← gen_data hec j.isLt (d p), ← hgood j j.isLt]
      rfl
  · simp only [Trust.encoded, if_neg hall, Trust.parity, Finset.mem_union, Finset.mem_Ico, not_or, not_and] at hbad
    have hrk : r < k := Nat.lt_of_not_le fun hle => hbad.2 hle hrc
    rw [hdata hrk]
    exact h r hrc hbad.1 p hp

/-- The object and the memory after a decoder. -/
theorem Trusted.decoded (h : Trusted M L v d (ec, mem) t) (hl : ValidList k n l) (hr : Recoverable ec (erased l))
    (h' : Loaded ec ec' l)
    (hw : Rewritten mem mem' v (fun r => r ∈ erased l) L fun r p => (ec.recovered (erased l) (word mem v p) r).byte) :
    Trusted M L v d (ec', mem') (t.decoded k l) := by
  have hgen : ec'.gen = ec.gen := h'.toSameCode.gen
  refine ⟨h'.toSameCode.sound h.sound, h'.maxSize.trans h.maxSize, hw.strips h.strips, ?_, max_le h.clobbered hl.1,
    fun i hi hin => ?_, fun e' l' hcached => ?_⟩
  · rw [hgen]
    exact h.words.recovered hr h.strips hw
  · obtain ⟨hi, hei⟩ := max_le_iff.1 hi
    funext j
    rw [tableRows_init h'.g_tbls, if_neg (Nat.not_lt.2 hei), h.rows i hi hin, hgen]
  · -- `decode_index` is that of `l`
    obtain ⟨hc, heq⟩ := Option.filter_eq_some_iff.1 hcached
    have heq : erased l' = erased l := of_decide_eq_true heq
    obtain ⟨hl', hd⟩ := h.cached e' l' hc
    refine ⟨hl', fun i hi => ?_, ?_⟩
    · rw [h'.decodes.index i hi, heq]
    · rw [hgen, h'.g_tbls_decode]
      exact hd.rows

theorem Trusted.encoded (h : Trusted M L (in_ ++ out) d (ec, mem) t)
    (hw : Rewritten mem mem' (in_ ++ out) (fun r => k ≤ r) L (ec.encodedByte mem in_ out)) :
    Trusted M L (in_ ++ out) d (ec, mem') (t.encoded k n) :=
  ⟨h.sound, h.maxSize, hw.strips h.strips, h.words.encoded h.sound h.strips h.rows hw, h.clobbered, h.rows, h.cached⟩

/-- `encode` by threads. -/
theorem Trusted.scheduled (h : Trusted M L (in_ ++ out) d (ec, mem) t) (hk : 0 < k) (hM : 0 < M) (hdvd : M ∣ L)
    (hlt : L < 2 ^ 31) {thread_num : Nat} {assign : Nat → Nat} {w : List (Nat × FragAction)}
    (hassign : ∀ b, b < L / M → assign b < thread_num) (hw : Schedules (threadProgram (k + n) (L / M) assign) w) :
    Returns (run (fragStep ec in_ out) (w.map Prod.snd) (Vector.replicate (k + n) none, mem)) fun s =>
      Trusted M L (in_ ++ out) d (ec, s.2) (if thread_num = 1 ∨ L ≤ M then t.encoded k n else t.mixed k n) := by
  obtain ⟨B, rfl⟩ := hdvd
  obtain rfl : ec.maxSize = M := h.maxSize
  rw [Nat.mul_div_cancel_left B hM] at hassign hw
  have hL : B * ec.maxSize = ec.maxSize * B := Nat.mul_comm B _
  by_cases horder : thread_num = 1 ∨ ec.maxSize * B ≤ ec.maxSize
  · obtain ⟨r, he, -, hr⟩ := encode_mul ec hk hM h.strips (Nat.dvd_mul_right _ _) hlt
    rw [← hL, encode_eq_run hk hM (by omega)] at he
    obtain ⟨s, hs, rfl⟩ := Option.map_eq_some_iff.1 he
    rw [if_pos horder, schedule_in_order (horder.imp_right fun h => blocks_le_one hM (by omega)) hassign hw, hs]
    exact returns_some (h.encoded hr)
  · rw [if_neg horder]
    have hkeep : Keepable ec in_ out (ec.maxSize * B) mem fun r => r < k := .inl fun _ h => h
    refine (schedule_unchanged h.strips hL hM hkeep hw).mono fun s hs => ?_
    refine ⟨h.sound, h.maxSize, hs.strips, fun r hrc hbad p hp => ?_, h.clobbered, h.rows, h.cached⟩
    obtain ⟨hbad, hdata⟩ := not_or.1 (mt Finset.mem_union.2 hbad)
    have hrk : r < k := Nat.lt_of_not_le fun hle => hdata (Finset.mem_Ico.2 ⟨hle, hrc⟩)
    rw [word, hs.bytes r hrc hrk p hp]
    exact h.words r hrc hbad p hp

/-- **One call.** -/
theorem act_refines (hk : 0 < k) (hkn : k + n ≤ 256) (hM : 0 < M) (hdvd : M ∣ L) (hlt : L < 2 ^ 31) (thread_num : Nat) :
    Refines (act in_ out L) (trust M thread_num (in_ ++ out) L) (Trusted M L (in_ ++ out) d) := by
  rintro a ⟨ec, mem⟩ t h hpre
  have hM' : 0 < ec.maxSize := by rwa [h.maxSize]
  have hdvd' : ec.maxSize ∣ L := by rwa [h.maxSize]
  cases a with
  | lose x =>
    obtain ⟨hs, hsame⟩ := x.keeps mem h.strips
    refine returns_some ⟨h.sound, h.maxSize, hs, fun r hrc hbad p hp => ?_, h.clobbered, h.rows, h.cached⟩
    obtain ⟨hbad, hlost⟩ := not_or.1 (mt Finset.mem_union.2 hbad)
    rw [word, hsame r hrc hlost p hp]
    exact h.words r hrc hbad p hp
  | encode assign w =>
    obtain ⟨s, hrun, hs⟩ := h.scheduled hk hM hdvd hlt hpre.1 hpre.2
    rw [act, hrun]
    exact returns_some hs
  | encodePtr =>
    obtain ⟨r, he, -, hw⟩ := encodePtr_mul ec hM' h.strips hdvd' hlt
    rw [act, call, he]
    exact returns_some (h.encoded hw)
  | decode e l =>
    have hr := ValidList.recoverable hpre hkn h.sound
    obtain ⟨r, he, -, h', hw⟩ := decodePtr_spec h.sound hM' hpre hr h.strips hdvd'
    rw [act, call, decode_eq_decodePtr hk hlt, he]
    exact returns_some (h.decoded hpre hr h' hw)
  | decodePtr e l =>
    have hr := ValidList.recoverable hpre hkn h.sound
    obtain ⟨r, he, -, h', hw⟩ := decodePtr_spec h.sound hM' hpre hr h.strips hdvd'
    rw [act, call, he]
    exact returns_some (h.decoded hpre hr h' hw)
  | cacheGTbls e l =>
    obtain ⟨r, he, -, h'⟩ := cacheGTbls_spec h.sound hpre (ValidList.recoverable hpre hkn h.sound)
    rw [act, call, he]
    refine returns_some ⟨h'.toSameCode.sound h.sound, h'.maxSize.trans h.maxSize, h.strips, ?_, h.clobbered, ?_, ?_⟩
    · rw [h'.toSameCode.gen]
      exact h.words
    · rw [h'.toSameCode.gen, h'.g_tbls]
      exact h.rows
    · rintro e' l' hc
      cases hc
      exact ⟨hpre, h'.decodes⟩
  | cacheDecodePtr e l =>
    obtain ⟨hl, hd⟩ := h.cached e l hpre
    have hr := hl.recoverable hkn h.sound
    have hsize : k * L / k = L := Nat.mul_div_cancel_left L hk
    have hcov : (k * L / k + ec.maxSize - 1) / ec.maxSize * ec.maxSize = L := by
      obtain ⟨B, hB⟩ := hdvd'
      rw [hsize, hB, Nat.mul_comm ec.maxSize, ceil_mul hM']
    obtain ⟨r, he, -, hw⟩ := cacheDecodePtr_spec hM' hk hd hl hr h.strips (by rwa [hsize]) (Nat.le_of_eq hcov)
    rw [hcov] at hw
    rw [act, call, he]
    exact returns_some ⟨h.sound, h.maxSize, hw.strips h.strips, h.words.recovered hr h.strips hw, h.clobbered, h.rows,
      h.cached⟩

/-- A new object, and data in the first `k` strips. -/
theorem new_trusted {thread_num : Nat} {raw : IsaEC k n} (hnew : new raw M thread_num = some ec)
    (hs : Strips mem v L) : Trusted M L v (fun p j => word mem v p j) (ec, mem) ⟨Trust.parity k n, 0, none⟩ := by
  have hf := new_fresh hnew
  refine ⟨hf.sound, hf.maxSize_eq, hs, fun r hrc hbad p _ => ?_, Nat.zero_le n,
    fun l _ hl => tableRows_intact hf.intact hl, fun _ _ hc => nomatch hc⟩
  have hbad : ¬ (k ≤ r ∧ r < k + n) := mt Finset.mem_Ico.2 hbad
  have hrk : r < k := by omega
  exact (gen_data hf.sound hrk fun j => word mem v p j).symm

end

theorem Trust.first_encoded : (Trust.encoded k n ⟨Trust.parity k n, 0, none⟩).bad = ∅ := by
  have hparity : ∀ r, r ∈ Trust.parity k n → k ≤ r := fun r hr => (Finset.mem_Ico.1 hr).1
  simp only [Trust.encoded, if_pos hparity]
  exact Finset.Ico_self k

theorem Trust.recovered_subset {t : Trust} {E : Finset Nat} : t.recovered k E ⊆ t.bad ∪ E := by
  rw [Trust.recovered]
  split
  · exact Finset.sdiff_subset.trans Finset.subset_union_left
  · exact Finset.Subset.refl _

/-- The first strip's bytes are lost. -/
def loseFirst : Loss (ownBuffers 0 2 ++ ownBuffers 2 1) 4 where
  strips := {0}
  change mem := mapBytes mem fun q y => if q.buf = 0 then 255 else y
  keeps mem hs := by
    refine ⟨hs.of_isSome fun q hq => by rw [load_mapBytes, load_eq hq]; rfl, fun r hr hne p hp => ?_⟩
    have hbuf : (cell (ownBuffers 0 2 ++ ownBuffers 2 1) r).buf ≠ 0 := by
      obtain rfl | rfl : r = 1 ∨ r = 2 := by
        have : r ≠ 0 := fun h => hne (Finset.mem_singleton.2 h)
        omega
      all_goals decide
    rw [stripByte, byteAt, load_mapBytes, Ptr.add_buf]
    simp only [if_neg hbuf]
    rw [Option.map_id']
    rfl

/-- How a list is repaired. -/
inductive Method
  | decode | decodePtr | cached

/-- Strips are lost, and a list that names them is repaired. -/
structure Repair (v : Vector Ptr (k + n)) (L : Nat) where
  loss : Loss v L
  err_num : Nat
  err_list : Vector UInt8 err_num
  valid : ValidList k n err_list
  listed : loss.strips ⊆ erased err_list
  method : Method

section
variable {v : Vector Ptr (k + n)} {M L thread_num : Nat}

def Repair.actions (r : Repair v L) : List (Action v L) :=
  match r.method with
  | .decode => [.lose r.loss, .decode r.err_num r.err_list]
  | .decodePtr => [.lose r.loss, .decodePtr r.err_num r.err_list]
  | .cached => [.lose r.loss, .cacheGTbls r.err_num r.err_list, .cacheDecodePtr r.err_num r.err_list]

/-- The sources of a list are outside it. -/
theorem Trust.recovered_empty {t : Trust} {E : Finset Nat} (h : t.bad ⊆ E) : t.recovered k E = ∅ := by
  rw [Trust.recovered, if_pos fun i _ hi => survivor_not_mem E i (h hi)]
  exact Finset.sdiff_eq_empty_iff_subset.2 h

theorem Repair.restores (r : Repair v L) {t : Trust} (ht : t.bad = ∅) :
    (trust M thread_num v L).Allows r.actions t ∧ ((trust M thread_num v L).after r.actions t).bad = ∅ := by
  have hlost : t.bad ∪ r.loss.strips ⊆ erased r.err_list := by
    rw [ht, Finset.empty_union]
    exact r.listed
  obtain ⟨loss, e, l, valid, listed, method⟩ := r
  cases method with
  | decode => exact ⟨⟨trivial, valid, trivial⟩, Trust.recovered_empty hlost⟩
  | decodePtr => exact ⟨⟨trivial, valid, trivial⟩, Trust.recovered_empty hlost⟩
  | cached => exact ⟨⟨trivial, valid, rfl, trivial⟩, Trust.recovered_empty hlost⟩

theorem repairs_restored (rounds : List (Repair v L)) {t : Trust} (ht : t.bad = ∅) :
    (trust M thread_num v L).Allows (rounds.flatMap Repair.actions) t ∧
      ((trust M thread_num v L).after (rounds.flatMap Repair.actions) t).bad = ∅ := by
  induction rounds generalizing t with
  | nil => exact ⟨trivial, ht⟩
  | cons r rounds ih =>
    obtain ⟨hr, hbad⟩ := r.restores ht
    obtain ⟨hw, hend⟩ := ih hbad
    rw [List.flatMap_cons, Spec.allows_append, Spec.after_append]
    exact ⟨⟨hr, hw⟩, hend⟩

end

/-- **Repairs.** Data encoded once survives any rounds of losses, each repaired before
the next by a list that names what is lost, whatever methods repair them. -/
theorem repairs_restore (hk : 0 < k) (hkn : k + n ≤ 256) {M L thread_num : Nat} (hM : 0 < M) (hdvd : M ∣ L)
    (hlt : L < 2 ^ 31) {in_ : Vector Ptr k} {out : Vector Ptr n} {raw ec : IsaEC k n} {mem : Mem}
    (hnew : new raw M thread_num = some ec) (hs : Strips mem (in_ ++ out) L) (rounds : List (Repair (in_ ++ out) L)) :
    Returns (run (act in_ out L) (.encodePtr :: rounds.flatMap Repair.actions) (ec, mem)) fun s =>
      ∀ r, r < k + n → ∀ p, p < L →
        word s.2 (in_ ++ out) p r = encodeMatrix k r ⬝ᵥ fun j : Fin k => word mem (in_ ++ out) p j := by
  obtain ⟨hw, hend⟩ := repairs_restored rounds (Trust.first_encoded (k := k) (n := n))
  have hallowed : (trust M thread_num (in_ ++ out) L).Allows (.encodePtr :: rounds.flatMap Repair.actions)
      ⟨Trust.parity k n, 0, none⟩ := ⟨trivial, hw⟩
  have hdone : ((trust M thread_num (in_ ++ out) L).after (.encodePtr :: rounds.flatMap Repair.actions)
      ⟨Trust.parity k n, 0, none⟩).bad = ∅ := hend
  refine ((act_refines hk hkn hM hdvd hlt thread_num).run (new_trusted hnew hs) hallowed).mono fun s h r hr p hp => ?_
  rw [h.words r hr (by rw [hdone]; exact Finset.notMem_empty r) p hp, h.sound r hr]

/-- Two rounds on the same strips: strip 0 is lost and comes back from the cache, and
is lost again and comes back from `decode`. -/
theorem repairs_restore_two : ∃ ec, new (default : IsaEC 2 1) 2 4 = some ec ∧
    Returns (run (act (ownBuffers 0 2) (ownBuffers 2 1) 4)
      [.encodePtr, .lose loseFirst, .cacheGTbls 1 #v[0], .cacheDecodePtr 1 #v[0], .lose loseFirst, .decode 1 #v[0]]
      (ec, Array.replicate 3 #[1, 2, 3, 4])) fun s => ∀ r, r < 2 + 1 → ∀ p, p < 4 →
        word s.2 (ownBuffers 0 2 ++ ownBuffers 2 1) p r = encodeMatrix 2 r ⬝ᵥ fun j : Fin 2 =>
          word (Array.replicate 3 #[1, 2, 3, 4]) (ownBuffers 0 2 ++ ownBuffers 2 1) p j := by
  obtain ⟨ec, he⟩ := new_isSome (default : IsaEC 2 1) 2 4 (by decide)
  have hl : ValidList 2 1 #v[(0 : UInt8)] := ⟨by decide, by decide⟩
  let round (m : Method) : Repair (ownBuffers 0 2 ++ ownBuffers 2 1) 4 := ⟨loseFirst, 1, #v[0], hl, by decide, m⟩
  exact ⟨ec, he, repairs_restore (by decide) (by decide) (by decide) (by decide) (by decide) he (by decide)
    [round .cached, round .decode]⟩

end ErasureCode.IsaEC
