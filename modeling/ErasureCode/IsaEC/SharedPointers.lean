import ErasureCode.Core.Run
import ErasureCode.IsaEC.Encoding

/-!
# The shared pointer array of `encode`

`encode` declares `frag_ptrs` outside its parallel loop
(`src/IsaEC.cpp:63`), so all its threads store into one array; `encode_ptr`
declares it inside (`src/IsaEC.cpp:113`). A round is `k + n` stores and one
`ec_encode_data`, which takes its windows from the array as it then is.

When two threads' stores mix, the encoder reads and writes windows of different
blocks (`encodeFrag_mixed`). `parallel_encode_iff`: every schedule of every
assignment leaves what the rounds in order leave exactly with one thread, or one
block, or where no round has an effect and the blocks do not differ (`Settled`).
`lostBlock` is a schedule of two threads that leaves a block unwritten.
-/
namespace ErasureCode.IsaEC

open ErasureCode.Core Isal

variable {k n : Nat}

/-- The shared array, and the memory. -/
abbrev Frags (k n : Nat) := Vector (Option Ptr) (k + n) × Mem

/-- A step of a round: the store of slot `i` for block `b`, or the call of the
encoder. -/
inductive FragAction where
  | store (b i : Nat)
  | encode
  deriving DecidableEq, Repr

/-- mirrors src/IsaEC.cpp:67-81 -/
def fragStep (ec : IsaEC k n) (in_ : Vector Ptr k) (out : Vector Ptr n) (a : FragAction) (s : Frags k n) :
    Option (Frags k n) :=
  match a with
  | .store b i => storeFrag in_ out (b * ec.maxSize) i s
  | .encode => encodeFrag ec s

/-- The stores of block `b`'s round. -/
def fragStores (m b : Nat) : List FragAction := (List.range m).map (.store b)

/-- The round of block `b`. -/
def fragRound (m b : Nat) : List FragAction := fragStores m b ++ [.encode]

/-- The rounds that thread `t` is assigned, in order. -/
def threadProgram (m B : Nat) (assign : Nat → Nat) (t : Nat) : List FragAction :=
  ((List.range B).filter fun b => assign b = t).flatMap (fragRound m)

/-- `encode` under any assignment of the rounds to the threads and any schedule
leaves the parity strips as the rounds in order do. -/
def ParallelEncodes (ec : IsaEC k n) (in_ : Vector Ptr k) (out : Vector Ptr n) (size : Nat) (mem : Mem) : Prop :=
  Returns (encode ec in_ out (k * size) mem) fun r =>
    ∀ assign : Nat → Nat, (∀ b, b < size / ec.maxSize → assign b < ec.thread_num) →
      ∀ w, Schedules (threadProgram (k + n) (size / ec.maxSize) assign) w →
        Returns (run (fragStep ec in_ out) (w.map Prod.snd) (Vector.replicate (k + n) none, mem)) fun s =>
          ∀ l, l < n → ∀ p, p < size → stripByte s.2 out l p = stripByte r.1 out l p

/-- The parity strips hold the parity already, and no coefficient tells one
block of its data strip from another. -/
structure Settled (ec : IsaEC k n) (in_ : Vector Ptr k) (out : Vector Ptr n) (size : Nat) (mem : Mem) : Prop where
  parity : ∀ r, r < k + n → k ≤ r → ∀ p, p < size → stripByte mem (in_ ++ out) r p = ec.encodedByte mem in_ out r p
  blocks : ∀ l, l < n → ∀ j, j < k → ∀ b, b < size / ec.maxSize → ∀ b', b' < size / ec.maxSize →
    ∀ i, i < ec.maxSize →
      gfMul (stripByte mem (in_ ++ out) j (b * ec.maxSize + i)) (coef ec.g_tbls k l j) =
        gfMul (stripByte mem (in_ ++ out) j (b' * ec.maxSize + i)) (coef ec.g_tbls k l j)

section
variable {in_ : Vector Ptr k} {out : Vector Ptr n} {mem : Mem} {L B m : Nat} {ec : IsaEC k n}

theorem mem_fragRound {b : Nat} {a : FragAction} (h : a ∈ fragRound m b) :
    a = .encode ∨ ∃ i, i < m ∧ a = .store b i := by
  unfold fragRound fragStores at h
  simp only [List.mem_append, List.mem_map, List.mem_range, List.mem_singleton] at h
  rcases h with ⟨i, hi, rfl⟩ | rfl
  · exact .inr ⟨i, hi, rfl⟩
  · exact .inl rfl

theorem mem_threadProgram {assign : Nat → Nat} {t : Nat} {a : FragAction} (h : a ∈ threadProgram m B assign t) :
    a = .encode ∨ ∃ b i, b < B ∧ i < m ∧ a = .store b i := by
  obtain ⟨b, hb, ha⟩ := List.mem_flatMap.1 h
  have hlt : b < B := by simpa using (List.mem_filter.1 hb).1
  rcases mem_fragRound ha with rfl | ⟨i, hi, rfl⟩
  · exact .inl rfl
  · exact .inr ⟨b, i, hlt, hi, rfl⟩

/-- A parity strip as one of all the strips. -/
theorem stripByte_out (in_ : Vector Ptr k) {l : Nat} (hl : l < n) (p : Nat) :
    stripByte mem out l p = stripByte mem (in_ ++ out) (k + l) p := by
  rw [stripByte, stripByte, cell_append in_ out (by omega), if_neg (by omega), Nat.add_sub_cancel_left]

/-! ## One call of the encoder -/

/-- The call on pointers into blocks of their own, `f i` for strip `i`. -/
theorem encodeFrag_mixed (s : Frags k n) (hs : Strips s.2 (in_ ++ out) L) {f : Nat → Nat}
    (hslot : ∀ i, i < k + n → slot s.1 i = some ((cell (in_ ++ out) i).add (f i * ec.maxSize)))
    (hf : ∀ i, i < k + n → f i * ec.maxSize + ec.maxSize ≤ L) :
    Returns (encodeFrag ec s) fun s' => s'.1 = s.1 ∧ Strips s'.2 (in_ ++ out) L ∧
      ∀ r, r < k + n → ∀ b i, i < ec.maxSize → b * ec.maxSize + i < L →
        stripByte s'.2 (in_ ++ out) r (b * ec.maxSize + i) =
          if k ≤ r ∧ b = f r then
            dotBytes k (coef ec.g_tbls k (r - k)) fun j => stripByte s.2 (in_ ++ out) j (f j * ec.maxSize + i)
          else stripByte s.2 (in_ ++ out) r (b * ec.maxSize + i) := by
  obtain ⟨T, hT⟩ := hs.exists_values fun r p => dotBytes k (coef ec.g_tbls k (r - k)) fun j =>
    stripByte s.2 (in_ ++ out) j (f j * ec.maxSize + (p - f r * ec.maxSize))
  have hw : Windows s.2 k n ec.maxSize (fun j => (cell (in_ ++ out) j).add (f j * ec.maxSize))
      (fun l => (cell (in_ ++ out) (k + l)).add (f (k + l) * ec.maxSize)) := by
    refine ⟨fun j hj i hi => ?_, fun l hl i hi => ?_, fun j hj l hl i hi i' hi' => ?_⟩
    · rw [Ptr.add_add]
      exact hs.valid j (by omega) _ (by have := hf j (by omega); omega)
    · rw [Ptr.add_add]
      exact hs.valid (k + l) (by omega) _ (by have := hf (k + l) (by omega); omega)
    · rw [Ptr.add_add, Ptr.add_add]
      have := hf j (by omega)
      have := hf (k + l) (by omega)
      exact hs.disj j (by omega) (k + l) (by omega) (by omega) _ (by omega) _ (by omega)
  have hTar : Target ec.g_tbls k n 0 (0 + ec.maxSize) (fun j => (cell (in_ ++ out) j).add (f j * ec.maxSize))
      (fun l => (cell (in_ ++ out) (k + l)).add (f (k + l) * ec.maxSize)) s.2 T := by
    intro l hl i _ hi
    have := hf (k + l) (by omega)
    rw [Ptr.add_add, hT (k + l) (by omega) _ (by omega), Nat.add_sub_cancel_left, Nat.add_sub_cancel_left]
    exact dotBytes_congr (fun _ _ => rfl) fun j _ => by rw [Ptr.add_add]; rfl
  unfold encodeFrag
  refine (ecEncodeData_spec (Nat.le_refl _) (fun j hj => hslot j (by omega))
    (fun l hl => hslot (k + l) (by omega)) hw (Nat.zero_add _).le hTar).bind fun mem' h =>
      returns_some ⟨rfl, hs.of_isSome fun _ => h.isSome, fun r hr b i hi hp => ?_⟩
  by_cases hc : k ≤ r ∧ b = f r
  · obtain ⟨hkr, rfl⟩ := hc
    have hmem : load mem' ((cell (in_ ++ out) r).add (f r * ec.maxSize + i)) = some _ :=
      h.set _ ⟨r - k, by omega, i, Nat.zero_le _, by omega, by simp only [Nat.add_sub_cancel' hkr, Ptr.add_add]⟩
    rw [if_pos ⟨hkr, rfl⟩, stripByte, byteAt, hmem, Option.getD_some, hT r hr _ hp, Nat.add_sub_cancel_left]
  · rw [if_neg hc, stripByte, h.byteAt_frame, stripByte]
    rintro ⟨l, hl, i', _, hi', e⟩
    rw [Ptr.add_add] at e
    have := hf (k + l) (by omega)
    obtain ⟨rfl, e'⟩ := hs.add_inj hr (by omega) hp (by omega) e
    exact hc ⟨Nat.le_add_right k l, (pos_inj hi (by omega) e').1⟩

/-! ## The rounds in order -/

theorem run_fragStores (b : Nat) (s : Frags k n) :
    run (fragStep ec in_ out) (fragStores (k + n) b) s = forUp 0 (k + n) s (storeFrag in_ out (b * ec.maxSize)) := by
  rw [fragStores, run_map, run_range]
  rfl

theorem run_fragRound (b : Nat) (s : Frags k n) :
    run (fragStep ec in_ out) (fragRound (k + n) b) s = (do
      let s ← forUp 0 (k + n) s (storeFrag in_ out (b * ec.maxSize))
      encodeFrag ec s) := by
  rw [fragRound, run_append, run_fragStores]
  exact bind_congr fun t => run_cons.trans (Option.bind_fun_some _)

theorem encode_eq_run (hk : 0 < k) (hM : 0 < ec.maxSize) (hlt : B * ec.maxSize < 2 ^ 31) :
    encode ec in_ out (k * (B * ec.maxSize)) mem =
      (run (fragStep ec in_ out) ((List.range B).flatMap (fragRound (k + n)))
        (Vector.replicate (k + n) none, mem)).map fun s => (s.2, true) := by
  rw [encode_eq ec hk hM hlt, run_flatMap, run_range]
  exact congrArg _ (forUp_congr fun b s _ _ => (run_fragRound b s).symm)

/-- Where one thread has all the rounds, the only schedule is the rounds in
order. -/
theorem schedule_single {assign : Nat → Nat} {t : Nat} (hall : ∀ b, b < B → assign b = t)
    {w : List (Nat × FragAction)} (hw : Schedules (threadProgram m B assign) w) :
    w.map Prod.snd = (List.range B).flatMap (fragRound m) := by
  rw [schedules_single hw (t := t) fun u hu => ?_, threadProgram, List.filter_eq_self.2]
  · intro b hb
    simpa using hall b (List.mem_range.1 hb)
  · rw [threadProgram, List.filter_eq_nil_iff.2, List.flatMap_nil]
    intro b hb
    simpa [hall b (List.mem_range.1 hb)] using Ne.symm hu

/-- So it is with one thread, and with one round at most. -/
theorem schedule_in_order {thread_num : Nat} (h : thread_num = 1 ∨ B ≤ 1) {assign : Nat → Nat}
    (hassign : ∀ b, b < B → assign b < thread_num) {w : List (Nat × FragAction)}
    (hw : Schedules (threadProgram m B assign) w) : w.map Prod.snd = (List.range B).flatMap (fragRound m) := by
  rcases h with h | h
  · exact schedule_single (t := 0) (fun b hb => by have := hassign b hb; omega) hw
  · exact schedule_single (t := assign 0) (fun b hb => by rw [show b = 0 by omega]) hw

theorem blocks_le_one (hM : 0 < ec.maxSize) (h : B * ec.maxSize ≤ ec.maxSize) : B ≤ 1 := by
  by_contra hc
  have := Nat.mul_le_mul_right ec.maxSize (show 2 ≤ B by omega)
  omega

/-! ## What no schedule changes -/

/-- The encoder is called only on a full array. -/
theorem stores_before_encode {assign : Nat → Nat} {w w₁ w₂ : List (Nat × FragAction)} {t i : Nat}
    (hw : Schedules (threadProgram m B assign) w) (he : w = w₁ ++ (t, .encode) :: w₂) (hi : i < m) :
    ∃ b, .store b i ∈ w₁.map Prod.snd := by
  have hP := hw t
  rw [he, proj_append, proj_cons, if_pos rfl] at hP
  unfold threadProgram at hP
  cases hL : (List.range B).filter fun b => assign b = t with
  | nil => simp [hL] at hP
  | cons b L =>
    rw [hL, List.flatMap_cons, fragRound, List.append_assoc] at hP
    have hmem : FragAction.store b i ∈ proj t w₁ := by
      have hst : FragAction.store b i ∈ fragStores m b := by simp [fragStores, hi]
      rcases List.append_eq_append_iff.1 hP with ⟨u, hu, hr⟩ | ⟨u, hu, -⟩
      · -- the thread's stores end before its first call
        cases u with
        | nil => rwa [hu, List.append_nil] at hst
        | cons a u =>
          obtain rfl := (List.cons.inj hr).1
          have : FragAction.encode ∈ fragStores m b := by rw [hu]; simp
          simp [fragStores] at this
      · rw [hu]
        exact List.mem_append_left _ hst
    simp only [proj, List.mem_map, List.mem_filter] at hmem
    obtain ⟨e, ⟨he, -⟩, hb⟩ := hmem
    exact ⟨b, List.mem_map.2 ⟨e, he, hb⟩⟩

/-- What holds in every state of a schedule: the strips of `keep` are as in `mem`,
every slot is unset or some block of its strip, and what has been stored stays
set. -/
structure Unchanged (ec : IsaEC k n) (in_ : Vector Ptr k) (out : Vector Ptr n) (mem : Mem) (L B : Nat)
    (keep : Nat → Prop) (done : List FragAction) (s : Frags k n) : Prop where
  strips : Strips s.2 (in_ ++ out) L
  bytes : ∀ r, r < k + n → keep r → ∀ p, p < L → stripByte s.2 (in_ ++ out) r p = stripByte mem (in_ ++ out) r p
  slots : ∀ i, i < k + n → slot s.1 i = none ∨
    ∃ b, b < B ∧ slot s.1 i = some ((cell (in_ ++ out) i).add (b * ec.maxSize))
  stored : ∀ b i, i < k + n → .store b i ∈ done → slot s.1 i ≠ none

/-- What may be kept: data strips, or all strips of a settled memory. -/
def Keepable (ec : IsaEC k n) (in_ : Vector Ptr k) (out : Vector Ptr n) (L : Nat) (mem : Mem) (keep : Nat → Prop) :
    Prop :=
  (∀ r, keep r → r < k) ∨ ((∀ j, j < k → keep j) ∧ Settled ec in_ out L mem)

variable {size : Nat} {done : List FragAction} {s : Frags k n} {keep : Nat → Prop}

theorem Unchanged.store (h : Unchanged ec in_ out mem L B keep done s) {b i : Nat} (hb : b < B) (hi : i < k + n) :
    Returns (fragStep ec in_ out (.store b i) s) (Unchanged ec in_ out mem L B keep (done ++ [.store b i])) := by
  refine (storeFrag_spec in_ out (b * ec.maxSize) hi s).mono fun s' ⟨hm, hs⟩ => ?_
  refine ⟨hm ▸ h.strips, fun r hr hkeep p hp => by rw [hm, h.bytes r hr hkeep p hp], fun x hx => ?_, fun c x hx hc => ?_⟩
  · rw [hs x]
    split
    · rename_i e
      exact .inr ⟨b, hb, by rw [e]⟩
    · exact h.slots x hx
  · rw [hs x]
    split
    · exact Option.some_ne_none _
    · rename_i hne
      rcases List.mem_append.1 hc with hc | hc
      · exact h.stored c x hx hc
      · cases List.mem_singleton.1 hc
        exact absurd rfl hne

theorem Unchanged.encode (h : Unchanged ec in_ out mem L B keep done s) (hL : B * ec.maxSize = L)
    (hkeep : Keepable ec in_ out L mem keep) (hM : 0 < ec.maxSize)
    (hfull : ∀ i, i < k + n → ∃ b, .store b i ∈ done) :
    Returns (fragStep ec in_ out .encode s) (Unchanged ec in_ out mem L B keep (done ++ [.encode])) := by
  have hex : ∀ i, ∃ b, i < k + n → b < B ∧ slot s.1 i = some ((cell (in_ ++ out) i).add (b * ec.maxSize)) := by
    intro i
    by_cases hi : i < k + n
    · obtain ⟨c, hc⟩ := hfull i hi
      obtain ⟨b, hb⟩ := (h.slots i hi).resolve_left (h.stored c i hi hc)
      exact ⟨b, fun _ => hb⟩
    · exact ⟨0, fun hc => absurd hc hi⟩
  obtain ⟨f, hf⟩ := Classical.axiomOfChoice hex
  have hfL : ∀ i, i < k + n → f i * ec.maxSize + ec.maxSize ≤ L := fun i hi => by
    rw [← hL, ← Nat.succ_mul]
    exact Nat.mul_le_mul_right _ (hf i hi).1
  refine (encodeFrag_mixed s h.strips (fun i hi => (hf i hi).2) hfL).mono fun s' ⟨hp, hs', hb⟩ => ?_
  refine ⟨hs', fun r hr hkr p hpL => ?_, fun i hi => hp ▸ h.slots i hi, fun c i hi hc => ?_⟩
  · have hdiv : L / ec.maxSize = B := by rw [← hL, Nat.mul_div_cancel _ hM]
    rw [← hL] at hpL
    obtain ⟨b, i, hbB, hi, rfl⟩ := pos_surj hpL
    rw [hL] at hpL
    rw [hb r hr b i hi hpL]
    split
    · rename_i hc
      obtain ⟨hle, rfl⟩ := hc
      rcases hkeep with hdata | ⟨hdata, hset⟩
      · exact absurd (hdata r hkr) (Nat.not_lt.2 hle)
      · -- the windows the sources are taken from do not matter
        rw [hset.parity r hr hle _ hpL, encodedByte]
        refine dotBytes_congr_mul fun j hj => ?_
        have hj' := hfL j (by omega)
        rw [h.bytes j (by omega) (hdata j hj) _ (by omega)]
        exact hset.blocks (r - k) (by omega) j hj _ (hdiv ▸ (hf j (by omega)).1) _ (hdiv ▸ hbB) i hi
    · exact h.bytes r hr hkr _ hpL
  · rcases List.mem_append.1 hc with hc | hc
    · exact hp ▸ h.stored c i hi hc
    · cases List.mem_singleton.1 hc

/-- Every schedule returns, and leaves what may be kept as it is. -/
theorem schedule_unchanged (hs : Strips mem (in_ ++ out) L) (hL : B * ec.maxSize = L) (hM : 0 < ec.maxSize)
    (hkeep : Keepable ec in_ out L mem keep) {assign : Nat → Nat} {w : List (Nat × FragAction)}
    (hw : Schedules (threadProgram (k + n) B assign) w) :
    Returns (run (fragStep ec in_ out) (w.map Prod.snd) (Vector.replicate (k + n) none, mem))
      (Unchanged ec in_ out mem L B keep (w.map Prod.snd)) := by
  refine Returns.run_prefix (I := Unchanged ec in_ out mem L B keep) ?_ fun w₁ a w₂ s he h => ?_
  · exact ⟨hs, fun _ _ _ _ _ => rfl, fun i hi => .inl (by simp [slot, hi]), fun _ _ _ hc => absurd hc List.not_mem_nil⟩
  · obtain ⟨v₁, v₂, hv, rfl, hv₂⟩ := List.map_eq_append_iff.1 he
    obtain ⟨e, v₃, rfl, rfl, -⟩ := List.map_eq_cons_iff.1 hv₂
    have hmem : e ∈ w := by rw [hv]; simp
    rcases mem_threadProgram (mem_of_schedules hw hmem) with ha | ⟨b, i, hb, hi, ha⟩
    · rw [ha]
      exact h.encode hL hkeep hM fun i hi => stores_before_encode (t := e.1) hw (by rw [hv, ← ha]) hi
    · rw [ha]
      exact h.store hb hi

/-! ## Two threads in the array -/

/-- Both threads store slot `i`; block `b`'s pointer stays if `late i`, else
block `a`'s. -/
def bothStore (late : Nat → Bool) (a b i : Nat) : List (Nat × FragAction) :=
  if late i then [(1, .store a i), (0, .store b i)] else [(0, .store b i), (1, .store a i)]

/-- Thread 1 runs the round of block `a` while thread 0 is in that of `b`. -/
def mixedSchedule (m : Nat) (late : Nat → Bool) (a b : Nat) (before after : List Nat) : List (Nat × FragAction) :=
  (before.flatMap (fragRound m)).map (Prod.mk 0) ++ ((List.range m).flatMap (bothStore late a b) ++
    ([(1, .encode), (0, .encode)] ++ (after.flatMap (fragRound m)).map (Prod.mk 0)))

/-- Block `a` goes to thread 1, the others to thread 0. -/
def setAside (a x : Nat) : Nat := if x = a then 1 else 0

variable {late : Nat → Bool} {a b : Nat} {before after : List Nat} {X : Nat → Nat → UInt8}

theorem proj_bothStores (t : Nat) : proj t ((List.range m).flatMap (bothStore late a b)) =
    if t = 0 then fragStores m b else if t = 1 then fragStores m a else [] := by
  have hone : ∀ i, proj t (bothStore late a b i) =
      if t = 0 then [.store b i] else if t = 1 then [.store a i] else [] := by
    intro i
    unfold bothStore
    by_cases h0 : t = 0
    · subst h0
      split <;> simp
    · by_cases h1 : t = 1
      · subst h1
        split <;> simp
      · have h0' : ¬ 0 = t := Ne.symm h0
        have h1' : ¬ 1 = t := Ne.symm h1
        rw [if_neg h0, if_neg h1]
        split <;> simp [h0', h1']
  simp only [proj_flatMap, hone]
  split
  · rw [← List.map_eq_flatMap]
    rfl
  · split
    · rw [← List.map_eq_flatMap]
      rfl
    · simp

theorem threadProgram_setAside (ha : a < B) (hB : ((List.range B).filter fun x => x ≠ a) = before ++ b :: after)
    (t : Nat) : threadProgram m B (setAside a) t =
      if t = 0 then (before ++ b :: after).flatMap (fragRound m) else if t = 1 then fragRound m a else [] := by
  unfold threadProgram setAside
  split
  · rename_i h0
    subst h0
    rw [← hB]
    congr 1
    exact List.filter_congr fun x _ => by by_cases hx : x = a <;> simp [hx]
  · rename_i h0
    split
    · rename_i h1
      subst h1
      have : ((List.range B).filter fun x => decide ((if x = a then 1 else 0) = 1)) = [a] := by
        rw [List.filter_congr (q := fun x => x == a) fun x _ => by by_cases hx : x = a <;> simp [hx],
          List.filter_beq, List.count_eq_one_of_mem List.nodup_range (List.mem_range.2 ha)]
        rfl
      rw [this]
      simp
    · rename_i h1
      rw [List.filter_eq_nil_iff.2 fun x _ => by by_cases hx : x = a <;> simp [hx, Ne.symm h0, Ne.symm h1]]
      rfl

theorem mixedSchedule_schedules (ha : a < B)
    (hB : ((List.range B).filter fun x => x ≠ a) = before ++ b :: after) :
    Schedules (threadProgram m B (setAside a)) (mixedSchedule m late a b before after) := by
  intro t
  rw [threadProgram_setAside ha hB, mixedSchedule]
  simp only [proj_append, proj_map, proj_bothStores, proj_cons, proj_nil]
  by_cases h0 : t = 0
  · subst h0
    simp [fragRound, List.flatMap_append]
  · by_cases h1 : t = 1
    · subst h1
      simp [fragRound]
    · simp [h0, h1, Ne.symm h0, Ne.symm h1]

/-- The data strips are as in `mem`, and block `a` of the parity strips holds
`X`. -/
structure Away (ec : IsaEC k n) (in_ : Vector Ptr k) (out : Vector Ptr n) (mem : Mem) (L a : Nat)
    (X : Nat → Nat → UInt8) (s : Frags k n) : Prop where
  strips : Strips s.2 (in_ ++ out) L
  data : ∀ j, j < k → ∀ p, p < L → stripByte s.2 (in_ ++ out) j p = stripByte mem (in_ ++ out) j p
  block : ∀ r, r < k + n → k ≤ r → ∀ i, i < ec.maxSize →
    stripByte s.2 (in_ ++ out) r (a * ec.maxSize + i) = X r i

/-- The product of block `a`'s row `r` with the windows `f` of the data strips. -/
def mixedByte (ec : IsaEC k n) (in_ : Vector Ptr k) (out : Vector Ptr n) (mem : Mem) (f : Nat → Nat)
    (r i : Nat) : UInt8 :=
  dotBytes k (coef ec.g_tbls k (r - k)) fun j => stripByte mem (in_ ++ out) j (f j * ec.maxSize + i)

theorem Away.encode (h : Away ec in_ out mem L a X s) (hM : 0 < ec.maxSize) (hL : B * ec.maxSize ≤ L)
    (ha : a < B) {f : Nat → Nat}
    (hf : ∀ i, i < k + n → f i < B)
    (hslot : ∀ i, i < k + n → slot s.1 i = some ((cell (in_ ++ out) i).add (f i * ec.maxSize))) :
    Returns (encodeFrag ec s) fun s' => s'.1 = s.1 ∧
      Away ec in_ out mem L a (fun r i => if a = f r then ec.mixedByte in_ out mem f r i else X r i) s' := by
  have hfit : ∀ x, x < B → x * ec.maxSize + ec.maxSize ≤ L := fun x hx => by
    rw [← Nat.succ_mul]
    exact Nat.le_trans (Nat.mul_le_mul_right _ hx) hL
  refine (encodeFrag_mixed s h.strips hslot fun i hi => hfit _ (hf i hi)).mono
    fun s' ⟨hp, hs', hb⟩ => ⟨hp, hs', fun j hj p hpL => ?_, fun r hr hkr i hi => ?_⟩
  · have hp' := hb j (by omega) (p / ec.maxSize) (p % ec.maxSize) (Nat.mod_lt _ hM)
    rw [Nat.div_add_mod' p] at hp'
    rw [hp' hpL, if_neg (by omega), h.data j hj p hpL]
  · have hpL : a * ec.maxSize + i < L := by have := hfit a ha; omega
    rw [hb r hr a i hi hpL]
    by_cases hc : a = f r
    · rw [if_pos ⟨hkr, hc⟩, if_pos hc]
      exact dotBytes_congr (fun _ _ => rfl) fun j hj =>
        h.data j hj _ (by have := hfit _ (hf j (by omega)); omega)
    · rw [if_neg fun h => hc h.2, if_neg hc, h.block r hr hkr i hi]

/-- Rounds of other blocks. -/
theorem Away.rounds (h : Away ec in_ out mem L a X s) (hM : 0 < ec.maxSize) (hL : B * ec.maxSize ≤ L)
    (ha : a < B) {l : List Nat} (hl : ∀ x ∈ l, x < B ∧ x ≠ a) :
    Returns (run (fragStep ec in_ out) (l.flatMap (fragRound (k + n))) s) (Away ec in_ out mem L a X) := by
  rw [run_flatMap]
  refine Returns.run (fun x hx t ht => ?_) h
  rw [run_fragRound]
  refine (storeFrags_spec (x * ec.maxSize) t).bind fun t' ⟨hm, hslot⟩ => ?_
  have ht' : Away ec in_ out mem L a X t' := ⟨hm ▸ ht.strips, hm ▸ ht.data, hm ▸ ht.block⟩
  refine (ht'.encode hM hL ha (f := fun _ => x) (fun _ _ => (hl x hx).1) hslot).mono fun u ⟨_, hu⟩ => ?_
  exact ⟨hu.strips, hu.data, fun r hr hkr i hi => by
    rw [hu.block r hr hkr i hi, if_neg (Ne.symm (hl x hx).2)]⟩

/-- The block a slot is left with when both threads have stored it. -/
def leftBlock (late : Nat → Bool) (a b i : Nat) : Nat := if late i then b else a

theorem bothStores_spec (s : Frags k n) :
    Returns (run (fragStep ec in_ out) (((List.range (k + n)).flatMap (bothStore late a b)).map Prod.snd) s)
      fun s' => s'.2 = s.2 ∧ ∀ i, i < k + n →
        slot s'.1 i = some ((cell (in_ ++ out) i).add (leftBlock late a b i * ec.maxSize)) := by
  rw [List.map_flatMap, run_flatMap, run_range]
  refine fillSlots_spec s fun i t hi => ?_
  -- the second store of the two stays
  have htwo : ∀ x y, Returns (run (fragStep ec in_ out) [.store x i, .store y i] t) fun t' => t'.2 = t.2 ∧
      ∀ z, slot t'.1 z = if z = i then some ((cell (in_ ++ out) i).add (y * ec.maxSize)) else slot t.1 z := by
    intro x y
    rw [run_cons]
    refine (storeFrag_spec in_ out (x * ec.maxSize) hi t).bind fun u ⟨hu, hus⟩ => ?_
    rw [run_cons]
    refine (storeFrag_spec in_ out (y * ec.maxSize) hi u).bind fun u' ⟨hu', hus'⟩ =>
      returns_some ⟨hu'.trans hu, fun z => ?_⟩
    rw [hus' z, hus z]
    split <;> rfl
  unfold bothStore leftBlock
  split
  · exact htwo a b
  · exact htwo b a

/-- What the mixed schedule leaves in block `a`: the bytes of `mem` where the
other thread's pointer was left, and the product of the mixed windows else. -/
theorem mixedSchedule_spec (hs : Strips mem (in_ ++ out) L) (hM : 0 < ec.maxSize) (hL : B * ec.maxSize ≤ L)
    (ha : a < B) (hB : ((List.range B).filter fun x => x ≠ a) = before ++ b :: after) :
    Returns (run (fragStep ec in_ out) ((mixedSchedule (k + n) late a b before after).map Prod.snd)
        (Vector.replicate (k + n) none, mem)) fun s =>
      ∀ r, r < k + n → k ≤ r → ∀ i, i < ec.maxSize → stripByte s.2 (in_ ++ out) r (a * ec.maxSize + i) =
        if late r then stripByte mem (in_ ++ out) r (a * ec.maxSize + i)
        else ec.mixedByte in_ out mem (leftBlock late a b) r i := by
  have hin : ∀ x ∈ before ++ b :: after, x < B ∧ x ≠ a := by
    rw [← hB]
    simp
  obtain ⟨hb, hba⟩ := hin b (by simp)
  have hf : ∀ i, i < k + n → leftBlock late a b i < B := fun i _ => by
    unfold leftBlock
    split <;> assumption
  simp only [mixedSchedule, List.map_append, List.map_map, Function.comp_def, List.map_id', List.map_cons, List.map_nil]
  have h0 : Away ec in_ out mem L a (fun r i => stripByte mem (in_ ++ out) r (a * ec.maxSize + i))
      (Vector.replicate (k + n) none, mem) := ⟨hs, fun _ _ _ _ => rfl, fun _ _ _ _ _ => rfl⟩
  rw [run_append]
  refine (h0.rounds hM hL ha fun x hx => hin x (List.mem_append_left _ hx)).bind fun s₁ h₁ => ?_
  rw [run_append]
  refine (bothStores_spec s₁).bind fun s₂ ⟨hm, hslot⟩ => ?_
  have h₂ : Away ec in_ out mem L a _ s₂ := ⟨hm ▸ h₁.strips, hm ▸ h₁.data, hm ▸ h₁.block⟩
  -- both calls find the same pointers, and the second finds the data as the first
  have hcalls : Returns (run (fragStep ec in_ out) [.encode, .encode] s₂) (Away ec in_ out mem L a fun r i =>
      if a = leftBlock late a b r then ec.mixedByte in_ out mem (leftBlock late a b) r i
      else stripByte mem (in_ ++ out) r (a * ec.maxSize + i)) := by
    rw [run_cons]
    refine Returns.bind (h₂.encode hM hL ha hf hslot) fun s₃ ⟨hp₃, h₃⟩ => ?_
    rw [run_cons]
    refine Returns.bind (h₃.encode hM hL ha hf fun i hi => hp₃ ▸ hslot i hi) fun s₄ ⟨_, h₄⟩ =>
      returns_some ⟨h₄.strips, h₄.data, fun r hr hkr i hi => ?_⟩
    rw [h₄.block r hr hkr i hi]
    split <;> rfl
  rw [run_append]
  refine hcalls.bind fun s₄ h₄ => (h₄.rounds hM hL ha fun x hx => hin x (by simp [hx])).mono
    fun s₅ h₅ r hr hkr i hi => ?_
  rw [h₅.block r hr hkr i hi, leftBlock]
  cases late r with
  | true => simp [Ne.symm hba]
  | false => simp

/-! ## When it makes no difference -/

/-- The mixed schedule must leave the parity too. -/
theorem mixed_eq (hs : Strips mem (in_ ++ out) (B * ec.maxSize)) (hk : 0 < k) (hM : 0 < ec.maxSize)
    (hlt : B * ec.maxSize < 2 ^ 31) (ht : 2 ≤ ec.thread_num)
    (h : ParallelEncodes ec in_ out (B * ec.maxSize) mem) (ha : a < B) (hb : b < B) (hne : b ≠ a)
    (late : Nat → Bool) {r i : Nat} (hr : r < k + n) (hkr : k ≤ r) (hi : i < ec.maxSize) :
    (if late r then stripByte mem (in_ ++ out) r (a * ec.maxSize + i)
      else ec.mixedByte in_ out mem (leftBlock late a b) r i) =
        ec.encodedByte mem in_ out r (a * ec.maxSize + i) := by
  obtain ⟨before, after, hB⟩ := List.append_of_mem
    (show b ∈ (List.range B).filter fun x => x ≠ a by simpa using ⟨hb, hne⟩)
  have hp : a * ec.maxSize + i < B * ec.maxSize := pos_lt ha hi
  obtain ⟨r₁, he, hpar⟩ := h
  have hseq := ((encode_mul ec hk hM hs (Nat.dvd_mul_left _ _) hlt).of_eq he).2
  rw [Nat.mul_div_cancel _ hM] at hpar
  obtain ⟨s, hrun, hout⟩ := hpar (setAside a) (fun x _ => by unfold setAside; split <;> omega) _
    (@mixedSchedule_schedules B (k + n) late a b before after ha hB)
  have hmix := (mixedSchedule_spec hs hM (Nat.le_refl _) ha hB).of_eq hrun
  have hl : r - k < n := by omega
  have := hout (r - k) hl _ hp
  rw [stripByte_out in_ hl, stripByte_out in_ hl, Nat.add_sub_cancel' hkr] at this
  rw [← hmix r hr hkr i hi, this, hseq.stripByte_set hr hkr hp]

/-- **The shared array.** `encode` on strips of `size` bytes leaves the parity
strips the same under every assignment of its rounds and every schedule exactly
with one thread, or at most one block, or on a settled memory. -/
theorem parallel_encode_iff {size : Nat} (hk : 0 < k) (hM : 0 < ec.maxSize) (ht : 0 < ec.thread_num)
    (hs : Strips mem (in_ ++ out) size) (hdvd : ec.maxSize ∣ size) (hlt : size < 2 ^ 31) :
    ParallelEncodes ec in_ out size mem ↔
      ec.thread_num = 1 ∨ size ≤ ec.maxSize ∨ Settled ec in_ out size mem := by
  obtain ⟨B, rfl⟩ := hdvd
  rw [Nat.mul_comm] at hs hlt ⊢
  have hdiv : B * ec.maxSize / ec.maxSize = B := Nat.mul_div_cancel _ hM
  constructor
  · intro h
    by_cases h1 : ec.thread_num = 1
    · exact .inl h1
    by_cases h2 : B * ec.maxSize ≤ ec.maxSize
    · exact .inr (.inl h2)
    have ht2 : 2 ≤ ec.thread_num := by omega
    have hB2 : 2 ≤ B := by
      by_contra hc
      have := Nat.mul_le_mul_right ec.maxSize (show B ≤ 1 by omega)
      omega
    refine .inr (.inr ⟨fun r hr hkr p hp => ?_, fun l hl j hj b hb a ha i hi => ?_⟩)
    · -- block `a` is lost
      obtain ⟨a, i, ha, hi, rfl⟩ := pos_surj hp
      exact mixed_eq (b := if a = 0 then 1 else 0) hs hk hM hlt ht2 h ha (by split <;> omega)
        (by split <;> omega) (fun _ => true) hr hkr hi
    · -- one of its sources is taken from block `b`
      rw [hdiv] at ha hb
      by_cases hba : b = a
      · rw [hba]
      · have := mixed_eq hs hk hM hlt ht2 h ha hb hba (fun x => x = j) (r := k + l) (by omega) (by omega) hi
        rw [if_neg (by simp; omega), mixedByte, encodedByte, Nat.add_sub_cancel_left] at this
        have := dotBytes_cancel hj (fun x hx => by simp [leftBlock, hx]) this
        simpa [leftBlock] using this
  · intro h
    obtain ⟨r, he, -, hw⟩ := encode_mul ec hk hM hs (Nat.dvd_mul_left _ _) hlt
    refine ⟨r, he, fun assign hassign w hsch => ?_⟩
    rw [hdiv] at hassign hsch
    -- the rounds are in order, or there is nothing to write
    have hor : w.map Prod.snd = (List.range B).flatMap (fragRound (k + n)) ∨ Settled ec in_ out (B * ec.maxSize) mem := by
      rcases h with h | h | h
      · exact .inl (schedule_in_order (.inl h) hassign hsch)
      · exact .inl (schedule_in_order (.inr (blocks_le_one hM h)) hassign hsch)
      · exact .inr h
    rcases hor with horder | hset
    · rw [horder]
      rw [encode_eq_run hk hM hlt] at he
      obtain ⟨s, hs', rfl⟩ := Option.map_eq_some_iff.1 he
      exact ⟨s, hs', fun l _ p _ => rfl⟩
    · have hkeep : Keepable ec in_ out (B * ec.maxSize) mem fun _ => True := .inr ⟨fun _ _ => trivial, hset⟩
      refine (schedule_unchanged hs rfl hM hkeep hsch).mono fun s hun l hl p hp => ?_
      rw [stripByte_out in_ hl, stripByte_out in_ hl, hun.bytes _ (by omega) trivial p hp,
        hw.stripByte_set (by omega) (Nat.le_add_right k l) hp, hset.parity _ (by omega) (Nat.le_add_right k l) p hp]

end

theorem parallel_encode_iff_one : ∃ ec : IsaEC 1 1, new default 1 2 = some ec ∧
    (ParallelEncodes ec (ownBuffers 0 1) (ownBuffers 1 1) 2 #[#[1, 2], #[0, 0]] ↔
      ec.thread_num = 1 ∨ 2 ≤ ec.maxSize ∨ Settled ec (ownBuffers 0 1) (ownBuffers 1 1) 2 #[#[1, 2], #[0, 0]]) := by
  obtain ⟨ec, h⟩ := new_isSome (default : IsaEC 1 1) 1 2 (by decide)
  have hf := new_fresh h
  exact ⟨ec, h, parallel_encode_iff (by decide) (by rw [hf.maxSize_eq]; decide) (by rw [hf.thread_num_eq]; decide)
    (by decide) (by rw [hf.maxSize_eq]; decide) (by decide)⟩

/-- Data bytes 1, 2 in two blocks of one byte, and two threads. Thread 1 stores
the pointers of block 0, thread 0 those of block 1, then both call the encoder:
block 0 of the parity is never written. -/
theorem lostBlock : ∃ ec : IsaEC 1 1, new default 1 2 = some ec ∧
    ¬ ParallelEncodes ec (ownBuffers 0 1) (ownBuffers 1 1) 2 #[#[1, 2], #[0, 0]] := by
  have hcomp : (do
      let ec ← new (default : IsaEC 1 1) 1 2
      let r ← encode ec (ownBuffers 0 1) (ownBuffers 1 1) 2 #[#[1, 2], #[0, 0]]
      let s ← run (fragStep ec (ownBuffers 0 1) (ownBuffers 1 1))
        ((mixedSchedule 2 (fun _ => true) 0 1 [] []).map Prod.snd)
        (Vector.replicate 2 none, #[#[1, 2], #[0, 0]])
      return (r.1, s.2)) = some (#[#[1, 2], #[1, 2]], #[#[1, 2], #[0, 2]]) := by
    decide +kernel
  obtain ⟨ec, h⟩ := new_isSome (default : IsaEC 1 1) 1 2 (by decide)
  have hf := new_fresh h
  refine ⟨ec, h, ?_⟩
  rintro ⟨r, he, hpar⟩
  rw [hf.maxSize_eq, hf.thread_num_eq] at hpar
  obtain ⟨s, hrun, hout⟩ := hpar (setAside 0) (fun b _ => by unfold setAside; split <;> decide) _
    (mixedSchedule_schedules (by decide) (show ((List.range 2).filter fun x => x ≠ 0) = [] ++ 1 :: [] by decide))
  rw [h, Option.bind_eq_bind, Option.bind_some, he, Option.bind_eq_bind, Option.bind_some, hrun,
    Option.bind_eq_bind, Option.bind_some] at hcomp
  obtain ⟨hr, hs⟩ := Prod.mk.inj (Option.some.inj hcomp)
  have hbyte := hout 0 (by decide) 0 (by decide)
  rw [hr, hs] at hbyte
  exact absurd hbyte (by decide)

end ErasureCode.IsaEC
