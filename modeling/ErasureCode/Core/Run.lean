import ErasureCode.Core.Loop

/-!
# Runs and interleavings

`run step w s` takes the actions `w` one after another; `none` is a fault.
`Always step P w s` says that `P` holds in every state that run goes through.

A schedule of the programs `P : ι → List α` is a list of (thread, action)
pairs whose restriction to each thread is that thread's program. When actions
of different threads commute, every schedule ends like the programs run one
after another (`run_schedules`).
-/
namespace ErasureCode.Core

variable {σ α β ι : Type}

/-! ## Runs -/

/-- The actions `w`, one after another. -/
def run (step : α → σ → Option σ) (w : List α) (s : σ) : Option σ :=
  w.foldlM (fun s a => step a s) s

section
variable {step : α → σ → Option σ} {w w' : List α} {s s' : σ} {a : α}

@[simp] theorem run_nil : run step [] s = some s := rfl

@[simp] theorem run_cons : run step (a :: w) s = step a s >>= run step w := by
  simp only [run, List.foldlM_cons]
  rfl

theorem run_append : run step (w ++ w') s = run step w s >>= run step w' := by
  simp only [run, List.foldlM_append]
  rfl

theorem run_flatMap {L : List β} {f : β → List α} :
    run step (L.flatMap f) s = run (fun b => run step (f b)) L s := by
  induction L generalizing s with
  | nil => rfl
  | cons b L ih =>
    rw [List.flatMap_cons, run_append, run_cons]
    exact bind_congr fun _ => ih

theorem run_map {f : β → α} {L : List β} : run step (L.map f) s = run (fun b => step (f b)) L s := by
  simp [run, List.foldlM_map]

theorem run_congr {step' : α → σ → Option σ} (h : ∀ a ∈ w, ∀ s, step a s = step' a s) :
    run step w s = run step' w s := by
  induction w generalizing s with
  | nil => rfl
  | cons a w ih =>
    rw [run_cons, run_cons, h a List.mem_cons_self]
    exact bind_congr fun _ => ih fun b hb => h b (List.mem_cons_of_mem a hb)

theorem forUp_eq_run {lo hi : Nat} {body : Nat → σ → Option σ} :
    forUp lo hi s body = run body (List.range' lo (hi - lo)) s := rfl

/-- A loop from 0 is the run of its indices. -/
theorem run_range {hi : Nat} {body : Nat → σ → Option σ} : run body (List.range hi) s = forUp 0 hi s body := by
  rw [forUp_eq_run, Nat.sub_zero, ← List.range_eq_range']

/-- Actions that add to a log. -/
theorem run_log {step : α → List β → Option (List β)} {g : α → List β} (h : ∀ a ∈ w, ∀ log, step a log = some (log ++ g a))
    (log : List β) : run step w log = some (log ++ w.flatMap g) := by
  induction w generalizing log with
  | nil => simp
  | cons a w ih =>
    rw [run_cons, h a List.mem_cons_self, Option.bind_eq_bind, Option.bind_some,
      ih fun b hb => h b (List.mem_cons_of_mem a hb), List.flatMap_cons, List.append_assoc]

/-- Actions that return where `I` holds, and keep it. -/
theorem Returns.run {I : σ → Prop} (h : ∀ a ∈ w, ∀ s, I s → Returns (step a s) I) (hs : I s) :
    Returns (run step w s) I := by
  induction w generalizing s with
  | nil => exact returns_some hs
  | cons a w ih =>
    rw [run_cons]
    exact (h a List.mem_cons_self s hs).bind fun t ht => ih (fun b hb => h b (List.mem_cons_of_mem a hb)) ht

/-- An invariant that may speak of the actions taken so far. -/
theorem Returns.run_prefix {I : List α → σ → Prop} (h0 : I [] s)
    (h : ∀ w₁ a w₂ t, w = w₁ ++ a :: w₂ → I w₁ t → Returns (step a t) (I (w₁ ++ [a]))) :
    Returns (Core.run step w s) (I w) := by
  induction w generalizing I s with
  | nil => exact returns_some h0
  | cons a w ih =>
    rw [run_cons]
    refine (h [] a w s rfl h0).bind fun t ht => ih (I := fun l => I (a :: l)) ht fun w₁ b w₂ u hw hu => ?_
    exact h (a :: w₁) b w₂ u (by rw [hw]; rfl) hu

/-- The same for a run that is known to return. -/
theorem run_inv_prefix {I : List α → σ → Prop} (h0 : I [] s)
    (hI : ∀ w₁ a w₂ t t', w = w₁ ++ a :: w₂ → I w₁ t → step a t = some t' → I (w₁ ++ [a]) t')
    (h : Core.run step w s = some s') : I w s' := by
  induction w generalizing I s with
  | nil => cases h; exact h0
  | cons a w ih =>
    rw [run_cons] at h
    obtain ⟨t, ht, h⟩ := Option.bind_eq_some_iff.1 h
    refine ih (I := fun l => I (a :: l)) (hI [] a w s t rfl h0 ht) (fun w₁ b w₂ u u' hw hu hb => ?_) h
    exact hI (a :: w₁) b w₂ u u' (by rw [hw]; rfl) hu hb

/-- What every action keeps, the run keeps. -/
theorem run_inv {I : σ → Prop} (hI : ∀ a ∈ w, ∀ s s', I s → step a s = some s' → I s') (h0 : I s)
    (h : run step w s = some s') : I s' :=
  run_inv_prefix (I := fun _ => I) h0 (fun w₁ a w₂ t t' hw => hI a (by rw [hw]; simp) t t') h

/-- `P` holds in every state the run goes through. -/
def Always (step : α → σ → Option σ) (P : σ → Prop) (w : List α) (s : σ) : Prop :=
  ∀ w₁ t, w₁ <+: w → run step w₁ s = some t → P t

variable {P : σ → Prop}

theorem always_head (h : Always step P w s) : P s := h [] s List.nil_prefix rfl

theorem always_nil : Always step P [] s ↔ P s := by
  constructor
  · exact fun h => h [] s List.prefix_rfl rfl
  · rintro h w₁ t hw ht
    rw [List.prefix_nil.1 hw] at ht
    cases ht
    exact h

theorem always_cons : Always step P (a :: w) s ↔ P s ∧ ∀ t, step a s = some t → Always step P w t := by
  constructor
  · refine fun h => ⟨h [] s List.nil_prefix rfl, fun t ht w₁ u hw hu => ?_⟩
    exact h (a :: w₁) u ((List.cons_prefix_cons).2 ⟨rfl, hw⟩) (by rw [run_cons, ht]; exact hu)
  · rintro ⟨h0, h⟩ w₁ u hw hu
    cases w₁ with
    | nil => cases hu; exact h0
    | cons b w₁ =>
      obtain ⟨rfl, hw'⟩ := List.cons_prefix_cons.1 hw
      rw [run_cons] at hu
      obtain ⟨t, ht, hu⟩ := Option.bind_eq_some_iff.1 hu
      exact h t ht w₁ u hw' hu

end

/-! ## Interleavings -/

variable [DecidableEq ι]

/-- What thread `t` does in the schedule `w`. -/
def proj (t : ι) (w : List (ι × α)) : List α := (w.filter fun e => e.1 = t).map Prod.snd

/-- `w` runs the programs `P`, each in its own order. -/
def Schedules (P : ι → List α) (w : List (ι × α)) : Prop := ∀ t, proj t w = P t

@[simp] theorem proj_nil (t : ι) : proj t ([] : List (ι × α)) = [] := rfl

@[simp] theorem proj_cons (t : ι) (e : ι × α) (w : List (ι × α)) :
    proj t (e :: w) = if e.1 = t then e.2 :: proj t w else proj t w := by
  by_cases h : e.1 = t <;> simp [proj, h]

@[simp] theorem proj_append (t : ι) (w w' : List (ι × α)) : proj t (w ++ w') = proj t w ++ proj t w' := by
  simp [proj]

/-- A stretch of one thread. -/
@[simp] theorem proj_map (t u : ι) (l : List α) :
    proj t (l.map (Prod.mk u)) = if u = t then l else [] := by
  induction l with
  | nil => simp
  | cons a l ih => by_cases h : u = t <;> simp_all

theorem proj_flatMap (t : ι) {L : List β} {f : β → List (ι × α)} :
    proj t (L.flatMap f) = L.flatMap fun b => proj t (f b) := by
  induction L with
  | nil => rfl
  | cons b L ih => rw [List.flatMap_cons, List.flatMap_cons, proj_append, ih]

theorem mem_of_schedules {P : ι → List α} {w : List (ι × α)} (hw : Schedules P w) {e : ι × α}
    (he : e ∈ w) : e.2 ∈ P e.1 := by
  rw [← hw e.1]
  simp only [proj, List.mem_map, List.mem_filter]
  exact ⟨e, ⟨he, by simp⟩, rfl⟩

/-- Where one thread has all the work, its program is the schedule. -/
theorem schedules_single {P : ι → List α} {w : List (ι × α)} (hw : Schedules P w) {t : ι}
    (h : ∀ u, u ≠ t → P u = []) : w.map Prod.snd = P t := by
  rw [← hw t, proj, List.filter_eq_self.2]
  intro e he
  by_contra hne
  have := mem_of_schedules hw he
  rw [h e.1 (by simpa using hne)] at this
  exact absurd this List.not_mem_nil

section
variable {step : α → σ → Option σ} {I : σ → Prop} {s : σ}

/-- An action that commutes with `front` can be taken before it. -/
theorem run_swap {front back : List α} {a : α} (hI : ∀ b ∈ front, ∀ s s', I s → step b s = some s' → I s')
    (hcomm : ∀ b ∈ front, ∀ s, I s → (step b s >>= step a) = (step a s >>= step b)) (hs : I s) :
    run step (front ++ a :: back) s = run step (a :: (front ++ back)) s := by
  induction front generalizing s with
  | nil => rfl
  | cons b front ih =>
    have hb : ∀ t, step b s = some t →
        run step (front ++ a :: back) t = step a t >>= run step (front ++ back) := fun t ht => by
      rw [← run_cons]
      exact ih (fun c hc => hI c (List.mem_cons_of_mem b hc))
        (fun c hc => hcomm c (List.mem_cons_of_mem b hc)) (hI b List.mem_cons_self s t hs ht)
    calc run step (b :: front ++ a :: back) s
        = step b s >>= fun t => step a t >>= run step (front ++ back) := by
          rw [List.cons_append, run_cons]
          cases h : step b s with
          | none => rfl
          | some t => exact hb t h
      _ = (step a s >>= step b) >>= run step (front ++ back) := by
          rw [← hcomm b List.mem_cons_self s hs, bind_assoc]
      _ = run step (a :: (b :: front ++ back)) s := by
          rw [bind_assoc, List.cons_append, run_cons]
          exact bind_congr fun t => (run_cons).symm

/-- Programs whose actions commute end the same under every schedule: as run
one after another, in any order `L` of the threads. -/
theorem run_schedules {P : ι → List α} {w : List (ι × α)} (hw : Schedules P w) {L : List ι}
    (hL : L.Nodup) (hcov : ∀ t, P t ≠ [] → t ∈ L)
    (hI : ∀ t, ∀ a ∈ P t, ∀ s s', I s → step a s = some s' → I s')
    (hcomm : ∀ t u, t ≠ u → ∀ a ∈ P t, ∀ b ∈ P u, ∀ s, I s →
      (step a s >>= step b) = (step b s >>= step a)) (hs : I s) :
    run step (w.map Prod.snd) s = run step (L.flatMap P) s := by
  induction w generalizing P s with
  | nil =>
    have : L.flatMap P = [] := List.flatMap_eq_nil_iff.2 fun t _ => (hw t).symm
    rw [this]
    rfl
  | cons e w ih =>
    obtain ⟨t, a⟩ := e
    -- `P'` is what is left of the programs
    have hPt : P t = a :: proj t w := by rw [← hw t]; simp
    have hP : ∀ u, u ≠ t → proj u w = P u := fun u hu => by rw [← hw u]; simp [Ne.symm hu]
    have hsub : ∀ u, ∀ b ∈ proj u w, b ∈ P u := fun u b hb => by
      by_cases hu : u = t
      · subst hu; rw [hPt]; exact List.mem_cons_of_mem a hb
      · rwa [← hP u hu]
    obtain ⟨L₁, L₂, rfl⟩ := List.append_of_mem (hcov t (by simp [hPt]))
    have hnot : t ∉ L₁ ∧ t ∉ L₂ := by
      have := (List.nodup_cons.1 (List.perm_middle.nodup_iff.1 hL)).1
      simpa using this
    have hfl : ∀ K : List ι, t ∉ K → K.flatMap P = K.flatMap fun u => proj u w := fun K hK =>
      List.flatMap_congr fun u hu => (hP u fun e => hK (e ▸ hu)).symm
    have hsplit : (L₁ ++ t :: L₂).flatMap P =
        L₁.flatMap (fun u => proj u w) ++ a :: (proj t w ++ L₂.flatMap fun u => proj u w) := by
      simp [List.flatMap_append, hfl L₁ hnot.1, hfl L₂ hnot.2, hPt]
    have hmem : ∀ b ∈ L₁.flatMap (fun u => proj u w), ∃ u, u ≠ t ∧ b ∈ P u := fun b hb => by
      obtain ⟨u, hu, hb⟩ := List.mem_flatMap.1 hb
      exact ⟨u, fun e => hnot.1 (e ▸ hu), hsub u b hb⟩
    rw [hsplit, run_swap (I := I) (fun b hb => ?_) (fun b hb => ?_) hs]
    · rw [List.map_cons, run_cons, run_cons]
      cases ht : step a s with
      | none => rfl
      | some s' =>
        have := ih (P := fun u => proj u w) (s := s') (fun u => rfl)
          (fun u hu => hcov u fun e => hu (List.eq_nil_iff_forall_not_mem.2 fun b hb => by
            have := hsub u b hb
            rw [e] at this
            exact absurd this List.not_mem_nil))
          (fun u b hb => hI u b (hsub u b hb))
          (fun u v huv b hb c hc => hcomm u v huv b (hsub u b hb) c (hsub v c hc))
          (hI t a (by simp [hPt]) s s' hs ht)
        simpa [List.flatMap_append] using this
    · obtain ⟨u, -, hb⟩ := hmem b hb
      exact hI u b hb
    · obtain ⟨u, hu, hb⟩ := hmem b hb
      exact hcomm u t hu b hb a (by simp [hPt])

end

end ErasureCode.Core
