import Mathlib.Data.List.Basic

/-!
# C loops over a partial state transformer

A C function that can fault (index out of bounds, signed overflow) is a
function into `Option`: `none` is undefined behaviour. `Returns o Q` is the
total-correctness triple, `o` does not fault and its result satisfies `Q`.

* `forUp lo hi s body`: `for (i = lo; i < hi; i++)`;
* `forUntil lo hi s body`: the same with an early `return`;
* `scan stop fuel j`: `while (!stop(j)) j++`, at most `fuel` rounds; `ScanEnds`
  is the same without a bound.

`Returns.forUp` is the invariant rule. `forUp_writes` is what most loops need:
round `i` writes the cells `W i` with the values a fixed function `val` gives
them, and no cell outside; then so does the whole loop.
-/
namespace ErasureCode.Core

variable {σ α β ρ κ ι : Type}

/-! ## The triple -/

/-- `o` does not fault, and its result satisfies `Q`. -/
def Returns (o : Option α) (Q : α → Prop) : Prop := ∃ a, o = some a ∧ Q a

theorem returns_some {a : α} {Q : α → Prop} (h : Q a) : Returns (some a) Q := ⟨a, rfl, h⟩

theorem Returns.bind {o : Option α} {f : α → Option β} {P : α → Prop} {Q : β → Prop}
    (h : Returns o P) (hf : ∀ a, P a → Returns (f a) Q) : Returns (o >>= f) Q := by
  obtain ⟨a, rfl, ha⟩ := h
  exact hf a ha

theorem Returns.mono {o : Option α} {P Q : α → Prop} (h : Returns o P) (hPQ : ∀ a, P a → Q a) :
    Returns o Q := by
  obtain ⟨a, e, ha⟩ := h
  exact ⟨a, e, hPQ a ha⟩

theorem Returns.of_eq {o : Option α} {a : α} {Q : α → Prop} (h : Returns o Q) (e : o = some a) :
    Q a := by
  obtain ⟨b, e', hb⟩ := h
  rw [e] at e'
  cases e'
  exact hb

/-! ## Counting loops -/

/-- `for (i = lo; i < hi; i++) s = body i s`. -/
def forUp (lo hi : Nat) (s : σ) (body : Nat → σ → Option σ) : Option σ :=
  (List.range' lo (hi - lo)).foldlM (fun s i => body i s) s

theorem forUp_of_le {lo hi : Nat} (h : hi ≤ lo) (s : σ) (body : Nat → σ → Option σ) :
    forUp lo hi s body = some s := by
  simp [forUp, Nat.sub_eq_zero_of_le h]

theorem forUp_step {lo hi : Nat} (h : lo < hi) (s : σ) (body : Nat → σ → Option σ) :
    forUp lo hi s body = body lo s >>= fun s' => forUp (lo + 1) hi s' body := by
  obtain ⟨c, hc⟩ : ∃ c, hi - lo = c + 1 := ⟨hi - lo - 1, by omega⟩
  simp [forUp, hc, List.range'_succ, show hi - (lo + 1) = c by omega]

/-- The invariant rule. -/
theorem Returns.forUp {body : Nat → σ → Option σ} (I : Nat → σ → Prop) {lo hi : Nat} {s : σ}
    (hle : lo ≤ hi) (h0 : I lo s)
    (hstep : ∀ i s, lo ≤ i → i < hi → I i s → Returns (body i s) (I (i + 1))) :
    Returns (forUp lo hi s body) (I hi) := by
  induction hc : hi - lo generalizing lo s with
  | zero =>
    have : lo = hi := by omega
    subst this
    rw [forUp_of_le (Nat.le_refl _)]
    exact returns_some h0
  | succ c ih =>
    rw [forUp_step (by omega)]
    refine (hstep lo s (Nat.le_refl _) (by omega) h0).bind fun s' h' => ?_
    exact ih (by omega) h' (fun i t h1 h2 => hstep i t (by omega) h2) (by omega)

/-- The invariant rule for partial correctness. -/
theorem forUp_inv {body : Nat → σ → Option σ} (I : Nat → σ → Prop) {lo hi : Nat} {s s' : σ}
    (hle : lo ≤ hi) (h0 : I lo s)
    (hstep : ∀ i s s', lo ≤ i → i < hi → I i s → body i s = some s' → I (i + 1) s')
    (h : forUp lo hi s body = some s') : I hi s' := by
  induction hc : hi - lo generalizing lo s with
  | zero =>
    have : lo = hi := by omega
    subst this
    rw [forUp_of_le (Nat.le_refl _)] at h
    cases h
    exact h0
  | succ c ih =>
    rw [forUp_step (by omega)] at h
    obtain ⟨t, ht, h⟩ := Option.bind_eq_some_iff.1 h
    exact ih (by omega) (hstep lo s t (Nat.le_refl _) (by omega) h0 ht)
      (fun i u u' h1 h2 => hstep i u u' (by omega) h2) h (by omega)

theorem forUp_congr {body body' : Nat → σ → Option σ} {lo hi : Nat} {s : σ}
    (h : ∀ i s, lo ≤ i → i < hi → body i s = body' i s) : forUp lo hi s body = forUp lo hi s body' := by
  rcases Nat.lt_or_ge lo hi with hlt | hge
  · rw [forUp_step hlt, forUp_step hlt, h lo s (Nat.le_refl _) hlt]
    exact bind_congr fun t => forUp_congr fun i s h1 h2 => h i s (by omega) h2
  · rw [forUp_of_le hge, forUp_of_le hge]
termination_by hi - lo

/-- Two bodies need to agree only on the states the loop gets to. -/
theorem forUp_congr_inv {body body' : Nat → σ → Option σ} (I : σ → Prop) {lo hi : Nat} {s : σ} (h0 : I s)
    (h : ∀ i s, lo ≤ i → i < hi → I s → body i s = body' i s ∧ ∀ s', body' i s = some s' → I s') :
    forUp lo hi s body = forUp lo hi s body' := by
  rcases Nat.lt_or_ge lo hi with hlt | hge
  · obtain ⟨he, hI⟩ := h lo s (Nat.le_refl _) hlt h0
    rw [forUp_step hlt, forUp_step hlt, he]
    cases hb : body' lo s with
    | none => rfl
    | some t => exact forUp_congr_inv I (hI t hb) fun i s h1 h2 => h i s (by omega) h2
  · rw [forUp_of_le hge, forUp_of_le hge]
termination_by hi - lo

/-- A part of the state that the rounds transform by themselves. -/
theorem forUp_map {body : Nat → σ → Option σ} {body' : Nat → β → Option β} (f : σ → β) {lo hi : Nat} {s : σ}
    (h : ∀ i s, lo ≤ i → i < hi → (body i s).map f = body' i (f s)) :
    (forUp lo hi s body).map f = forUp lo hi (f s) body' := by
  rcases Nat.lt_or_ge lo hi with hlt | hge
  · rw [forUp_step hlt, forUp_step hlt, ← h lo s (Nat.le_refl _) hlt]
    cases body lo s with
    | none => rfl
    | some t => exact forUp_map f fun i s h1 h2 => h i s (by omega) h2
  · rw [forUp_of_le hge, forUp_of_le hge]
    rfl
termination_by hi - lo

/-- A loop whose round `i` sets the cells `W i` of a view of the state to the
values `val` gives them, leaves every other cell alone and keeps `K`, sets all
the cells of all rounds. -/
theorem forUp_writes {body : Nat → σ → Option σ} (view : σ → κ → α) (W : Nat → κ → Prop)
    (val : κ → α) (K : σ → Prop) {lo hi : Nat} {s : σ} (hle : lo ≤ hi) (hK : K s)
    (hstep : ∀ i t, lo ≤ i → i < hi → K t →
      (∀ x, (∀ j, lo ≤ j → j < i → ¬ W j x) → view t x = view s x) →
      (∀ x j, lo ≤ j → j < i → W j x → view t x = val x) →
      Returns (body i t) fun t' => K t' ∧ (∀ x, W i x → view t' x = val x) ∧
        ∀ x, ¬ W i x → view t' x = view t x) :
    Returns (forUp lo hi s body) fun t => K t ∧
      (∀ x i, lo ≤ i → i < hi → W i x → view t x = val x) ∧
      ∀ x, (∀ i, lo ≤ i → i < hi → ¬ W i x) → view t x = view s x := by
  refine Returns.forUp (fun i t => K t ∧ (∀ x j, lo ≤ j → j < i → W j x → view t x = val x) ∧
    ∀ x, (∀ j, lo ≤ j → j < i → ¬ W j x) → view t x = view s x) hle ?_ ?_
  · exact ⟨hK, fun x j h1 h2 => by omega, fun x _ => rfl⟩
  · rintro i t h1 h2 ⟨hKt, hw, hf⟩
    refine (hstep i t h1 h2 hKt hf hw).mono fun t' ⟨hK', hw', hf'⟩ => ⟨hK', ?_, ?_⟩
    · intro x j hj1 hj2 hx
      by_cases hi : W i x
      · exact hw' x hi
      · have hne : j ≠ i := fun e => hi (e ▸ hx)
        rw [hf' x hi]; exact hw x j hj1 (by omega) hx
    · intro x hx
      rw [hf' x (hx i h1 (by omega)), hf x fun j hj1 hj2 => hx j hj1 (by omega)]

/-! ## Loops with an early return -/

/-- `for (i = lo; i < hi; i++)` whose body may `return` a value; the state at
that point is the result's first component. -/
def forUntil (lo hi : Nat) (s : σ) (body : Nat → σ → Option (σ × Option ρ)) :
    Option (σ × Option ρ) :=
  go (hi - lo) lo s
where
  go : Nat → Nat → σ → Option (σ × Option ρ)
    | 0, _, s => some (s, none)
    | c + 1, i, s => do
      let (s', r) ← body i s
      match r with
      | some v => return (s', some v)
      | none => go c (i + 1) s'

/-- The state is as `I` says where the loop goes on, and as `R` says where it
has returned a value. -/
def Exits (I : σ → Prop) (R : σ → ρ → Prop) : σ × Option ρ → Prop
  | (s, none) => I s
  | (s, some v) => R s v

theorem Returns.forUntil {body : Nat → σ → Option (σ × Option ρ)} (I : Nat → σ → Prop)
    (R : σ → ρ → Prop) {lo hi : Nat} {s : σ} (hle : lo ≤ hi) (h0 : I lo s)
    (hstep : ∀ i s, lo ≤ i → i < hi → I i s → Returns (body i s) (Exits (I (i + 1)) R)) :
    Returns (forUntil lo hi s body) (Exits (I hi) R) := by
  unfold Core.forUntil
  induction hc : hi - lo generalizing lo s with
  | zero =>
    have : lo = hi := by omega
    subst this
    exact returns_some h0
  | succ c ih =>
    refine (hstep lo s (Nat.le_refl _) (by omega) h0).bind fun p hp => ?_
    obtain ⟨s', r⟩ := p
    cases r with
    | some v => exact returns_some hp
    | none => exact ih (by omega) hp (fun i t h1 h2 => hstep i t (by omega) h2) (by omega)

/-! ## Scanning -/

/-- `while (!stop(j)) j++`, for at most `fuel` rounds. -/
def scan (stop : Nat → Option Bool) : Nat → Nat → Option Nat
  | 0, j => some j
  | fuel + 1, j => do
    if (← stop j) then return j else scan stop fuel (j + 1)

/-- The scan stops at the first `j` that `stop` accepts, or after `fuel`
rounds. -/
theorem returns_scan {stop : Nat → Option Bool} {c : Nat → Bool} :
    ∀ {fuel j : Nat}, (∀ i, j ≤ i → i < j + fuel → (∀ i', j ≤ i' → i' < i → c i' = false) →
        stop i = some (c i)) →
      Returns (scan stop fuel j) fun r => j ≤ r ∧ r ≤ j + fuel ∧
        (∀ i, j ≤ i → i < r → c i = false) ∧ (r < j + fuel → c r = true)
  | 0, j, _ => returns_some ⟨Nat.le_refl _, Nat.le_refl _, fun i h1 h2 => by omega, fun h => by omega⟩
  | fuel + 1, j, hs => by
    have h0 : stop j = some (c j) := hs j (Nat.le_refl _) (by omega) fun i h1 h2 => by omega
    simp only [scan, h0, Option.bind_eq_bind, Option.bind_some]
    cases hc : c j with
    | true => exact returns_some ⟨Nat.le_refl _, by omega, fun i h1 h2 => by omega, fun _ => hc⟩
    | false =>
      refine Returns.mono (returns_scan (j := j + 1) fun i h1 h2 hi =>
        hs i (by omega) (by omega) fun i' h1' h2' => ?_) fun r ⟨h1, h2, h3, h4⟩ =>
          ⟨by omega, by omega, fun i hi1 hi2 => ?_, fun hr => h4 (by omega)⟩
      · rcases Nat.eq_or_lt_of_le h1' with rfl | h
        · exact hc
        · exact hi i' h h2'
      · rcases Nat.eq_or_lt_of_le hi1 with rfl | h
        · exact hc
        · exact h3 i h hi2

/-- `while (!stop(j)) j++`, without a bound on its rounds: from `j` it ends at
`r`. -/
inductive ScanEnds (stop : Nat → Option Bool) : Nat → Nat → Prop where
  | here {j : Nat} (h : stop j = some true) : ScanEnds stop j j
  | later {j r : Nat} (h : stop j = some false) (hr : ScanEnds stop (j + 1) r) : ScanEnds stop j r

/-- A scan that returns before its last round is the loop. -/
theorem scanEnds_of_scan {stop : Nat → Option Bool} {fuel j r : Nat} (h : scan stop fuel j = some r)
    (hr : r < j + fuel) : ScanEnds stop j r := by
  induction fuel generalizing j with
  | zero =>
    cases h
    exact absurd hr (Nat.lt_irrefl _)
  | succ fuel ih =>
    obtain ⟨b, hb, h⟩ := Option.bind_eq_some_iff.1 h
    cases b with
    | true =>
      cases h
      exact .here hb
    | false => exact .later hb (ih h (by omega))

end ErasureCode.Core
