import ErasureCode.Core.Run

/-!
# Refinement of a specification

A `Spec` is a machine that never faults: each action has a precondition and a
next state. `Refines step S R` says that the implementation `step`, wherever it
is related to a state that allows an action, takes it without a fault, to a
state related to the next one. Then so it does with every run that the
specification allows (`Refines.run`).
-/
namespace ErasureCode.Core

variable {σ τ α : Type}

/-- What an action needs, and what it does. -/
structure Spec (α τ : Type) where
  pre : α → τ → Prop
  next : α → τ → τ

namespace Spec

/-- Each action of the run finds what it needs. -/
def Allows (S : Spec α τ) : List α → τ → Prop
  | [], _ => True
  | a :: w, t => S.pre a t ∧ S.Allows w (S.next a t)

/-- The state after the run. -/
def after (S : Spec α τ) (w : List α) (t : τ) : τ := w.foldl (fun t a => S.next a t) t

variable {S : Spec α τ} {a : α} {w w' : List α} {t : τ}

@[simp] theorem after_nil : S.after [] t = t := rfl

@[simp] theorem after_cons : S.after (a :: w) t = S.after w (S.next a t) := rfl

theorem after_append : S.after (w ++ w') t = S.after w' (S.after w t) := List.foldl_append

theorem allows_append : S.Allows (w ++ w') t ↔ S.Allows w t ∧ S.Allows w' (S.after w t) := by
  induction w generalizing t with
  | nil => simp [Allows]
  | cons a w ih => simp [Allows, ih, and_assoc]

end Spec

/-- The implementation does what the specification allows. -/
def Refines (step : α → σ → Option σ) (S : Spec α τ) (R : σ → τ → Prop) : Prop :=
  ∀ a s t, R s t → S.pre a t → Returns (step a s) fun s' => R s' (S.next a t)

section
variable {step : α → σ → Option σ} {S : Spec α τ} {R : σ → τ → Prop} {w : List α} {s : σ} {t : τ}

theorem Refines.run (h : Refines step S R) (hs : R s t) (hw : S.Allows w t) :
    Returns (run step w s) fun s' => R s' (S.after w t) := by
  induction w generalizing s t with
  | nil => exact returns_some hs
  | cons a w ih =>
    rw [run_cons]
    exact (h a s t hs hw.1).bind fun s' hs' => ih hs' hw.2

end

end ErasureCode.Core
