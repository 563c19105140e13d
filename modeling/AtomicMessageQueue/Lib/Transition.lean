import Mathlib.Algebra.Ring.Nat
import Mathlib.Order.Basic

/-! # Reachability in a guarded transition system

A system is a partial step function over states and actions. `Reach step ok init` collects the
states of the runs whose every step satisfies the guard `ok`, a condition on the state before the
step and the action. Invariants are proved once per step and hold along every run.
-/

namespace Transition

variable {σ α : Type*}

/-- States reached from `init` by runs whose every step satisfies the guard `ok`. -/
inductive Reach (step : σ → α → Option σ) (ok : σ → α → Prop) (init : σ) : σ → Prop
  | init : Reach step ok init init
  | step {s s' : σ} {a : α} (reach : Reach step ok init s) (guard : ok s a)
      (next : step s a = some s') : Reach step ok init s'

/-- The guard that admits every step. -/
def anyStep : σ → α → Prop := fun _ _ => True

instance (s : σ) (a : α) : Decidable (anyStep s a) := isTrue trivial

/-- Execute a schedule, refusing the first action the guard rejects. -/
def guardedRun (step : σ → α → Option σ) (ok : σ → α → Bool) : σ → List α → Option σ
  | s, [] => some s
  | s, a :: as => if ok s a then (step s a).bind fun s' => guardedRun step ok s' as else none

variable {step : σ → α → Option σ} {ok ok' : σ → α → Prop} {init : σ}

/-- The invariant rule: what holds initially and is kept by every admitted step holds in every
reached state. The step may use that its source state is reached. -/
theorem Reach.invariant {I : σ → Prop} (h0 : I init)
    (hstep : ∀ s a s', Reach step ok init s → I s → ok s a → step s a = some s' → I s')
    {s : σ} (h : Reach step ok init s) : I s := by
  induction h with
  | init => exact h0
  | step reach guard next ih => exact hstep _ _ _ reach ih guard next

/-- A run under one guard is a run under another when every admitted step satisfies the other
guard too. That may be shown using that the source is reached under the second guard. -/
theorem Reach.strengthen
    (himp : ∀ s a s', Reach step ok' init s → ok s a → step s a = some s' → ok' s a)
    {s : σ} (h : Reach step ok init s) : Reach step ok' init s := by
  induction h with
  | init => exact .init
  | step _ guard next ih => exact .step ih (himp _ _ _ ih guard next) next

theorem Reach.mono (himp : ∀ s a, ok s a → ok' s a) {s : σ} (h : Reach step ok init s) :
    Reach step ok' init s :=
  h.strengthen fun _ _ _ _ hok _ => himp _ _ hok

/-- Runs compose. -/
theorem Reach.trans {s t : σ} (h : Reach step ok init s) (h' : Reach step ok s t) :
    Reach step ok init t := by
  induction h' with
  | init => exact h
  | step _ guard next ih => exact .step ih guard next

/-- A schedule that executes under a guard ends in a reached state. -/
theorem Reach.of_guardedRun [∀ s a, Decidable (ok s a)] {s s' : σ} {as : List α}
    (h : Reach step ok init s)
    (hrun : guardedRun step (fun s a => decide (ok s a)) s as = some s') :
    Reach step ok init s' := by
  induction as generalizing s with
  | nil =>
      simp only [guardedRun, Option.some.injEq] at hrun
      exact hrun ▸ h
  | cons a as ih =>
      simp only [guardedRun, decide_eq_true_eq] at hrun
      split at hrun
      next hg =>
        obtain ⟨t, ht, hrest⟩ := Option.bind_eq_some_iff.mp hrun
        exact ih (.step h hg ht) hrest
      next => exact absurd hrun (by simp)

/-- A schedule whose last state passes a test reaches a state that passes it. -/
theorem Reach.exists_of_run [∀ s a, Decidable (ok s a)] {p : σ → Prop} [DecidablePred p]
    (as : List α)
    (h : (guardedRun step (fun s a => decide (ok s a)) init as).any (fun s => decide (p s)) = true) :
    ∃ s, Reach step ok init s ∧ p s := by
  obtain ⟨s, hs, hp⟩ := (Option.any_eq_true _ _).mp h
  exact ⟨s, .of_guardedRun .init hs, of_decide_eq_true hp⟩

/-! Schedules name their threads by numerals: -/

instance neZeroTwo : NeZero 2 := ⟨Nat.succ_ne_zero 1⟩

instance neZeroThree : NeZero 3 := ⟨Nat.succ_ne_zero 2⟩

instance neZeroFour : NeZero 4 := ⟨Nat.succ_ne_zero 3⟩

end Transition
