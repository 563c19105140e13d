import AtomicMessageQueue.Lib.Transition

/-! # Notes along a run

A run can carry a note that no step reads and that each step brings up to date, such as how often a
thread has done something. What is proved of the noted system speaks about the plain one: its runs are
the same, the notes forgotten.
-/

namespace Transition

variable {σ α γ : Type*}

/-- The system with a note beside its state. -/
def noted (step : σ → α → Option σ) (note : σ → α → γ → γ) (p : σ × γ) (a : α) : Option (σ × γ) :=
  (step p.1 a).map fun s' => (s', note p.1 a p.2)

variable {step : σ → α → Option σ} {note : σ → α → γ → γ} {init : σ} {blank : γ}

theorem noted_eq_some {p p' : σ × γ} {a : α} :
    noted step note p a = some p' ↔ step p.1 a = some p'.1 ∧ p'.2 = note p.1 a p.2 := by
  obtain ⟨s', n'⟩ := p'
  simp only [noted, Option.map_eq_some_iff, Prod.mk.injEq]
  constructor
  · rintro ⟨_, h, rfl, rfl⟩
    exact ⟨h, rfl⟩
  · rintro ⟨h, rfl⟩
    exact ⟨s', h, rfl, rfl⟩

/-- A noted run is a run, under every guard that the notes' guard implies. -/
theorem Reach.forget {ok : σ × γ → α → Prop} {ok' : σ → α → Prop}
    (himp : ∀ p a, ok p a → ok' p.1 a) {p : σ × γ}
    (h : Reach (noted step note) ok (init, blank) p) : Reach step ok' init p.1 := by
  induction h with
  | init => exact .init
  | step _ guard next ih => exact .step ih (himp _ _ guard) (noted_eq_some.mp next).1

end Transition
