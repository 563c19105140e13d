import Mathlib.Order.Basic

/-! # Traces and simulations

A labelled system is a relation between states, labels and states. `Trace` collects the label
sequences it shows. A forward simulation carries every trace of one system over to another; when its
converse is one too, the two systems show the same traces.
-/

namespace Simulation

variable {σ τ α : Type*}

/-- The system goes from one state to another showing these labels, first label first. -/
inductive Trace (step : σ → α → σ → Prop) : σ → List α → σ → Prop
  | nil (s : σ) : Trace step s [] s
  | cons {s s' s'' : σ} {l : α} {ls : List α} (head : step s l s') (tail : Trace step s' ls s'') :
      Trace step s (l :: ls) s''

/-- `R` is a forward simulation: each step of the first system is matched by the second. -/
def Forward (step : σ → α → σ → Prop) (step' : τ → α → τ → Prop) (R : σ → τ → Prop) : Prop :=
  ∀ s t l s', R s t → step s l s' → ∃ t', step' t l t' ∧ R s' t'

/-- The steps a guard on the state before them and the label admits. -/
def Guarded (ok : σ → α → Prop) (step : σ → α → σ → Prop) : σ → α → σ → Prop :=
  fun s l s' => ok s l ∧ step s l s'

variable {step : σ → α → σ → Prop} {step' : τ → α → τ → Prop} {R : σ → τ → Prop}

/-- Where each label leads to at most one state, so do the labels of a trace. -/
theorem Trace.determ (hstep : ∀ s l s₁ s₂, step s l s₁ → step s l s₂ → s₁ = s₂) {s s₁ s₂ : σ}
    {ls : List α} (h₁ : Trace step s ls s₁) (h₂ : Trace step s ls s₂) : s₁ = s₂ := by
  induction h₁ with
  | nil s =>
      cases h₂
      rfl
  | cons head tail ih =>
      cases h₂ with
      | cons head' tail' =>
          obtain rfl := hstep _ _ _ _ head head'
          exact ih tail'

/-- A run whose steps meet a guard is a run. -/
theorem Trace.of_guarded {ok : σ → α → Prop} {s s' : σ} {ls : List α}
    (h : Trace (Guarded ok step) s ls s') : Trace step s ls s' := by
  induction h with
  | nil s => exact .nil s
  | cons head tail ih => exact .cons head.2 ih

/-- A trace carries over along a forward simulation. -/
theorem Trace.simulate (hR : Forward step step' R) {s s' : σ} {t : τ} {ls : List α}
    (h : Trace step s ls s') (hst : R s t) : ∃ t', Trace step' t ls t' ∧ R s' t' := by
  induction h generalizing t with
  | nil s => exact ⟨t, .nil t, hst⟩
  | cons head tail ih =>
      obtain ⟨t₁, hstep, hst₁⟩ := hR _ _ _ _ hst head
      obtain ⟨t', htail, hst'⟩ := ih hst₁
      exact ⟨t', .cons hstep htail, hst'⟩

/-- Two states related by a simulation in both directions show the same traces. -/
theorem Trace.iff_of_forward (hR : Forward step step' R) (hR' : Forward step' step fun t s => R s t)
    {s : σ} {t : τ} (hst : R s t) (ls : List α) :
    (∃ s', Trace step s ls s') ↔ ∃ t', Trace step' t ls t' := by
  constructor
  · rintro ⟨s', h⟩
    obtain ⟨t', h', -⟩ := h.simulate hR hst
    exact ⟨t', h'⟩
  · rintro ⟨t', h⟩
    obtain ⟨s', h', -⟩ := h.simulate hR' hst
    exact ⟨s', h'⟩

end Simulation
