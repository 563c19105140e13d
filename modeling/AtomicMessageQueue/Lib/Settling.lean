import AtomicMessageQueue.Lib.Simulation
import Mathlib.Data.List.Nodup
import Mathlib.Data.List.Perm.Basic
import Mathlib.Logic.Relation

/-! # Marks and rounds

A state is marked, and rounds are then made until none can be made any more. When rounds have the
diamond property and a mark that has not been made yet commutes with them, it makes no difference in
which order the marks are made, nor that the rounds come between them: every order ends in the state
that making all marks first and settling once would end in.
-/

namespace Settling

open Relation Simulation

variable {σ α : Type*}

/-- Rounds lead from one state to another in which none can be made. -/
structure Settles (round : σ → σ → Prop) (s s' : σ) : Prop where
  rounds : ReflTransGen round s s'
  settled : ∀ s'', ¬ round s' s''

/-- Make one mark and settle. -/
def MarkStep (mark : σ → α → σ) (round : σ → σ → Prop) (s : σ) (a : α) (s' : σ) : Prop :=
  Settles round (mark s a) s'

/-- The laws of marks and rounds. A mark that is `unmade` stays so until it is made. -/
structure Lawful (mark : σ → α → σ) (round : σ → σ → Prop) (unmade : σ → α → Prop) : Prop where
  diamond : ∀ s s₁ s₂, round s s₁ → round s s₂ → s₁ = s₂ ∨ ∃ s', round s₁ s' ∧ round s₂ s'
  mark_comm : ∀ s a b, mark (mark s a) b = mark (mark s b) a
  mark_unmade : ∀ s a b, b ≠ a → unmade s b → unmade (mark s a) b
  round_unmade : ∀ s s' b, round s s' → unmade s b → unmade s' b
  round_mark : ∀ s s' b, round s s' → unmade s b → round (mark s b) (mark s' b)

namespace Lawful

variable {mark : σ → α → σ} {round : σ → σ → Prop} {unmade : σ → α → Prop} {s s' s₁ s₂ : σ}
  {as bs : List α}

/-- A state settles in one way only. -/
theorem settles_unique (h : Lawful mark round unmade) (h₁ : Settles round s s₁)
    (h₂ : Settles round s s₂) : s₁ = s₂ := by
  obtain ⟨s', hs₁, hs₂⟩ := church_rosser (fun a b c hb hc => by
    rcases h.diamond a b c hb hc with rfl | ⟨d, hbd, hcd⟩
    · exact ⟨b, .refl, .refl⟩
    · exact ⟨d, .single hbd, .single hcd⟩) h₁.rounds h₂.rounds
  have hend : ∀ {t}, (∀ t', ¬ round t t') → ReflTransGen round t s' → t = s' := by
    intro t ht hts
    rcases hts.cases_head with heq | ⟨t', hround, -⟩
    · exact heq
    · exact absurd hround (ht t')
  exact (hend h₁.settled hs₁).trans (hend h₂.settled hs₂).symm

/-- Marks that are unmade commute with rounds. -/
theorem rounds_marks (h : Lawful mark round unmade) (hrounds : ReflTransGen round s s')
    (hnodup : as.Nodup) (hun : ∀ a ∈ as, unmade s a) :
    ReflTransGen round (as.foldl mark s) (as.foldl mark s') := by
  induction as generalizing s s' with
  | nil => exact hrounds
  | cons a as ih =>
      obtain ⟨hnot, hnodup⟩ := List.nodup_cons.mp hnodup
      have hmarked : ∀ {t}, ReflTransGen round s t →
          unmade t a ∧ ReflTransGen round (mark s a) (mark t a) := by
        intro t ht
        induction ht with
        | refl => exact ⟨hun a List.mem_cons_self, .refl⟩
        | tail _ hround ih =>
            exact ⟨h.round_unmade _ _ a hround ih.1, ih.2.tail (h.round_mark _ _ a hround ih.1)⟩
      refine ih (hmarked hrounds).2 hnodup fun b hb => ?_
      exact h.mark_unmade s a b (fun heq => hnot (heq ▸ hb)) (hun b (List.mem_cons_of_mem a hb))

/-- Marking and settling one by one is marking first and settling once. -/
theorem settles_foldl (h : Lawful mark round unmade) (htrace : Trace (MarkStep mark round) s as s')
    (hset : ∀ t, ¬ round s t) (hnodup : as.Nodup) (hun : ∀ a ∈ as, unmade s a) :
    Settles round (as.foldl mark s) s' := by
  induction htrace with
  | nil s => exact ⟨.refl, hset⟩
  | @cons s s₁ s' a as head tail ih =>
      obtain ⟨hnot, hnodup⟩ := List.nodup_cons.mp hnodup
      have hmarked : ∀ b ∈ as, unmade (mark s a) b := fun b hb =>
        h.mark_unmade s a b (fun heq => hnot (heq ▸ hb)) (hun b (List.mem_cons_of_mem a hb))
      have hsettled : ∀ b ∈ as, unmade s₁ b := by
        intro b hb
        refine ReflTransGen.head_induction_on (motive := fun t _ => unmade t b → unmade s₁ b)
          head.rounds id (fun hround _ ih ht => ih (h.round_unmade _ _ b hround ht)) ?_
        exact hmarked b hb
      have hrest := ih head.settled hnodup hsettled
      exact ⟨(h.rounds_marks head.rounds hnodup hmarked).trans hrest.rounds, hrest.settled⟩

/-- **The order makes no difference.** -/
theorem trace_perm (h : Lawful mark round unmade) (h₁ : Trace (MarkStep mark round) s as s₁)
    (h₂ : Trace (MarkStep mark round) s bs s₂) (hperm : as.Perm bs) (hset : ∀ t, ¬ round s t)
    (hnodup : as.Nodup) (hun : ∀ a ∈ as, unmade s a) : s₁ = s₂ := by
  have hmarks : as.foldl mark s = bs.foldl mark s :=
    hperm.foldl_eq' (fun a _ b _ t => h.mark_comm t a b) s
  refine h.settles_unique (h.settles_foldl h₁ hset hnodup hun) ?_
  rw [hmarks]
  exact h.settles_foldl h₂ hset (hperm.nodup_iff.mp hnodup) fun b hb =>
    hun b (hperm.mem_iff.mpr hb)

end Lawful

end Settling
