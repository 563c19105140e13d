import Mathlib.Algebra.BigOperators.Group.Finset.Piecewise

/-! # Counting over places of which a step changes one

Weights over threads, slots or other places. A step changes the weight of one place, and a sum of
weights then changes by the difference there. `Fits` is the inequality form: however many places are
looked at, their weights fit between two counters. It needs no bound on the number of places.
-/

namespace Tally

open Function Finset

variable {κ : Type*} [DecidableEq κ]

/-- Replacing the weight of one place replaces its summand. -/
theorem sum_update_add (s : Finset κ) (w : κ → ℕ) {i : κ} (hi : i ∈ s) (v : ℕ) :
    ∑ k ∈ s, update w i v k + w i = ∑ k ∈ s, w k + v := by
  rw [sum_update_of_mem hi, sdiff_singleton_eq_erase, ← add_sum_erase s w hi]
  omega

/-- The weights of any places fit into what `total` leaves above `used`. -/
def Fits (w : κ → ℕ) (used total : ℕ) : Prop :=
  ∀ s : Finset κ, used + ∑ k ∈ s, w k ≤ total

variable {w : κ → ℕ} {used used' total total' : ℕ}

omit [DecidableEq κ] in
theorem Fits.le (h : Fits w used total) : used ≤ total := by
  have := h ∅
  rwa [sum_empty, Nat.add_zero] at this

omit [DecidableEq κ] in
theorem Fits.of_zero (hw : ∀ k, w k = 0) (h : used ≤ total) : Fits w used total := by
  intro s
  rw [sum_eq_zero fun k _ => hw k, Nat.add_zero]
  exact h

/-- **Changing one place.** The weights still fit when the two counters make up for the change. -/
theorem Fits.update (h : Fits w used total) (i : κ) (v : ℕ)
    (hle : used' + v + total ≤ used + w i + total') : Fits (update w i v) used' total' := by
  intro s
  by_cases hi : i ∈ s
  · have hsum := sum_update_add s w hi v
    have hs := h s
    omega
  · have hs := h (insert i s)
    rw [sum_insert hi] at hs
    rw [sum_update_of_notMem hi]
    omega

/-- The weights are read off what stands at each place, and another thing is put at one of them. -/
theorem Fits.put {β : Type*} (f : β → ℕ) {g : κ → β} (h : Fits (fun k => f (g k)) used total) (i : κ)
    (b : β) (hle : used' + f b + total ≤ used + f (g i) + total') :
    Fits (fun k => f (Function.update g i b k)) used' total' := by
  have heq : (fun k => f (Function.update g i b k)) =
      Function.update (fun k => f (g k)) i (f b) := by
    funext k
    exact apply_update (fun _ => f) g i b k
  rw [heq]
  exact h.update i _ hle

end Tally
