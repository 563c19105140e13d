import AtomicMessageQueue.Lib.Transition
import Mathlib.Data.List.Basic

/-! # A bounded first-in first-out queue

The atomic object a bounded message queue stands for, with the lists of what has been pushed and
popped so far. What has been popped is always a prefix of what has been pushed, and the rest is in the
queue.
-/

namespace BoundedFifo

open Transition

/-- The queue and its history, oldest first. -/
structure Fifo (α : Type*) where
  queue : List α
  pushed : List α
  popped : List α

/-- The operations. -/
inductive Op (α : Type*)
  | push (x : α)
  | pop

variable {α : Type*}

/-- The queue before anything has happened. -/
def Fifo.empty : Fifo α :=
  { queue := [], pushed := [], popped := [] }

/-- A push is refused by a full queue, a pop by an empty one. -/
def Fifo.step (capacity : ℕ) (f : Fifo α) : Op α → Option (Fifo α)
  | .push x =>
      if f.queue.length < capacity then
        some { f with queue := f.queue ++ [x], pushed := f.pushed ++ [x] }
      else none
  | .pop =>
      match f.queue with
      | [] => none
      | x :: rest => some { f with queue := rest, popped := f.popped ++ [x] }

/-- The states of the runs from the empty queue. -/
abbrev Reached (capacity : ℕ) : Fifo α → Prop := Reach (Fifo.step capacity) anyStep Fifo.empty

variable {capacity : ℕ} {f : Fifo α}

/-- Nothing is lost, repeated or reordered, and the queue never overflows. -/
theorem Reached.conserves (h : Reached capacity f) :
    f.pushed = f.popped ++ f.queue ∧ f.queue.length ≤ capacity := by
  refine h.invariant (I := fun f => f.pushed = f.popped ++ f.queue ∧ f.queue.length ≤ capacity)
    ⟨rfl, Nat.zero_le _⟩ fun f a f' _ ih _ hs => ?_
  obtain ⟨hpushed, hlen⟩ := ih
  cases a with
  | push x =>
      simp only [Fifo.step] at hs
      split at hs
      next hroom =>
        obtain rfl := Option.some.inj hs
        refine ⟨by simp only [hpushed, List.append_assoc], ?_⟩
        simp only [List.length_append, List.length_singleton]
        omega
      next => cases hs
  | pop =>
      simp only [Fifo.step] at hs
      split at hs
      next => cases hs
      next x rest hq =>
        obtain rfl := Option.some.inj hs
        rw [hq] at hpushed hlen
        refine ⟨by simpa using hpushed, ?_⟩
        show rest.length ≤ capacity
        exact Nat.le_of_succ_le hlen

/-- A push while fewer than `capacity` elements are out. -/
theorem Reached.push (h : Reached capacity f) (x : α)
    (hroom : f.pushed.length < f.popped.length + capacity) :
    ∃ f', Reached capacity f' ∧ f'.pushed = f.pushed ++ [x] ∧ f'.popped = f.popped := by
  have hlen : f.queue.length < capacity := by
    rw [h.conserves.1, List.length_append] at hroom
    omega
  exact ⟨_, .step (a := .push x) h trivial (if_pos hlen), rfl, rfl⟩

/-- A pop of the element pushed next after the popped ones. -/
theorem Reached.pop (h : Reached capacity f) {x : α} (hx : f.pushed[f.popped.length]? = some x) :
    ∃ f', Reached capacity f' ∧ f'.pushed = f.pushed ∧ f'.popped = f.popped ++ [x] := by
  rw [h.conserves.1, List.getElem?_append_right (Nat.le_refl _), Nat.sub_self] at hx
  obtain ⟨rest, hq⟩ : ∃ rest, f.queue = x :: rest := by
    cases hq : f.queue with
    | nil => rw [hq] at hx; cases hx
    | cons y rest =>
        rw [hq] at hx
        exact ⟨rest, by rw [show y = x by simpa using hx]⟩
  exact ⟨{ f with queue := rest, popped := f.popped ++ [x] },
    .step (a := .pop) h trivial (by simp only [Fifo.step, hq]), rfl, rfl⟩

end BoundedFifo
