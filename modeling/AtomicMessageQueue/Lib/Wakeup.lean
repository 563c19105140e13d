import Mathlib.Logic.Function.Basic

/-! # Wake-ups through a one-bit event

Threads that wait for an event, and threads that set it. A waiting thread is safe as long as there is
nothing to wake up for, or the event is set, or some thread is on its way to look again or to set the
event. `Safe` says so of a whole state; `Keeps` lists what a step must not do to keep it.
-/

namespace Wakeup

variable {ι : Type*}

/-- A thread's part in the wake-ups: it waits or has decided to, it is on its way to look again or to
set the event, or neither. -/
inductive Role
  | idle
  | waiting
  | coming
deriving DecidableEq

/-- One event: whether there is something to wake up for, the bit, and each thread's part. -/
structure Watch (ι : Type*) where
  pending : Bool
  set : Bool
  role : ι → Role

namespace Watch

/-- Whoever waits need not be woken, or will be. -/
def Covered (w : Watch ι) : Prop :=
  w.pending = true → w.set = true ∨ ∃ t, w.role t = .coming

/-- If a thread waits, it is covered. -/
def Safe (w : Watch ι) : Prop := (∃ t, w.role t = .waiting) → w.Covered

/-- The watch with the part of one thread replaced. -/
def withRole [DecidableEq ι] (w : Watch ι) (t : ι) (r : Role) : Watch ι :=
  { w with role := Function.update w.role t r }

/-- A step of thread `t` takes no cover away: what it no longer provides it has passed on. -/
structure Keeps (t : ι) (w w' : Watch ι) : Prop where
  others : ∀ u, u ≠ t → w'.role u = w.role u
  pending : w'.pending = true → w.pending = true ∨ w'.role t = .coming
  set : w.set = true → w'.set = true ∨ w'.role t = .coming
  waiting : w'.role t = .waiting → w.role t = .waiting
  coming : w.role t = .coming → w'.role t = .coming ∨ w'.set = true

variable {w w' : Watch ι}

theorem Safe.of_not_pending (h : w.pending = false) : w.Safe :=
  fun _ hpending => by
    rw [h] at hpending
    cases hpending

theorem Safe.of_set (h : w.set = true) : w.Safe := fun _ _ => .inl h

/-- Nobody waits: neither thread `t` nor another. -/
theorem Safe.of_not_waiting (t : ι) (ht : w.role t ≠ .waiting)
    (hothers : ∀ u, u ≠ t → w.role u ≠ .waiting) : w.Safe := by
  rintro ⟨u, hu⟩
  by_cases hut : u = t
  · exact absurd (hut ▸ hu) ht
  · exact absurd hu (hothers u hut)

theorem Safe.keeps {t : ι} (h : w.Safe) (hk : Keeps t w w') : w'.Safe := by
  rintro ⟨u, hu⟩ hpending
  by_cases hcoming : w'.role t = .coming
  · exact .inr ⟨t, hcoming⟩
  · have hwaiting : w.role u = .waiting := by
      by_cases hut : u = t
      · subst hut
        exact hk.waiting hu
      · rw [← hk.others u hut]
        exact hu
    have hpending' := (hk.pending hpending).resolve_right hcoming
    rcases h ⟨u, hwaiting⟩ hpending' with hset | ⟨v, hv⟩
    · exact .inl ((hk.set hset).resolve_right hcoming)
    · by_cases hvt : v = t
      · subst hvt
        exact .inl ((hk.coming hv).resolve_left hcoming)
      · exact .inr ⟨v, by rw [hk.others v hvt]; exact hv⟩

section WithRole

variable [DecidableEq ι] {t : ι} {r : Role}

/-- A step after which the parts of the other threads read the same. -/
theorem Keeps.withRole (hothers : ∀ u, w'.role u = w.role u)
    (hpending : w'.pending = true → w.pending = true ∨ r = .coming)
    (hset : w.set = true → w'.set = true ∨ r = .coming)
    (hwaiting : r = .waiting → w.role t = .waiting)
    (hcoming : w.role t = .coming → r = .coming ∨ w'.set = true) :
    Keeps t w (w'.withRole t r) := by
  have hself : (w'.withRole t r).role t = r := by
    simp only [Watch.withRole, Function.update_self]
  exact
    { others := fun u hu => by simp only [Watch.withRole, Function.update_of_ne hu, hothers u]
      pending := fun hp => hself.symm ▸ hpending hp
      set := fun hs => hself.symm ▸ hset hs
      waiting := fun hw => hwaiting (hself ▸ hw)
      coming := fun hc => hself.symm ▸ hcoming hc }

/-- A thread that had no part takes one, other than to wait. -/
theorem Safe.withRole (h : w.Safe) (hidle : w.role t = .idle) (hr : r ≠ .waiting) :
    (w.withRole t r).Safe := by
  refine h.keeps (.withRole (fun _ => rfl) .inl .inl (fun hw => absurd hw hr) fun hc => ?_)
  rw [hidle] at hc
  cases hc

end WithRole

/-- Once no thread is on its way, a waiting thread has nothing to wake up for or the event is set. -/
theorem Safe.of_still (h : w.Safe) (hstill : ∀ t, w.role t ≠ .coming) {t : ι}
    (ht : w.role t = .waiting) : w.pending = false ∨ w.set = true := by
  by_cases hpending : w.pending = true
  · rcases h ⟨t, ht⟩ hpending with hset | ⟨u, hu⟩
    · exact .inr hset
    · exact absurd hu (hstill u)
  · exact .inl (Bool.eq_false_iff.mpr hpending)

end Watch

end Wakeup
