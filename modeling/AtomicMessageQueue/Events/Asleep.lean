import AtomicMessageQueue.Events.Threads
import Mathlib.Data.Fintype.Basic

/-! # Nobody sleeps through a set event

`WaitForEvent` tests `state_` and `kill_` under the mutex and then goes to sleep, which gives the mutex
up. `SetEvent` and `DestroyEvent` do not take the mutex, so both their store and their broadcast can
fall between that test and the sleep, and the waiter then sleeps through the event. That is the one
way in which it happens: `noSleeper_of_reached` holds of every run in which a waiter that falls asleep
does so while the event is still as it found it, or while somebody has still to broadcast.
-/

namespace AtomicMessageQueue

open Function Transition

variable {ι : Type*}

/-- The thread is asleep in `pthread_cond_timedwait`: no broadcast has come since it went to sleep. -/
def EventState.Asleep (s : EventState ι) (t : ι) : Prop :=
  (s.threads t).pc = some (.wait (.asleep s.event.cond))

/-- The thread is between setting `state_` or `kill_` and its broadcast. -/
def EventState.Signalling (s : EventState ι) (t : ι) : Prop :=
  (s.threads t).pc = some (.set .broadcast) ∨ (s.threads t).pc = some (.destroy .broadcast)

/-- The event is neither set nor killed. -/
def EventT.Quiescent (e : EventT) : Prop := e.state = 0 ∧ e.kill = false

instance (s : EventState ι) (t : ι) : Decidable (s.Asleep t) :=
  inferInstanceAs (Decidable (_ = _))

instance (s : EventState ι) (t : ι) : Decidable (s.Signalling t) :=
  inferInstanceAs (Decidable (_ ∨ _))

instance (e : EventT) : Decidable e.Quiescent := inferInstanceAs (Decidable (_ ∧ _))

/-- A thread that goes to sleep finds the event neither set nor killed, or somebody has still to
broadcast. -/
def EntersInTime (s : EventState ι) (a : ι × EventChoice) : Prop :=
  (s.threads a.1).pc = some (.wait .enter) → s.event.Quiescent ∨ ∃ t, s.Signalling t

instance [Fintype ι] (s : EventState ι) (a : ι × EventChoice) : Decidable (EntersInTime s a) :=
  inferInstanceAs (Decidable (_ → _))

/-! ## The invariant -/

/-- Broadcasts are counted upwards from what every sleeper has seen, and whoever is asleep beside an
event that is set or killed will be woken. -/
structure Attended (s : EventState ι) : Prop where
  seen_le : ∀ t seen, (s.threads t).pc = some (.wait (.asleep seen)) → seen ≤ s.event.cond
  asleep : (∃ t, s.Asleep t) → s.event.Quiescent ∨ ∃ t, s.Signalling t

theorem attended_start : Attended (eventStart : EventState ι) :=
  ⟨nofun, fun ⟨_, h⟩ => absurd h nofun⟩

section Step

variable {s s' : EventState ι} {t : ι}

/-- Whether a thread has still to broadcast is read off its program point. -/
theorem EventState.Signalling.of_same {u : ι} (h : s.Signalling u)
    (hsame : (s'.threads u).pc = (s.threads u).pc) : s'.Signalling u := by
  unfold EventState.Signalling
  rw [hsame]
  exact h

theorem not_signalling {pc : EventPc} (hpc : (s.threads t).pc = some pc) (hset : pc ≠ .set .broadcast)
    (hkill : pc ≠ .destroy .broadcast) : ¬ s.Signalling t := by
  rintro (h | h)
  · exact hset (Option.some.inj (hpc.symm.trans h))
  · exact hkill (Option.some.inj (hpc.symm.trans h))

/-- Sleepers other than the thread that steps have seen no broadcast that is to come. -/
theorem Attended.seen_le_of_others (h : Attended s)
    (hothers : ∀ u, u ≠ t → (s'.threads u).pc = (s.threads u).pc)
    (hself : ∀ seen, (s'.threads t).pc = some (.wait (.asleep seen)) → seen ≤ s.event.cond) (u : ι)
    (seen : ℕ) (hu : (s'.threads u).pc = some (.wait (.asleep seen))) : seen ≤ s.event.cond := by
  by_cases hut : u = t
  · rw [hut] at hu
    exact hself seen hu
  · exact h.seen_le u seen ((hothers u hut).symm.trans hu)

/-- A step that neither sets the event nor broadcasts, after which its thread is not asleep. -/
theorem Attended.passive (h : Attended s)
    (hothers : ∀ u, u ≠ t → (s'.threads u).pc = (s.threads u).pc)
    (hcond : s'.event.cond = s.event.cond) (hquiet : s.event.Quiescent → s'.event.Quiescent)
    (hawake : ∀ seen, (s'.threads t).pc ≠ some (.wait (.asleep seen))) (hsilent : ¬ s.Signalling t) :
    Attended s' := by
  refine ⟨fun u seen hu => ?_, fun ⟨u, hu⟩ => ?_⟩
  · rw [hcond]
    exact h.seen_le_of_others hothers (fun seen ht => absurd ht (hawake seen)) u seen hu
  · have hne : u ≠ t := by
      rintro rfl
      exact hawake _ hu
    have hasleep : s.Asleep u := by
      unfold EventState.Asleep at hu ⊢
      rw [← hothers u hne, hu, hcond]
    rcases h.asleep ⟨u, hasleep⟩ with hq | ⟨v, hv⟩
    · exact .inl (hquiet hq)
    · have hvt : v ≠ t := by
        rintro rfl
        exact hsilent hv
      exact .inr ⟨v, hv.of_same (hothers v hvt)⟩

/-- After a broadcast nobody is asleep. -/
theorem Attended.broadcast (h : Attended s)
    (hothers : ∀ u, u ≠ t → (s'.threads u).pc = (s.threads u).pc)
    (hcond : s'.event.cond = s.event.cond + 1) (hout : (s'.threads t).pc = none) : Attended s' := by
  have hseen := h.seen_le_of_others hothers fun seen ht => by
    rw [hout] at ht
    cases ht
  refine ⟨fun u seen hu => ?_, fun ⟨u, hu⟩ => ?_⟩
  · rw [hcond]
    exact Nat.le_succ_of_le (hseen u seen hu)
  · have hle := hseen u _ hu
    rw [hcond] at hle
    exact absurd hle (Nat.not_succ_le_self _)

/-- A thread that has set or killed the event has still to broadcast. -/
theorem Attended.signal (h : Attended s)
    (hothers : ∀ u, u ≠ t → (s'.threads u).pc = (s.threads u).pc)
    (hcond : s'.event.cond = s.event.cond) (hsignal : s'.Signalling t) : Attended s' := by
  refine ⟨fun u seen hu => ?_, fun _ => .inr ⟨t, hsignal⟩⟩
  rw [hcond]
  refine h.seen_le_of_others hothers (fun seen ht => ?_) u seen hu
  rcases hsignal with hpc | hpc <;> (rw [hpc] at ht; cases ht)

/-- A thread falls asleep in time. -/
theorem Attended.enter (h : Attended s)
    (hothers : ∀ u, u ≠ t → (s'.threads u).pc = (s.threads u).pc)
    (hevent : s'.event = { s.event with mtx := false })
    (hpc : (s.threads t).pc = some (.wait .enter))
    (hpc' : (s'.threads t).pc = some (.wait (.asleep s.event.cond)))
    (htime : s.event.Quiescent ∨ ∃ v, s.Signalling v) : Attended s' := by
  refine ⟨fun u seen hu => ?_, fun _ => ?_⟩
  · rw [hevent]
    refine h.seen_le_of_others hothers (fun seen ht => ?_) u seen hu
    rw [hpc'] at ht
    cases ht
    exact le_rfl
  · rcases htime with hq | ⟨v, hv⟩
    · exact .inl (by rw [hevent]; exact hq)
    · have hvt : v ≠ t := by
        rintro rfl
        exact not_signalling hpc (by decide) (by decide) hv
      exact .inr ⟨v, hv.of_same (hothers v hvt)⟩

theorem EventT.Quiescent.clearState {e : EventT} (h : e.Quiescent) : e.clearState.Quiescent := by
  unfold EventT.clearState
  split
  · exact ⟨rfl, h.2⟩
  · exact h

theorem EventT.setState_cond (e : EventT) : e.setState.cond = e.cond := by
  unfold EventT.setState
  split <;> rfl

theorem EventT.clearState_cond (e : EventT) : e.clearState.cond = e.cond := by
  unfold EventT.clearState
  split <;> rfl

variable [DecidableEq ι] {calls : ι → EventCall → Bool} {a : ι × EventChoice}

/-- **Step lemma of the sleepers.** -/
theorem Attended.step (h : Attended s) (htime : EntersInTime s a)
    (hs : eventStep calls s a = some s') : Attended s' := by
  obtain ⟨t, ch⟩ := a
  have hself : ∀ l : EventThread, (update s.threads t l t).pc = l.pc := fun l => by rw [update_self]
  have hothers : ∀ (l : EventThread) (u : ι), u ≠ t →
      (update s.threads t l u).pc = (s.threads u).pc := fun l u hu => by rw [update_of_ne hu]
  rcases eventStep_cases hs with ⟨c, rfl, hpc, -, rfl⟩ | ⟨w, pc, e', o, rfl, hpc, haccess, rfl⟩
  · refine h.passive (t := t) (hothers _) rfl id (fun seen => (hself _).trans_ne ?_) ?_
    · cases c <;> simp [EventCall.enter]
    · rintro (hsignal | hsignal) <;> (rw [hpc] at hsignal; cases hsignal)
  · cases eventAccess_inv haccess with
    | set => exact h.signal (t := t) (hothers _) s.event.setState_cond (.inl (hself _))
    | kill => exact h.signal (t := t) (hothers _) rfl (.inr (hself _))
    | setBroadcast | killBroadcast => exact h.broadcast (t := t) (hothers _) rfl (hself _)
    | enter => exact h.enter (t := t) (hothers _) rfl hpc (hself _) (htime hpc)
    | clearSet | clear ret =>
        exact h.passive (t := t) (hothers _) s.event.clearState_cond (fun hq => hq.clearState)
          (fun seen => (hself _).trans_ne (by simp [EventThread.after]))
          (not_signalling hpc (by simp) (by simp))
    | _ =>
        exact h.passive (t := t) (hothers _) rfl id
          (fun seen => (hself _).trans_ne (by simp [EventThread.after]))
          (not_signalling hpc (by simp) (by simp))

/-- A thread that falls asleep too late sleeps through the event. -/
theorem sleeps_of_late_enter (hlate : ¬ EntersInTime s a) (hs : eventStep calls s a = some s') :
    s'.Asleep a.1 ∧ (∀ t, ¬ s'.Signalling t) ∧ ¬ s'.event.Quiescent := by
  simp only [EntersInTime, Classical.not_imp, not_or, not_exists] at hlate
  obtain ⟨hpc, hset, hsilent⟩ := hlate
  obtain ⟨t, ch⟩ := a
  rcases eventStep_cases hs with ⟨c, rfl, hpc', -, rfl⟩ | ⟨w, pc, e', o, rfl, hpc', haccess, rfl⟩
  · rw [hpc'] at hpc
    cases hpc
  · obtain rfl : pc = .wait .enter := Option.some.inj (hpc'.symm.trans hpc)
    cases eventAccess_inv haccess
    refine ⟨?_, fun u => ?_, hset⟩
    · simp only [EventState.Asleep, update_self, EventThread.after]
    · unfold EventState.Signalling
      by_cases hut : u = t
      · subst hut
        simp only [update_self, EventThread.after]
        exact nofun
      · simp only [update_of_ne hut]
        exact hsilent u

/-- **No waiter sleeps through an event that is set or killed**, in any run in which a thread that goes to
sleep finds the event neither set nor killed, or somebody has still to broadcast. -/
theorem noSleeper_of_reached (h : EventReached calls EntersInTime s) {t : ι} (hasleep : s.Asleep t)
    (hsilent : ∀ u, ¬ s.Signalling u) : s.event.state = 0 ∧ s.event.kill = false := by
  have hattended : Attended s :=
    h.invariant attended_start fun _ _ _ _ hi hok hs => hi.step hok hs
  exact (hattended.asleep ⟨t, hasleep⟩).resolve_right fun ⟨u, hu⟩ => hsilent u hu

end Step

/-- The next `n` accesses of thread `t`. -/
def accesses (t : ι) (n : ℕ) : List (ι × EventChoice) := List.replicate n (t, .run .wake)

/-- Thread `t` enters `c` and performs its first `n` accesses. -/
def calling (t : ι) (c : EventCall) (n : ℕ) : List (ι × EventChoice) :=
  (t, .call c) :: accesses t n

/-- Any thread may make any call. -/
def anyEventCall : ι → EventCall → Bool := fun _ _ => true

/-- Threads 0 and 1 wait, thread 2 sets the event and wakes both; thread 0 takes the signal, and thread 1
finds it gone and goes back to sleep. -/
def wokenInVain : List (Fin 3 × EventChoice) :=
  calling 0 .waitForEvent 5 ++ calling 1 .waitForEvent 5 ++ calling 2 .setEvent 2 ++ accesses 0 6 ++
  accesses 1 5

theorem noSleeper_of_reached_wokenInVain :
    ∃ s : EventState (Fin 3), EventReached anyEventCall EntersInTime s ∧ s.Asleep 1 ∧
      s.event.state = 0 ∧ s.event.kill = false := by
  obtain ⟨s, hs, hasleep, hsilent⟩ : ∃ s : EventState (Fin 3),
      EventReached anyEventCall EntersInTime s ∧ s.Asleep 1 ∧ ∀ u, ¬ s.Signalling u :=
    Reach.exists_of_run wokenInVain (by decide +kernel)
  exact ⟨s, hs, hasleep, noSleeper_of_reached hs hasleep hsilent⟩

/-- Thread 0 has tested `state_` and `kill_` and is suspended; thread 1 sets the event and broadcasts;
thread 0 goes to sleep. -/
def setBeforeSleep : List (Fin 2 × EventChoice) :=
  calling 0 .waitForEvent 4 ++ calling 1 .setEvent 2 ++ accesses 0 1

/-- The same with `DestroyEvent` in the place of `SetEvent`. -/
def killBeforeSleep : List (Fin 2 × EventChoice) :=
  calling 0 .waitForEvent 4 ++ calling 1 .destroyEvent 2 ++ accesses 0 1

/-- A waiter sleeps through an event that is set, and through one that is killed. -/
theorem sleeps_through :
    (∃ s : EventState (Fin 2), EventReached anyEventCall anyStep s ∧ s.Asleep 0 ∧
      (∀ u, ¬ s.Signalling u) ∧ s.event.state = 1) ∧
    ∃ s : EventState (Fin 2), EventReached anyEventCall anyStep s ∧ s.Asleep 0 ∧
      (∀ u, ¬ s.Signalling u) ∧ s.event.kill = true :=
  ⟨Reach.exists_of_run setBeforeSleep (by decide +kernel),
    Reach.exists_of_run killBeforeSleep (by decide +kernel)⟩

end AtomicMessageQueue
