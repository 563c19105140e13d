import Mathlib.Data.Fintype.Basic
import AtomicMessageQueue.Events.Asleep

/-! # Who consumes a signal

`WaitForEvent` clears the event after every wait, also after one that has timed out or failed. A
`SetEvent` that comes between the end of such a wait and its `ClearEvent` is lost: the wait that takes
the signal does not report it, and another thread that was woken by the same broadcast finds the event
clear. Signals are consumed only by waits that return 1 in every run in which waits time out or fail
while the event is clear, and no `SetEvent` falls between such an end and the `ClearEvent` after it.
-/

namespace AtomicMessageQueue

open Function Transition

variable {ι : Type*}

/-! ## The condition -/

/-- Between the end of a `pthread_cond_timedwait` at its deadline or with an error and the `ClearEvent`
that follows it. -/
def EventThread.givesUp (l : EventThread) : Bool :=
  match l.pc with
  | some (.wait (.relock ret)) => ret ≠ .ok
  | some (.wait (.testState ret)) => ret ≠ .ok
  | some (.wait (.unlock ret)) => ret ≠ .ok
  | some (.wait (.clear ret)) => ret ≠ .ok
  | _ => false

/-- The step ends a `pthread_cond_timedwait` at its deadline or with an error. -/
def EventState.expires (s : EventState ι) (a : ι × EventChoice) : Bool :=
  match (s.threads a.1).pc, a.2 with
  | some (.wait (.asleep _)), .run w => w.result ≠ .ok
  | _, _ => false

/-- The step is the CAS of `SetEvent`. -/
def EventState.sets (s : EventState ι) (a : ι × EventChoice) : Bool :=
  (s.threads a.1).pc = some (.set .cas)

/-- Waits time out or fail while the event is clear, and until they have cleared it nobody sets it. -/
def SetsApart (s : EventState ι) (a : ι × EventChoice) : Prop :=
  (s.expires a = true → s.event.state = 0) ∧
    (s.sets a = true → ∀ u, (s.threads u).givesUp = false)

instance [Fintype ι] (s : EventState ι) (a : ι × EventChoice) : Decidable (SetsApart s a) :=
  inferInstanceAs (Decidable (_ ∧ _))

/-! ## The invariant -/

/-- No thread calls `DestroyEvent`. -/
def NeverDestroyed (calls : ι → EventCall → Bool) : Prop := ∀ t, calls t .destroyEvent = false

/-- The event is not killed, and clear while a wait gives up; a wait that has taken the signal is about to
report it, and so has every finished wait that took one. -/
structure Reported (s : EventState ι) : Prop where
  alive : s.event.kill = false
  noDestroy : ∀ t pc, (s.threads t).pc ≠ some (.destroy pc)
  unset : ∀ t, (s.threads t).givesUp = true → s.event.state = 0
  reporting : ∀ t, (s.threads t).consumed = true →
    (s.threads t).pc = some (.wait (.testExit .ok))
  reported : ∀ f ∈ s.finished, f.consumed = true → f.result = 1

theorem reported_start : Reported (eventStart : EventState ι) :=
  ⟨rfl, fun _ _ => nofun, fun _ _ => rfl, nofun, nofun⟩

section Step

variable [DecidableEq ι] {calls : ι → EventCall → Bool} {s s' : EventState ι} {a : ι × EventChoice}

theorem EventT.setState_kill (e : EventT) : e.setState.kill = e.kill := by
  unfold EventT.setState
  split <;> rfl

theorem EventT.clearState_kill (e : EventT) : e.clearState.kill = e.kill := by
  unfold EventT.clearState
  split <;> rfl

/-- `ClearEvent` takes the signal if it finds the event set. -/
theorem consumes_clearState (e : EventT) (pc : WaitPc) :
    consumes e e.clearState (.wait pc) = decide (e.state = 1) := by
  unfold consumes EventT.clearState
  by_cases h : e.state = 1 <;> simp [h]

/-- Only `ClearEvent` takes a signal. -/
theorem EventAccess.not_consumes {w : WaitEnd} {e e' : EventT} {pc : EventPc}
    {o : Out EventPc (Option ℤ)} (h : EventAccess w e pc e' o) (hset : pc ≠ .wait .clearSet)
    (hclear : ∀ ret, pc ≠ .wait (.clear ret)) : consumes e e' pc = false := by
  -- every other access of a wait leaves `state_` as it is
  have hsame : ∀ n : ℕ, decide (n = 1 ∧ n = 0) = false := fun n => decide_eq_false (by omega)
  cases h with
  | clearSet => exact absurd rfl hset
  | clear ret => exact absurd rfl (hclear ret)
  | set | setBroadcast | kill | killBroadcast => rfl
  | _ => exact hsame _

/-- Only `SetEvent` sets the event. -/
theorem EventAccess.unset {w : WaitEnd} {e e' : EventT} {pc : EventPc} {o : Out EventPc (Option ℤ)}
    (h : EventAccess w e pc e' o) (hset : pc ≠ .set .cas) (hunset : e.state = 0) : e'.state = 0 := by
  cases h with
  | set => exact absurd rfl hset
  | clearSet | clear =>
      unfold EventT.clearState
      split
      · rfl
      · exact hunset
  | _ => exact hunset

/-- What holds of every thread holds after one of them has changed if it holds of that one. -/
theorem forall_thread_update {threads : ι → EventThread} {t : ι} {l : EventThread}
    {P : EventThread → Prop} (hothers : ∀ u, P (threads u)) (hself : P l) (u : ι) :
    P (update threads t l u) := by
  by_cases hut : u = t
  · rw [hut, update_self]
    exact hself
  · rw [update_of_ne hut]
    exact hothers u

omit [DecidableEq ι] in
/-- A thread that is not about to report a signal has taken none. -/
theorem Reported.not_consumed (h : Reported s) {t : ι} {pc : EventPc} (hpc : (s.threads t).pc = some pc)
    (hne : pc ≠ .wait (.testExit .ok)) : (s.threads t).consumed = false := by
  by_contra hc
  have hexit := h.reporting t (by simpa using hc)
  exact hne (Option.some.inj (hpc.symm.trans hexit))

omit [DecidableEq ι] in
/-- What an access of the thread leaves: a signal it has taken is about to be reported, or has been. -/
theorem Reported.access (h : Reported s) {t : ι} {w : WaitEnd} {pc : EventPc} {e' : EventT}
    {o : Out EventPc (Option ℤ)} (hpc : (s.threads t).pc = some pc)
    (haccess : EventAccess w s.event pc e' o) :
    (((s.threads t).after (consumes s.event e' pc) o).consumed = true →
      ((s.threads t).after (consumes s.event e' pc) o).pc = some (.wait (.testExit .ok))) ∧
    ∀ f ∈ (s.threads t).finish (consumes s.event e' pc) o, f.consumed = true → f.result = 1 := by
  have hnot := haccess.not_consumes
  cases haccess with
  | clearSet =>
      refine ⟨fun hc => ?_, fun f hf _ => ?_⟩
      · cases hc
      · cases hf
        rfl
  | clear ret =>
      have hfirst := h.not_consumed hpc (by simp)
      refine ⟨fun hc => ?_, fun f hf => by cases hf⟩
      simp only [EventThread.after, hfirst, consumes_clearState, Bool.false_or,
        decide_eq_true_eq] at hc
      by_cases hret : ret = .ok
      · subst hret
        rfl
      · have hclear : s.event.state = 0 := h.unset t (by simp [EventThread.givesUp, hpc, hret])
        omega
  | testExit ret =>
      rw [hnot (by simp) (by simp)]
      refine ⟨fun hc => by simp [EventThread.after] at hc, fun f hf hc => ?_⟩
      cases hf
      have hfirst : (s.threads t).consumed = true := by simpa using hc
      have hexit := hpc.symm.trans (h.reporting t hfirst)
      cases hexit
      simp only [h.alive, Bool.false_eq_true, if_false]
  | _ =>
      have hfirst := h.not_consumed hpc (by simp)
      rw [hnot (by simp) (by simp)]
      refine ⟨fun hc => ?_, fun f hf => by cases hf⟩
      simp [EventThread.after, hfirst] at hc

omit [DecidableEq ι] in
/-- A wait that gives up finds the event clear when its `pthread_cond_timedwait` ends, and until it has
cleared it. -/
theorem Reported.unset_self (h : Reported s) {t : ι} {w : WaitEnd} {pc : EventPc} {e' : EventT}
    {o : Out EventPc (Option ℤ)} (hok : SetsApart s (t, .run w)) (hpc : (s.threads t).pc = some pc)
    (haccess : EventAccess w s.event pc e' o) {took : Bool}
    (hup : ((s.threads t).after took o).givesUp = true) : e'.state = 0 := by
  have hbefore := h.unset t
  unfold EventThread.givesUp at hbefore
  rw [hpc] at hbefore
  cases haccess with
  | wake seen => exact hok.1 (by rw [EventState.expires, hpc]; exact hup)
  | relock ret | unlock ret | leaveLoop ret => exact hbefore hup
  | _ => cases hup

omit [DecidableEq ι] in
/-- While another wait gives up, nobody sets the event. -/
theorem Reported.unset_other (h : Reported s) {t u : ι} {w : WaitEnd} {pc : EventPc} {e' : EventT}
    {o : Out EventPc (Option ℤ)} (hok : SetsApart s (t, .run w)) (hpc : (s.threads t).pc = some pc)
    (haccess : EventAccess w s.event pc e' o) (hup : (s.threads u).givesUp = true) : e'.state = 0 := by
  refine haccess.unset ?_ (h.unset u hup)
  rintro rfl
  have hnone := hok.2 (decide_eq_true hpc) u
  rw [hup] at hnone
  cases hnone

/-- **Step lemma of the signals.** -/
theorem Reported.step (h : Reported s) (hcalls : NeverDestroyed calls) (hok : SetsApart s a)
    (hs : eventStep calls s a = some s') : Reported s' := by
  obtain ⟨t, ch⟩ := a
  rcases eventStep_cases hs with ⟨c, rfl, hpc, hcall, rfl⟩ | ⟨w, pc, e', o, rfl, hpc, haccess, rfl⟩
  · refine ⟨h.alive, forall_thread_update (P := fun l => ∀ pc, l.pc ≠ some (.destroy pc)) h.noDestroy ?_,
      forall_thread_update (P := fun l => l.givesUp = true → s.event.state = 0) h.unset ?_,
      forall_thread_update
        (P := fun l => l.consumed = true → l.pc = some (.wait (.testExit .ok))) h.reporting nofun,
      h.reported⟩
    · cases c with
      | destroyEvent => exact absurd hcall (by rw [hcalls t]; exact Bool.false_ne_true)
      | setEvent => exact fun _ => nofun
      | waitForEvent => exact fun _ => nofun
    · cases c <;> nofun
  · have haccess := eventAccess_inv haccess
    obtain ⟨hself, hfinish⟩ := h.access hpc haccess
    have hdestroy := h.noDestroy t
    refine ⟨?_, forall_thread_update (P := fun l => ∀ pc, l.pc ≠ some (.destroy pc)) h.noDestroy ?_,
      forall_thread_update (P := fun l => l.givesUp = true → e'.state = 0)
        (fun u => h.unset_other hok hpc haccess) (h.unset_self hok hpc haccess),
      forall_thread_update
        (P := fun l => l.consumed = true → l.pc = some (.wait (.testExit .ok))) h.reporting hself,
      fun f hf => ?_⟩
    · cases haccess with
      | kill => exact absurd hpc (hdestroy _)
      | set => exact s.event.setState_kill.trans h.alive
      | clearSet | clear => exact s.event.clearState_kill.trans h.alive
      | _ => exact h.alive
    · cases haccess with
      | kill => exact absurd hpc (hdestroy _)
      | _ => exact fun _ => nofun
    · rcases List.mem_append.mp hf with hf | hf
      · exact hfinish f (Option.mem_toList.mp hf)
      · exact h.reported f hf

/-- **Only a wait that reports a signal consumes it**, in any run in which waits time out or fail while
the event is clear and nobody sets it until they have cleared it: a finished wait that returned 0 or -1
has not changed `state_` from 1 to 0, and a wait in progress that has done so is about to return 1. -/
theorem consumed_only_if_reported (hcalls : NeverDestroyed calls)
    (h : EventReached calls SetsApart s) :
    (∀ f ∈ s.finished, f.result = 0 ∨ f.result = -1 → f.consumed = false) ∧
      ∀ t, (s.threads t).consumed = true → (s.threads t).pc = some (.wait (.testExit .ok)) := by
  have hreported : Reported s :=
    h.invariant reported_start fun _ _ _ _ hi hok hs => hi.step hcalls hok hs
  refine ⟨fun f hf hresult => ?_, hreported.reporting⟩
  by_contra hc
  have hone := hreported.reported f hf (by simpa using hc)
  omega

end Step

/-- Threads that set the event and wait for it. -/
def setAndWait {n : ℕ} : Fin n → EventCall → Bool := fun _ c => c ≠ .destroyEvent

theorem setAndWait_neverDestroyed {n : ℕ} : NeverDestroyed (setAndWait (n := n)) := fun _ => rfl

/-- Threads 0 and 1 wait. Thread 0 times out and returns; thread 2 sets the event, and thread 1 takes the
signal. -/
def timedOutBefore : List (Fin 3 × EventChoice) :=
  calling 0 .waitForEvent 5 ++ calling 1 .waitForEvent 5 ++ [(0, .run .expire)] ++ accesses 0 5 ++
  calling 2 .setEvent 2 ++ accesses 1 6

theorem consumed_only_if_reported_timedOutBefore :
    ∃ s : EventState (Fin 3), EventReached setAndWait SetsApart s ∧
      s.finished = [⟨1, true⟩, ⟨0, false⟩] ∧
      ∀ f ∈ s.finished, f.result = 0 ∨ f.result = -1 → f.consumed = false := by
  obtain ⟨s, hs, hfinished⟩ : ∃ s : EventState (Fin 3), EventReached setAndWait SetsApart s ∧
      s.finished = [⟨1, true⟩, ⟨0, false⟩] :=
    Reach.exists_of_run timedOutBefore (by decide +kernel)
  exact ⟨s, hs, hfinished, (consumed_only_if_reported setAndWait_neverDestroyed hs).1⟩

/-- Threads 0 and 1 wait. Thread 0 times out, thread 2 sets the event and wakes thread 1, thread 0 clears
the event and returns, and thread 1 finds it clear and goes back to sleep. -/
def timedOutBeside : List (Fin 3 × EventChoice) :=
  calling 0 .waitForEvent 5 ++ calling 1 .waitForEvent 5 ++ [(0, .run .expire)] ++
  calling 2 .setEvent 2 ++ accesses 0 5 ++ accesses 1 5

/-- A wait that has timed out returns 0 and has taken the signal, while another thread sleeps on beside an
event that is clear. -/
theorem signal_lost :
    ∃ s : EventState (Fin 3), EventReached setAndWait anyStep s ∧ s.finished = [⟨0, true⟩] ∧
      s.Asleep 1 ∧ s.event.state = 0 :=
  Reach.exists_of_run timedOutBeside (by decide +kernel)

end AtomicMessageQueue
