import AtomicMessageQueue.Lib.Transition
import AtomicMessageQueue.Shm.Events

/-! # Threads sharing one event

Reference: `events2.h`, `SetEvent`, `WaitForEvent` and `DestroyEvent`. Any number of threads call them
on one `event_t` that `CreateEvent` has set up, one shared access at a time. For each wait the state
also records whether it has changed `state_` from 1 to 0, and what the finished waits returned; neither
is read by the code.
-/

namespace AtomicMessageQueue

open Function Transition

/-! ## `SetEvent` and `DestroyEvent` -/

/-- Program points of `SetEvent`. -/
inductive SetEventPc
  /-- `__sync_bool_compare_and_swap(&event->state_, 0, 1)` -/
  | cas
  /-- `pthread_cond_broadcast(&event->cond_)` -/
  | broadcast
deriving DecidableEq, Repr

/-- `SetEvent`. -/
def setEvent (e : EventT) : SetEventPc → EventT × Out SetEventPc Unit
  | .cas => (e.setState, .next .broadcast)
  | .broadcast => (e.broadcast, .ret ())

/-- Program points of `DestroyEvent`. -/
inductive DestroyEventPc
  /-- `event->kill_ = true;` -/
  | kill
  /-- `pthread_cond_broadcast(&event->cond_)` -/
  | broadcast
deriving DecidableEq, Repr

/-- `DestroyEvent`. -/
def destroyEvent (e : EventT) : DestroyEventPc → EventT × Out DestroyEventPc Unit
  | .kill => ({ e with kill := true }, .next .broadcast)
  | .broadcast => (e.broadcast, .ret ())

/-! ## Threads -/

/-- The calls a thread can make on the event. A wait may end at any time, so its timeout is left out. -/
inductive EventCall
  | setEvent
  | waitForEvent
  | destroyEvent
deriving DecidableEq, Repr

/-- Program points of a thread inside the event's functions. -/
inductive EventPc
  | set (pc : SetEventPc)
  | wait (pc : WaitPc)
  | destroy (pc : DestroyEventPc)
deriving DecidableEq, Repr

/-- The first program point of a call. -/
def EventCall.enter : EventCall → EventPc
  | .setEvent => .set .cas
  | .waitForEvent => .wait .test
  | .destroyEvent => .destroy .kill

/-- A step of a function, its program points wrapped and its result read. -/
def Out.map {π ρ π' ρ' : Type*} (f : π → π') (g : ρ → ρ') : Out π ρ → Out π' ρ'
  | .next pc => .next (f pc)
  | .ret r => .ret (g r)

/-- One shared access of a thread at `pc`; only `WaitForEvent` returns a value. No result means that
the thread is blocked. -/
def eventAccess (w : WaitEnd) (e : EventT) : EventPc → Option (EventT × Out EventPc (Option ℤ))
  | .set pc =>
      let (e', o) := setEvent e pc
      some (e', o.map .set fun _ => none)
  | .wait pc => (waitForEvent w e pc).map fun (e', o) => (e', o.map .wait some)
  | .destroy pc =>
      let (e', o) := destroyEvent e pc
      some (e', o.map .destroy fun _ => none)

/-- A thread: its program point inside the event's functions, and whether its current call has changed
`state_` from 1 to 0. -/
structure EventThread where
  pc : Option EventPc
  consumed : Bool
deriving DecidableEq, Repr

/-- A finished wait: what it returned, and whether it changed `state_` from 1 to 0. -/
structure FinishedWait where
  result : ℤ
  consumed : Bool
deriving DecidableEq, Repr

/-- The event, the threads that share it, and the waits that have finished, latest first. -/
structure EventState (ι : Type*) where
  event : EventT
  threads : ι → EventThread
  finished : List FinishedWait

/-- What a scheduled thread does: enter a call, or perform its next access; the argument says how a
condition wait ends if that access is the end of one. -/
inductive EventChoice
  | call (c : EventCall)
  | run (w : WaitEnd)
deriving DecidableEq, Repr

/-- The access of a `WaitForEvent` has changed `state_` from 1 to 0. -/
def consumes (e e' : EventT) : EventPc → Bool
  | .wait _ => decide (e.state = 1 ∧ e'.state = 0)
  | _ => false

/-- The thread after one of its accesses. -/
def EventThread.after (l : EventThread) (took : Bool) : Out EventPc (Option ℤ) → EventThread
  | .next pc => { pc := some pc, consumed := l.consumed || took }
  | .ret _ => { pc := none, consumed := false }

/-- The wait an access has finished, if it has. -/
def EventThread.finish (l : EventThread) (took : Bool) : Out EventPc (Option ℤ) → Option FinishedWait
  | .next _ => none
  | .ret r => r.map fun r => { result := r, consumed := l.consumed || took }

section Step

variable {ι : Type*}

/-- One step of the threads; `calls` says which calls each may make. -/
def eventStep [DecidableEq ι] (calls : ι → EventCall → Bool) (s : EventState ι) :
    ι × EventChoice → Option (EventState ι)
  | (t, .call c) =>
      let l := s.threads t
      if l.pc.isNone ∧ calls t c then
        some { s with threads := update s.threads t { pc := some c.enter, consumed := false } }
      else none
  | (t, .run w) =>
      let l := s.threads t
      match l.pc with
      | none => none
      | some pc =>
          match eventAccess w s.event pc with
          | none => none
          | some (e', o) =>
              let took := consumes s.event e' pc
              some { event := e', threads := update s.threads t (l.after took o),
                     finished := (l.finish took o).toList ++ s.finished }

/-- The initial state: the event `CreateEvent` set up, every thread outside its functions. -/
def eventStart : EventState ι where
  event := createEvent
  threads := fun _ => { pc := none, consumed := false }
  finished := []

/-- The states reached by runs whose every step satisfies `ok`. -/
abbrev EventReached [DecidableEq ι] (calls : ι → EventCall → Bool)
    (ok : EventState ι → ι × EventChoice → Prop) : EventState ι → Prop :=
  Reach (eventStep calls) ok eventStart

/-- **Inversion of a step.** A thread outside enters a call it may make, or a thread inside performs the
access at its program point. -/
theorem eventStep_cases [DecidableEq ι] {calls : ι → EventCall → Bool} {s s' : EventState ι} {t : ι}
    {ch : EventChoice} (h : eventStep calls s (t, ch) = some s') :
    (∃ c, ch = .call c ∧ (s.threads t).pc = none ∧ calls t c = true ∧
      s' = { s with threads := update s.threads t { pc := some c.enter, consumed := false } }) ∨
    (∃ w pc e' o, ch = .run w ∧ (s.threads t).pc = some pc ∧
      eventAccess w s.event pc = some (e', o) ∧
      s' = { event := e',
             threads := update s.threads t ((s.threads t).after (consumes s.event e' pc) o),
             finished :=
               ((s.threads t).finish (consumes s.event e' pc) o).toList ++ s.finished }) := by
  cases ch with
  | call c =>
      simp only [eventStep] at h
      split at h
      next hc => exact .inl ⟨c, rfl, Option.isNone_iff_eq_none.mp hc.1, hc.2, (Option.some.inj h).symm⟩
      next => cases h
  | run w =>
      simp only [eventStep] at h
      split at h
      next => cases h
      next pc hpc =>
        split at h
        next => cases h
        next e' o haccess => exact .inr ⟨w, pc, e', o, rfl, hpc, haccess, (Option.some.inj h).symm⟩

end Step

/-! ## What one access can do -/

/-- One access of a thread on the event: the event and program point before; the event and place
after. Accesses of `WaitForEvent` that read only, or take and release the mutex, are one case each. -/
inductive EventAccess (w : WaitEnd) (e : EventT) : EventPc → EventT → Out EventPc (Option ℤ) → Prop
  | set : EventAccess w e (.set .cas) e.setState (.next (.set .broadcast))
  | setBroadcast : EventAccess w e (.set .broadcast) e.broadcast (.ret none)
  | kill : EventAccess w e (.destroy .kill) { e with kill := true } (.next (.destroy .broadcast))
  | killBroadcast : EventAccess w e (.destroy .broadcast) e.broadcast (.ret none)
  | testUnset (h : e.state = 0) : EventAccess w e (.wait .test) e (.next (.wait .lock))
  | testSet (h : e.state ≠ 0) : EventAccess w e (.wait .test) e (.next (.wait .clearSet))
  | clearSet : EventAccess w e (.wait .clearSet) e.clearState (.ret (some 1))
  | lock (h : e.mtx = false) :
      EventAccess w e (.wait .lock) { e with mtx := true } (.next (.wait (.testState .ok)))
  | loop (ret : WaitResult) (h : e.state = 0) (hr : ret = .ok) :
      EventAccess w e (.wait (.testState ret)) e (.next (.wait .testKill))
  | leaveLoop (ret : WaitResult) (h : ¬ (e.state = 0 ∧ ret = .ok)) :
      EventAccess w e (.wait (.testState ret)) e (.next (.wait (.unlock ret)))
  | killed (h : e.kill = true) :
      EventAccess w e (.wait .testKill) e (.next (.wait (.unlock .ok)))
  | alive (h : e.kill = false) : EventAccess w e (.wait .testKill) e (.next (.wait .enter))
  | enter :
      EventAccess w e (.wait .enter) { e with mtx := false } (.next (.wait (.asleep e.cond)))
  | wake (seen : ℕ) (h : ¬ (w = .wake ∧ e.cond = seen)) :
      EventAccess w e (.wait (.asleep seen)) e (.next (.wait (.relock w.result)))
  | relock (ret : WaitResult) (h : e.mtx = false) :
      EventAccess w e (.wait (.relock ret)) { e with mtx := true } (.next (.wait (.testState ret)))
  | unlock (ret : WaitResult) :
      EventAccess w e (.wait (.unlock ret)) { e with mtx := false } (.next (.wait (.clear ret)))
  | clear (ret : WaitResult) :
      EventAccess w e (.wait (.clear ret)) e.clearState (.next (.wait (.testExit ret)))
  | testExit (ret : WaitResult) :
      EventAccess w e (.wait (.testExit ret)) e
        (.ret (some (if e.kill then -1 else
          match ret with
          | .ok => 1
          | .timedOut => 0
          | .error => -1)))

/-- Every access a thread performs is listed in `EventAccess`. -/
theorem eventAccess_inv {w : WaitEnd} {e e' : EventT} {pc : EventPc} {o : Out EventPc (Option ℤ)}
    (h : eventAccess w e pc = some (e', o)) : EventAccess w e pc e' o := by
  cases pc with
  | set pc => cases pc <;> cases h <;> constructor
  | destroy pc => cases pc <;> cases h <;> constructor
  | wait pc =>
      simp only [eventAccess, Option.map_eq_some_iff, Prod.exists] at h
      obtain ⟨e₁, o₁, hwait, heq⟩ := h
      cases heq
      cases pc <;> simp only [waitForEvent] at hwait
      case test =>
        split at hwait <;> cases hwait
        · exact .testUnset ‹_›
        · exact .testSet ‹_›
      case lock =>
        split at hwait <;> cases hwait
        exact .lock (Bool.eq_false_iff.mpr ‹_›)
      case testState ret =>
        split at hwait <;> cases hwait
        · exact .loop ret (‹_ ∧ _›).1 (‹_ ∧ _›).2
        · exact .leaveLoop ret ‹_›
      case testKill =>
        split at hwait <;> cases hwait
        · exact .killed ‹_›
        · exact .alive (Bool.eq_false_iff.mpr ‹_›)
      case asleep seen =>
        split at hwait <;> cases hwait
        exact .wake seen ‹_›
      case relock ret =>
        split at hwait <;> cases hwait
        exact .relock ret (Bool.eq_false_iff.mpr ‹_›)
      all_goals
        cases hwait
        constructor

end AtomicMessageQueue
