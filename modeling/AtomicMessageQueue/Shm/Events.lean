import AtomicMessageQueue.Shm.Memory

/-! # Events

Reference: `events2.h`. `SetEvent`, `ClearEvent` and `WaitForEvent` are given as their single accesses
to the shared `event_t`. The mutex and the condition variable behave as POSIX says: entering the wait
releases the mutex, and `pthread_cond_timedwait` takes it again before it returns.
-/

namespace AtomicMessageQueue

/-- Where one shared access leaves an operation: at its next program point, or returned. -/
inductive Out (π ρ : Type*)
  | next (pc : π)
  | ret (value : ρ)

/-- How a `pthread_cond_timedwait` in progress ends: by a broadcast, spuriously, at its deadline, or
with an error such as `EINVAL`. -/
inductive WaitEnd
  | wake
  | spurious
  | expire
  | fail
deriving DecidableEq, Repr

namespace EventT

/-- `__sync_bool_compare_and_swap(&event->state_, 0, 1)`. -/
def setState (e : EventT) : EventT :=
  if e.state = 0 then { e with state := 1 } else e

/-- `pthread_cond_broadcast(&event->cond_)`. -/
def broadcast (e : EventT) : EventT :=
  { e with cond := e.cond + 1 }

/-- `ClearEvent`: `__sync_bool_compare_and_swap(&event->state_, 1, 0)`. -/
def clearState (e : EventT) : EventT :=
  if e.state = 1 then { e with state := 0 } else e

end EventT

/-- The result codes of `pthread_cond_timedwait` that `WaitForEvent` tells apart. -/
inductive WaitResult
  | ok
  | timedOut
  | error
deriving DecidableEq, Repr

/-- What a `pthread_cond_timedwait` that ends this way returns. -/
def WaitEnd.result : WaitEnd → WaitResult
  | .wake => .ok
  | .spurious => .ok
  | .expire => .timedOut
  | .fail => .error

/-- The program points of `WaitForEvent`, each before a shared access. -/
inductive WaitPc
  /-- `if(!event->state_)` -/
  | test
  /-- `ClearEvent(event); return 1;` on the branch that found the event set -/
  | clearSet
  /-- `pthread_mutex_lock` -/
  | lock
  /-- `while(!event->state_ && ret == 0 && ..)` -/
  | testState (ret : WaitResult)
  /-- `.. && !event->kill_)` -/
  | testKill
  /-- `pthread_cond_timedwait` goes to sleep and releases the mutex -/
  | enter
  /-- asleep since the broadcast count was `seen` -/
  | asleep (seen : ℕ)
  /-- `pthread_cond_timedwait` takes the mutex again -/
  | relock (ret : WaitResult)
  /-- `pthread_mutex_unlock` -/
  | unlock (ret : WaitResult)
  /-- `ClearEvent(event)` after the wait -/
  | clear (ret : WaitResult)
  /-- `if(event->kill_) return -1;` and the result -/
  | testExit (ret : WaitResult)
deriving DecidableEq, Repr

/-- One step of a wait: the event and program point before give those after, for one way `w` the
condition wait may end. No result means that the step is blocked. -/
abbrev WaitStep := WaitEnd → EventT → WaitPc → Option (EventT × Out WaitPc ℤ)

/-- `WaitForEvent`, access by access. -/
def waitForEvent : WaitStep
  | _, e, .test => some (e, .next (if e.state = 0 then .lock else .clearSet))
  | _, e, .clearSet => some (e.clearState, .ret 1)
  | _, e, .lock =>
      if e.mtx then none else some ({ e with mtx := true }, .next (.testState .ok))
  | _, e, .testState ret =>
      some (e, .next (if e.state = 0 ∧ ret = .ok then .testKill else .unlock ret))
  | _, e, .testKill => some (e, .next (if e.kill then .unlock .ok else .enter))
  | _, e, .enter => some ({ e with mtx := false }, .next (.asleep e.cond))
  | w, e, .asleep seen =>
      -- a wake-up needs a broadcast since the thread fell asleep; the other ends need nothing
      if w = .wake ∧ e.cond = seen then none else some (e, .next (.relock w.result))
  | _, e, .relock ret =>
      if e.mtx then none else some ({ e with mtx := true }, .next (.testState ret))
  | _, e, .unlock ret => some ({ e with mtx := false }, .next (.clear ret))
  | _, e, .clear ret => some (e.clearState, .next (.testExit ret))
  | _, e, .testExit ret =>
      some (e, .ret (if e.kill then -1 else
        match ret with
        | .ok => 1
        | .timedOut => 0
        | .error => -1))

/-- `WaitForEvent` with the tests of `state_` and `kill_` and the falling asleep as one step. -/
def waitForEventAtomic : WaitStep
  | _, e, .testState ret =>
      if e.state = 0 ∧ ret = .ok ∧ e.kill = false then
        some ({ e with mtx := false }, .next (.asleep e.cond))
      else some (e, .next (.unlock ret))
  | w, e, pc => waitForEvent w e pc

end AtomicMessageQueue
