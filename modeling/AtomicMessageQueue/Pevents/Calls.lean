import AtomicMessageQueue.Shm.Events
import Mathlib.Logic.Function.Basic

/-! # Waiting for several events

Reference: `pevents.h`, compiled with `WFMO`. An event has a state and a list of the calls that wait for
it among others; such a call waits in a `wfmo_t_` of its own, which is freed by whoever gives up the last
reference to it. Each function is given as its program points and the step at each. Taking and giving up
a mutex and every operation on a condition variable are steps of their own; between two of them the data
a thread reads and writes is guarded by a mutex it holds (or is its own), and such accesses are one step.
-/

namespace AtomicMessageQueue.Pevents

open Function

/-! ## Events, waiters and memory -/

/-- `wfmo_info_t_`: the block of a waiting call, and the index under which that call waits for this
event. -/
structure WfmoInfo where
  waiter : ℕ
  waitIndex : ℕ
deriving DecidableEq, Repr

/-- `pevent_t`, what its `Mutex` guards. -/
structure PEvent where
  autoReset : Bool
  state : Bool
  registeredWaits : List WfmoInfo
  /-- how many registrations, from the front, `SetEvent` has dealt with; not read by the code -/
  counted : ℕ
deriving DecidableEq, Repr

/-- `wfmo_t_`, what its `Mutex` guards. -/
structure Wfmo where
  refCount : ℤ
  /-- the union of `FiredEvent` and `EventsLeft` -/
  status : ℤ
  waitAll : Bool
  stillWaiting : Bool
  /-- the call that made the block has not given up its reference; not read by the code -/
  present : Bool
deriving DecidableEq, Repr

/-- What has a `Mutex` and a `CVariable`: an event, or the block of a waiting call. -/
inductive Object
  | event (e : ℕ)
  | waiter (w : ℕ)
deriving DecidableEq, Repr

/-- The memory the threads share. Blocks are numbered in the order of their `new`, so that an address
is not used twice. -/
structure Memory (ι : Type*) where
  events : ℕ → PEvent
  waiters : ℕ → Wfmo
  /-- who holds each `Mutex` -/
  mutex : Object → Option ι
  /-- the threads blocked on each `CVariable` -/
  cVariable : Object → List ι
  /-- how many blocks have been made -/
  allocated : ℕ
  /-- the blocks that have been through `Destroy()` and `delete` -/
  destroyed : ℕ → Bool

namespace Memory

variable {ι : Type*} (m : Memory ι)

/-- A thread has taken a mutex. -/
@[simps]
def locked (o : Object) (t : ι) : Memory ι := { m with mutex := update m.mutex o (some t) }

/-- A thread takes a mutex, if it is free. -/
def lock (o : Object) (t : ι) : Option (Memory ι) :=
  if (m.mutex o).isNone then some (m.locked o t) else none

/-- `pthread_mutex_unlock`. -/
@[simps]
def unlock (o : Object) : Memory ι := { m with mutex := update m.mutex o none }

/-- Writes to the data of event `e`. -/
@[simps]
def setEvent (e : ℕ) (f : PEvent → PEvent) : Memory ι :=
  { m with events := update m.events e (f (m.events e)) }

/-- Writes to the data of block `w`. -/
@[simps]
def setWaiter (w : ℕ) (f : Wfmo → Wfmo) : Memory ι :=
  { m with waiters := update m.waiters w (f (m.waiters w)) }

/-- `new wfmo_t_`, and its fields. -/
@[simps]
def new (b : Wfmo) : Memory ι :=
  { m with waiters := update m.waiters m.allocated b, allocated := m.allocated + 1 }

/-- `Destroy()` and `delete`. -/
@[simps]
def destroy (w : ℕ) : Memory ι := { m with destroyed := update m.destroyed w true }

/-- `pthread_cond_wait` or `pthread_cond_timedwait` up to where the thread is blocked: the mutex is given
up. -/
@[simps]
def condWait (o : Object) (t : ι) : Memory ι :=
  { m with mutex := update m.mutex o none, cVariable := update m.cVariable o (t :: m.cVariable o) }

/-- `pthread_cond_signal`: one of the threads blocked there, if any, is not blocked any more. -/
@[simps]
def condSignal (o : Object) (k : ℕ) : Memory ι :=
  { m with cVariable :=
      update m.cVariable o ((m.cVariable o).eraseIdx (k % (m.cVariable o).length)) }

/-- `pthread_cond_broadcast`. -/
@[simps]
def condBroadcast (o : Object) : Memory ι := { m with cVariable := update m.cVariable o [] }

/-- A wait has ended, before the mutex is taken again. -/
@[simps]
def awake [DecidableEq ι] (o : Object) (t : ι) : Memory ι :=
  { m with cVariable := update m.cVariable o ((m.cVariable o).erase t) }

/-- How a wait may end: a thread that has been signalled goes on, one that has not may wake up
spuriously, reach its deadline if it has one, or fail. -/
def wakeUp [DecidableEq ι] (o : Object) (t : ι) (timed : Bool) : WaitEnd → Option WaitResult
  | .wake => if t ∈ m.cVariable o then none else some .ok
  | w => if t ∈ m.cVariable o ∧ (w = .expire → timed) then some w.result else none

end Memory

/-! ## Calls and marks -/

/-- The arguments of a `WaitForMultipleEvents`; `events[0]` is event number `events`. -/
structure WaitCall where
  events : ℕ
  count : ℤ
  waitAll : Bool
  milliseconds : ℕ
deriving DecidableEq, Repr

/-- The timeout `(uint64_t) -1`, which waits for good. -/
def infinite : ℕ := 0xffffffffffffffff

/-- What a step did that a history records. -/
inductive Mark
  /-- `SetEvent` stored `State = true` over `was` -/
  | set (e : ℕ) (was : Bool)
  /-- `ResetEvent` stored `State = false` over `was` -/
  | reset (e : ℕ) (was : Bool)
  /-- `WaitForEvent` obtained the event -/
  | obtain (e : ℕ)
  /-- the waiting call with block `w` obtained the event as its `events[i]` -/
  | obtainFor (e w i : ℕ)
  /-- the waiting call with block `w` gave up its reference and is to return these two -/
  | leave (w : ℕ) (c : WaitCall) (result : WaitResult) (waitIndex : ℤ)
deriving DecidableEq, Repr

/-- The effect of one step: the memory, where the function stands, and the mark. -/
abbrev Effect (ι : Type*) (π ρ : Type*) := Memory ι × Out π ρ × Option Mark

/-- What the code leaves open: how a condition wait in progress ends, and which of the blocked threads a
signal wakes. -/
structure Chance where
  waitEnd : WaitEnd
  woken : ℕ
deriving DecidableEq, Repr

/-- `UnlockedWaitForEvent` obtains an event that is set, which resets it if it is an auto-reset event. -/
def PEvent.obtain (ev : PEvent) : PEvent := { ev with state := !ev.autoReset }

/-! ## `WaitForEvent` -/

/-- Program points of `WaitForEvent`. -/
inductive WaitPc
  /-- `pthread_mutex_lock(&event->Mutex)`, or `pthread_mutex_trylock` -/
  | lock
  /-- `if (!event->State)` -/
  | check
  /-- blocked in `pthread_cond_timedwait` or `pthread_cond_wait` -/
  | asleep
  /-- the wait takes the mutex again -/
  | relock (result : WaitResult)
  /-- `while (result == 0 && !event->State)` -/
  | test (result : WaitResult)
deriving DecidableEq, Repr

section Steps

variable {ι : Type*} [DecidableEq ι] (t : ι) (ch : Chance) (m : Memory ι)

/-- `WaitForEvent`, with `UnlockedWaitForEvent` inside. -/
def waitForEvent (e milliseconds : ℕ) : WaitPc → Option (Effect ι WaitPc WaitResult)
  | .lock =>
      if milliseconds = 0 ∧ (m.mutex (.event e)).isSome then some (m, .ret .timedOut, none)
      else (m.lock (.event e) t).map fun m' => (m', .next .check, none)
  | .check =>
      if (m.events e).state then
        some ((m.setEvent e PEvent.obtain).unlock (.event e), .ret .ok, some (.obtain e))
      else if milliseconds = 0 then some (m.unlock (.event e), .ret .timedOut, none)
      else some (m.condWait (.event e) t, .next .asleep, none)
  | .asleep =>
      (m.wakeUp (.event e) t (milliseconds ≠ infinite) ch.waitEnd).map fun r =>
        (m.awake (.event e) t, .next (.relock r), none)
  | .relock r => (m.lock (.event e) t).map fun m' => (m', .next (.test r), none)
  | .test r =>
      if r = .ok then
        if (m.events e).state then
          some ((m.setEvent e PEvent.obtain).unlock (.event e), .ret .ok, some (.obtain e))
        else some (m.condWait (.event e) t, .next .asleep, none)
      else some (m.unlock (.event e), .ret r, none)

/-! ## `WaitForMultipleEvents` -/

/-- Program points of `WaitForMultipleEvents`; `w` is its block and `i` the loop counter. -/
inductive MultiplePc
  /-- `wfmo_t wfmo = new wfmo_t_;` and its fields -/
  | create
  /-- `pthread_mutex_lock(&wfmo->Mutex)` -/
  | lockOwn (w : ℕ)
  /-- `i < count`, `pthread_mutex_lock(&events[i].Mutex)` -/
  | lockEvent (w i : ℕ)
  /-- `std::remove_if` at element `k`: `pthread_mutex_trylock(&wait.Waiter->Mutex)` -/
  | sweep (w i k : ℕ)
  /-- `if (!wait.Waiter->StillWaiting)` in `RemoveExpiredWaitHelper` -/
  | expired (w i k : ℕ) (info : WfmoInfo)
  /-- `wait.Waiter->Destroy(); delete wait.Waiter;` -/
  | destroyExpired (w i k u : ℕ)
  /-- `if (UnlockedWaitForEvent(&events[i], 0) == 0)` -/
  | check (w i : ℕ)
  /-- `done = ..` in the loop that waits -/
  | testDone (w : ℕ)
  /-- blocked in `pthread_cond_timedwait` or `pthread_cond_wait` -/
  | asleep (w : ℕ)
  /-- the wait takes the mutex again -/
  | relock (w : ℕ) (result : WaitResult)
  /-- `waitIndex = wfmo->Status.FiredEvent;` to `pthread_mutex_unlock(&wfmo->Mutex)` -/
  | leave (w : ℕ) (result : WaitResult)
  /-- `wfmo->Destroy(); delete wfmo;` -/
  | destroyOwn (w : ℕ) (result : WaitResult) (waitIndex : ℤ)
deriving DecidableEq, Repr

/-- The block a waiting call starts with. -/
def WaitCall.wfmo (c : WaitCall) : Wfmo where
  refCount := 1
  status := if c.waitAll then c.count else -1
  waitAll := c.waitAll
  stillWaiting := true
  present := true

/-- The condition that ends the waiting loop: no event left, or an event fired. -/
def WaitCall.done (c : WaitCall) (status : ℤ) : Bool :=
  if c.waitAll then status = 0 else status ≠ -1

/-- `RegisteredWaits.push_back(waitInfo)`. -/
def PEvent.register (ev : PEvent) (info : WfmoInfo) : PEvent :=
  { ev with registeredWaits := ev.registeredWaits ++ [info] }

/-- `std::remove_if` takes out element `k`. -/
def PEvent.remove (ev : PEvent) (k : ℕ) : PEvent :=
  { ev with registeredWaits := ev.registeredWaits.eraseIdx k }

/-- A registration of the block is added. -/
def Wfmo.addRef (b : Wfmo) : Wfmo := { b with refCount := b.refCount + 1 }

/-- A registration of the block is given up. -/
def Wfmo.dropRef (b : Wfmo) : Wfmo := { b with refCount := b.refCount - 1 }

/-- The block's call obtains the event with this index during registration. -/
def Wfmo.found (b : Wfmo) (waitAll : Bool) (i : ℕ) : Wfmo :=
  if waitAll then { b with status := b.status - 1 } else { b with status := i }

/-- `SetEvent` gives the event with this index to the block's call. -/
def Wfmo.fire (b : Wfmo) (i : ℕ) : Wfmo :=
  if b.waitAll then { b with status := b.status - 1 }
  else { b with status := i, stillWaiting := false }

@[simp]
theorem Wfmo.found_refCount (b : Wfmo) (waitAll : Bool) (i : ℕ) :
    (b.found waitAll i).refCount = b.refCount := by
  unfold Wfmo.found
  split <;> rfl

@[simp]
theorem Wfmo.found_present (b : Wfmo) (waitAll : Bool) (i : ℕ) :
    (b.found waitAll i).present = b.present := by
  unfold Wfmo.found
  split <;> rfl

@[simp]
theorem Wfmo.fire_refCount (b : Wfmo) (i : ℕ) : (b.fire i).refCount = b.refCount := by
  unfold Wfmo.fire
  split <;> rfl

@[simp]
theorem Wfmo.fire_present (b : Wfmo) (i : ℕ) : (b.fire i).present = b.present := by
  unfold Wfmo.fire
  split <;> rfl

/-- The block's call ends. -/
def Wfmo.leave (b : Wfmo) : Wfmo :=
  { b with stillWaiting := false, refCount := b.refCount - 1, present := false }

/-- `WaitForMultipleEvents`, with `RemoveExpiredWaitHelper` and `UnlockedWaitForEvent` inside. It returns
its result and `waitIndex`. -/
def waitForMultipleEvents (c : WaitCall) :
    MultiplePc → Option (Effect ι MultiplePc (WaitResult × ℤ))
  | .create => some (m.new c.wfmo, .next (.lockOwn m.allocated), none)
  | .lockOwn w => (m.lock (.waiter w) t).map fun m' => (m', .next (.lockEvent w 0), none)
  | .lockEvent w i =>
      if i < c.count then
        (m.lock (.event (c.events + i)) t).map fun m' => (m', .next (.sweep w i 0), none)
      else some (m, .next (if c.milliseconds = 0 then .leave w .timedOut else .testDone w), none)
  | .sweep w i k =>
      match (m.events (c.events + i)).registeredWaits[k]? with
      | none => some (m, .next (.check w i), none)
      | some info =>
          -- a registration whose block is in use stays where it is
          match m.lock (.waiter info.waiter) t with
          | none => some (m, .next (.sweep w i (k + 1)), none)
          | some m' => some (m', .next (.expired w i k info), none)
  | .expired w i k info =>
      let b := m.waiters info.waiter
      if b.stillWaiting then
        some (m.unlock (.waiter info.waiter), .next (.sweep w i (k + 1)), none)
      else
        let m' := (m.setWaiter info.waiter Wfmo.dropRef).setEvent (c.events + i) (·.remove k)
        some (m'.unlock (.waiter info.waiter),
          .next (if b.dropRef.refCount = 0 then .destroyExpired w i k info.waiter
            else .sweep w i k), none)
  | .destroyExpired w i k u => some (m.destroy u, .next (.sweep w i k), none)
  | .check w i =>
      if (m.events (c.events + i)).state then
        let m' := m.setEvent (c.events + i) PEvent.obtain
        some ((m'.setWaiter w (·.found c.waitAll i)).unlock (.event (c.events + i)),
          .next (if c.waitAll then .lockEvent w (i + 1) else .leave w .ok),
          some (.obtainFor (c.events + i) w i))
      else
        let m' := m.setEvent (c.events + i) (·.register ⟨w, i⟩)
        some ((m'.setWaiter w Wfmo.addRef).unlock (.event (c.events + i)),
          .next (.lockEvent w (i + 1)), none)
  | .testDone w =>
      if c.done (m.waiters w).status then some (m, .next (.leave w .ok), none)
      else some (m.condWait (.waiter w) t, .next (.asleep w), none)
  | .asleep w =>
      (m.wakeUp (.waiter w) t (c.milliseconds ≠ infinite) ch.waitEnd).map fun r =>
        (m.awake (.waiter w) t, .next (.relock w r), none)
  | .relock w r =>
      (m.lock (.waiter w) t).map fun m' =>
        (m', .next (if r = .ok then .testDone w else .leave w r), none)
  | .leave w r =>
      let b := m.waiters w
      some ((m.setWaiter w Wfmo.leave).unlock (.waiter w),
        if b.leave.refCount = 0 then .next (.destroyOwn w r b.status) else .ret (r, b.status),
        some (.leave w c r b.status))
  | .destroyOwn w r waitIndex => some (m.destroy w, .ret (r, waitIndex), none)

/-! ## `SetEvent` and `ResetEvent` -/

/-- Program points of `SetEvent`; `i` is the position of the registration it is at, 0 throughout for an
auto-reset event, which takes each registration off the front. -/
inductive SetPc
  /-- `pthread_mutex_lock(&event->Mutex)` -/
  | lock
  /-- `event->State = true;` -/
  | store
  /-- the head of the loop, `pthread_mutex_lock(&i->Waiter->Mutex)` -/
  | scan (i : ℕ)
  /-- `--i->Waiter->RefCount;` to `pthread_mutex_unlock(&i->Waiter->Mutex)` -/
  | serve (i : ℕ) (info : WfmoInfo)
  /-- `i->Waiter->Destroy(); delete i->Waiter;` -/
  | destroy (i w : ℕ)
  /-- `pthread_cond_signal(&i->Waiter->CVariable)` -/
  | notify (i w : ℕ)
  /-- `pthread_mutex_unlock(&event->Mutex)` after an auto-reset event was given to a waiting call -/
  | unlock
  /-- `pthread_cond_signal(&event->CVariable)` -/
  | signal
  /-- `pthread_cond_broadcast(&event->CVariable)` -/
  | broadcast
deriving DecidableEq, Repr

/-- `event->State = true;` -/
def PEvent.raise (ev : PEvent) : PEvent := { ev with state := true }

/-- `event->State = false;` -/
def PEvent.reset (ev : PEvent) : PEvent := { ev with state := false }

/-- The loop of `SetEvent` is done with a registration: `pop_front()` for an auto-reset event. -/
def PEvent.pass (ev : PEvent) : PEvent :=
  if ev.autoReset then
    { ev with registeredWaits := ev.registeredWaits.tail, counted := ev.counted - 1 }
  else ev

/-- The position the loop of `SetEvent` goes on at. -/
def PEvent.nextIndex (ev : PEvent) (i : ℕ) : ℕ := if ev.autoReset then i else i + 1

/-- `SetEvent` has dealt with one more registration. -/
def PEvent.countOff (ev : PEvent) : PEvent := { ev with counted := ev.counted + 1 }

/-- An auto-reset event that a waiting call has been given is not set any more. -/
def PEvent.give (ev : PEvent) : PEvent :=
  if ev.autoReset then ev.countOff.reset else ev.countOff

/-- The loop over the registrations of a manual-reset event is over: `RegisteredWaits.clear()`. -/
def PEvent.clear (ev : PEvent) : PEvent := { ev with registeredWaits := [], counted := 0 }

/-- `SetEvent`. -/
def setEvent (e : ℕ) : SetPc → Option (Effect ι SetPc Unit)
  | .lock => (m.lock (.event e) t).map fun m' => (m', .next .store, none)
  | .store =>
      some (m.setEvent e PEvent.raise, .next (.scan 0), some (.set e (m.events e).state))
  | .scan i =>
      match (m.events e).registeredWaits[i]? with
      | some info => (m.lock (.waiter info.waiter) t).map fun m' => (m', .next (.serve i info), none)
      | none =>
          if (m.events e).autoReset then
            if (m.events e).state then some (m.unlock (.event e), .next .signal, none)
            -- the function would return with the event's mutex held
            else some (m, .ret (), none)
          else some ((m.setEvent e PEvent.clear).unlock (.event e), .next .broadcast, none)
  | .serve i info =>
      let b := m.waiters info.waiter
      let ev := m.events e
      if b.stillWaiting then
        let m' := m.setWaiter info.waiter fun b => b.dropRef.fire info.waitIndex
        some ((m'.setEvent e PEvent.give).unlock (.waiter info.waiter), .next (.notify i info.waiter),
          some (.obtainFor e info.waiter info.waitIndex))
      else
        let m' := m.setWaiter info.waiter Wfmo.dropRef
        if b.dropRef.refCount = 0 then
          some ((m'.setEvent e PEvent.countOff).unlock (.waiter info.waiter),
            .next (.destroy i info.waiter), none)
        else some ((m'.setEvent e fun ev => ev.countOff.pass).unlock (.waiter info.waiter),
            .next (.scan (ev.nextIndex i)), none)
  | .destroy i w =>
      some ((m.destroy w).setEvent e PEvent.pass, .next (.scan ((m.events e).nextIndex i)), none)
  | .notify i w =>
      some ((m.condSignal (.waiter w) ch.woken).setEvent e PEvent.pass,
        .next (if (m.events e).autoReset then .unlock else .scan (i + 1)), none)
  | .unlock => some (m.unlock (.event e), .ret (), none)
  | .signal => some (m.condSignal (.event e) ch.woken, .ret (), none)
  | .broadcast => some (m.condBroadcast (.event e), .ret (), none)

/-- Program points of `ResetEvent`. -/
inductive ResetPc
  /-- `pthread_mutex_lock(&event->Mutex)` -/
  | lock
  /-- `event->State = false;` and `pthread_mutex_unlock(&event->Mutex)` -/
  | store
deriving DecidableEq, Repr

/-- `ResetEvent`. -/
def resetEvent (e : ℕ) : ResetPc → Option (Effect ι ResetPc Unit)
  | .lock => (m.lock (.event e) t).map fun m' => (m', .next .store, none)
  | .store =>
      some ((m.setEvent e PEvent.reset).unlock (.event e), .ret (),
        some (.reset e (m.events e).state))

end Steps

end AtomicMessageQueue.Pevents
