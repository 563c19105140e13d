import AtomicMessageQueue.Lib.Transition
import AtomicMessageQueue.Pevents.Calls

/-! # Threads sharing events

Any number of threads call `SetEvent`, `ResetEvent`, `WaitForEvent` and `WaitForMultipleEvents` on events
that `CreateEvent` has set up, one step at a time. `Access` lists what one step can do, one constructor
for each branch of the code.
-/

namespace AtomicMessageQueue.Pevents

open Function Transition

/-! ## The system -/

/-- The calls a thread can make. -/
inductive Call
  | waitForEvent (e milliseconds : ℕ)
  | waitForMultipleEvents (c : WaitCall)
  | setEvent (e : ℕ)
  | resetEvent (e : ℕ)
deriving DecidableEq, Repr

/-- Program points of a thread inside the functions. -/
inductive Pc
  | wait (e milliseconds : ℕ) (pc : WaitPc)
  | multiple (c : WaitCall) (pc : MultiplePc)
  | set (e : ℕ) (pc : SetPc)
  | reset (e : ℕ) (pc : ResetPc)
deriving DecidableEq, Repr

/-- The first program point of a call. -/
def Call.enter : Call → Pc
  | .waitForEvent e milliseconds => .wait e milliseconds .lock
  | .waitForMultipleEvents c => .multiple c .create
  | .setEvent e => .set e .lock
  | .resetEvent e => .reset e .lock

/-- The events a call names are among the `n` there are. -/
def Call.legal (n : ℕ) : Call → Bool
  | .waitForEvent e _ | .setEvent e | .resetEvent e => e < n
  | .waitForMultipleEvents c => c.events + c.count.toNat ≤ n

/-- A step of a function seen from its thread: its program point is wrapped, its result dropped. -/
def Effect.within {ι π ρ : Type*} (wrap : π → Pc) :
    Effect ι π ρ → Memory ι × Option Pc × Option Mark
  | (m, .next pc, mk) => (m, some (wrap pc), mk)
  | (m, .ret _, mk) => (m, none, mk)

/-- The memory, the place of each thread, none outside the functions, and the history, newest first. -/
structure State (ι : Type*) where
  mem : Memory ι
  threads : ι → Option Pc
  hist : List Mark

/-- The parameters of a system: how many events there are, how each was created, and which calls each
thread may make. -/
structure Config (ι : Type*) where
  eventCount : ℕ
  autoReset : ℕ → Bool
  calls : ι → Call → Bool

/-- What a scheduled thread does: enter a call, or perform its next step. -/
inductive Choice
  | call (c : Call)
  | run (ch : Chance)
deriving DecidableEq, Repr

section Step

variable {ι : Type*} [DecidableEq ι]

/-- One step of a thread inside the functions. No result means that it is blocked. -/
def codeStep (t : ι) (ch : Chance) (m : Memory ι) : Pc → Option (Memory ι × Option Pc × Option Mark)
  | .wait e milliseconds pc =>
      (waitForEvent t ch m e milliseconds pc).map (Effect.within (.wait e milliseconds))
  | .multiple c pc => (waitForMultipleEvents t ch m c pc).map (Effect.within (.multiple c))
  | .set e pc => (setEvent t ch m e pc).map (Effect.within (.set e))
  | .reset e pc => (resetEvent t m e pc).map (Effect.within (.reset e))

/-- One step of the system: the scheduled thread and what it does. -/
def step (cfg : Config ι) (s : State ι) : ι × Choice → Option (State ι)
  | (t, .call c) =>
      if (s.threads t).isNone ∧ cfg.calls t c ∧ c.legal cfg.eventCount then
        some { s with threads := update s.threads t (some c.enter) }
      else none
  | (t, .run ch) =>
      match s.threads t with
      | none => none
      | some pc =>
          (codeStep t ch s.mem pc).map fun (m', pc', mk) =>
            { mem := m', threads := update s.threads t pc', hist := mk.toList ++ s.hist }

/-- `CreateEvent` with `initialState` false; with `initialState` true it goes on to call `SetEvent`. -/
def createEvent (autoReset : Bool) : PEvent where
  autoReset := autoReset
  state := false
  registeredWaits := []
  counted := 0

/-- A block nobody has made. -/
def noWfmo : Wfmo where
  refCount := 0
  status := 0
  waitAll := false
  stillWaiting := false
  present := false

/-- The initial state: the events just created, every thread outside the functions. -/
def start (cfg : Config ι) : State ι where
  mem :=
    { events := fun e => createEvent (cfg.autoReset e), waiters := fun _ => noWfmo,
      mutex := fun _ => none, cVariable := fun _ => [], allocated := 0,
      destroyed := fun _ => false }
  threads := fun _ => none
  hist := []

/-- The states reached by runs. -/
abbrev Reached (cfg : Config ι) : State ι → Prop := Reach (step cfg) anyStep (start cfg)

/-- The next `n` steps of thread `t`, its condition waits ended by signals. -/
def runs (t : ι) (n : ℕ) : List (ι × Choice) :=
  List.replicate n (t, .run { waitEnd := .wake, woken := 0 })

/-- Thread `t` enters `c` and performs its first `n` steps. -/
def calling (t : ι) (c : Call) (n : ℕ) : List (ι × Choice) := (t, .call c) :: runs t n

/-- A condition wait ends without a signal. -/
def spurious : Chance where
  waitEnd := .spurious
  woken := 0

/-- A system of `n` auto-reset events in which any thread may make any call. -/
def anyCalls (n : ℕ) : Config ι where
  eventCount := n
  autoReset := fun _ => true
  calls := fun _ _ => true

/-! ## What one step can do -/

/-- One step of thread `t`: the memory and program point before; the memory, place and mark after. -/
inductive Access (t : ι) (ch : Chance) (m : Memory ι) :
    Pc → Memory ι → Option Pc → Option Mark → Prop
  -- `WaitForEvent`
  | waitBusy (e ms : ℕ) (hms : ms = 0) (h : m.mutex (.event e) ≠ none) :
      Access t ch m (.wait e ms .lock) m none none
  | waitLock (e ms : ℕ) (h : m.mutex (.event e) = none) :
      Access t ch m (.wait e ms .lock) (m.locked (.event e) t) (some (.wait e ms .check)) none
  | waitObtain (e ms : ℕ) (pc : WaitPc) (hpc : pc = .check ∨ pc = .test .ok)
      (h : (m.events e).state = true) :
      Access t ch m (.wait e ms pc) ((m.setEvent e PEvent.obtain).unlock (.event e)) none
        (some (.obtain e))
  | waitRefuse (e ms : ℕ) (hms : ms = 0) (h : (m.events e).state = false) :
      Access t ch m (.wait e ms .check) (m.unlock (.event e)) none none
  | waitSleep (e ms : ℕ) (pc : WaitPc) (hpc : pc = .check ∨ pc = .test .ok)
      (h : (m.events e).state = false) :
      Access t ch m (.wait e ms pc) (m.condWait (.event e) t) (some (.wait e ms .asleep)) none
  | waitWake (e ms : ℕ) (r : WaitResult)
      (h : m.wakeUp (.event e) t (ms ≠ infinite) ch.waitEnd = some r) :
      Access t ch m (.wait e ms .asleep) (m.awake (.event e) t) (some (.wait e ms (.relock r))) none
  | waitRelock (e ms : ℕ) (r : WaitResult) (h : m.mutex (.event e) = none) :
      Access t ch m (.wait e ms (.relock r)) (m.locked (.event e) t)
        (some (.wait e ms (.test r))) none
  | waitGiveUp (e ms : ℕ) (r : WaitResult) (h : r ≠ .ok) :
      Access t ch m (.wait e ms (.test r)) (m.unlock (.event e)) none none
  -- `WaitForMultipleEvents`
  | create (c : WaitCall) :
      Access t ch m (.multiple c .create) (m.new c.wfmo)
        (some (.multiple c (.lockOwn m.allocated))) none
  | lockOwn (c : WaitCall) (w : ℕ) (h : m.mutex (.waiter w) = none) :
      Access t ch m (.multiple c (.lockOwn w)) (m.locked (.waiter w) t)
        (some (.multiple c (.lockEvent w 0))) none
  | lockEvent (c : WaitCall) (w i : ℕ) (hi : i < c.count)
      (h : m.mutex (.event (c.events + i)) = none) :
      Access t ch m (.multiple c (.lockEvent w i)) (m.locked (.event (c.events + i)) t)
        (some (.multiple c (.sweep w i 0))) none
  | loopEnd (c : WaitCall) (w i : ℕ) (hi : c.count ≤ i) (pc' : MultiplePc)
      (hpc' : pc' = if c.milliseconds = 0 then .leave w .timedOut else .testDone w) :
      Access t ch m (.multiple c (.lockEvent w i)) m (some (.multiple c pc')) none
  | swept (c : WaitCall) (w i k : ℕ)
      (h : (m.events (c.events + i)).registeredWaits[k]? = none) :
      Access t ch m (.multiple c (.sweep w i k)) m (some (.multiple c (.check w i))) none
  | sweepBusy (c : WaitCall) (w i k : ℕ) (info : WfmoInfo)
      (hk : (m.events (c.events + i)).registeredWaits[k]? = some info)
      (h : m.mutex (.waiter info.waiter) ≠ none) :
      Access t ch m (.multiple c (.sweep w i k)) m (some (.multiple c (.sweep w i (k + 1)))) none
  | sweepLock (c : WaitCall) (w i k : ℕ) (info : WfmoInfo)
      (hk : (m.events (c.events + i)).registeredWaits[k]? = some info)
      (h : m.mutex (.waiter info.waiter) = none) :
      Access t ch m (.multiple c (.sweep w i k)) (m.locked (.waiter info.waiter) t)
        (some (.multiple c (.expired w i k info))) none
  | sweepKeep (c : WaitCall) (w i k : ℕ) (info : WfmoInfo)
      (h : (m.waiters info.waiter).stillWaiting = true) :
      Access t ch m (.multiple c (.expired w i k info)) (m.unlock (.waiter info.waiter))
        (some (.multiple c (.sweep w i (k + 1)))) none
  | sweepDrop (c : WaitCall) (w i k : ℕ) (info : WfmoInfo)
      (h : (m.waiters info.waiter).stillWaiting = false) (pc' : MultiplePc)
      (hpc' : pc' = if (m.waiters info.waiter).dropRef.refCount = 0 then
        .destroyExpired w i k info.waiter else .sweep w i k) :
      Access t ch m (.multiple c (.expired w i k info))
        (((m.setWaiter info.waiter Wfmo.dropRef).setEvent (c.events + i) (·.remove k)).unlock
          (.waiter info.waiter))
        (some (.multiple c pc')) none
  | destroyExpired (c : WaitCall) (w i k u : ℕ) :
      Access t ch m (.multiple c (.destroyExpired w i k u)) (m.destroy u)
        (some (.multiple c (.sweep w i k))) none
  | found (c : WaitCall) (w i : ℕ) (h : (m.events (c.events + i)).state = true) (pc' : MultiplePc)
      (hpc' : pc' = if c.waitAll then .lockEvent w (i + 1) else .leave w .ok) :
      Access t ch m (.multiple c (.check w i))
        (((m.setEvent (c.events + i) PEvent.obtain).setWaiter w (·.found c.waitAll i)).unlock
          (.event (c.events + i)))
        (some (.multiple c pc')) (some (.obtainFor (c.events + i) w i))
  | register (c : WaitCall) (w i : ℕ) (h : (m.events (c.events + i)).state = false) :
      Access t ch m (.multiple c (.check w i))
        (((m.setEvent (c.events + i) (·.register ⟨w, i⟩)).setWaiter w Wfmo.addRef).unlock
          (.event (c.events + i)))
        (some (.multiple c (.lockEvent w (i + 1)))) none
  | done (c : WaitCall) (w : ℕ) (h : c.done (m.waiters w).status = true) :
      Access t ch m (.multiple c (.testDone w)) m (some (.multiple c (.leave w .ok))) none
  | sleep (c : WaitCall) (w : ℕ) (h : c.done (m.waiters w).status = false) :
      Access t ch m (.multiple c (.testDone w)) (m.condWait (.waiter w) t)
        (some (.multiple c (.asleep w))) none
  | wake (c : WaitCall) (w : ℕ) (r : WaitResult)
      (h : m.wakeUp (.waiter w) t (c.milliseconds ≠ infinite) ch.waitEnd = some r) :
      Access t ch m (.multiple c (.asleep w)) (m.awake (.waiter w) t)
        (some (.multiple c (.relock w r))) none
  | relock (c : WaitCall) (w : ℕ) (r : WaitResult) (h : m.mutex (.waiter w) = none)
      (pc' : MultiplePc) (hpc' : pc' = if r = .ok then .testDone w else .leave w r) :
      Access t ch m (.multiple c (.relock w r)) (m.locked (.waiter w) t)
        (some (.multiple c pc')) none
  | leave (c : WaitCall) (w : ℕ) (r : WaitResult) (pc' : Option Pc)
      (hpc' : pc' = if (m.waiters w).leave.refCount = 0 then
        some (.multiple c (.destroyOwn w r (m.waiters w).status)) else none) :
      Access t ch m (.multiple c (.leave w r)) ((m.setWaiter w Wfmo.leave).unlock (.waiter w)) pc'
        (some (.leave w c r (m.waiters w).status))
  | destroyOwn (c : WaitCall) (w : ℕ) (r : WaitResult) (waitIndex : ℤ) :
      Access t ch m (.multiple c (.destroyOwn w r waitIndex)) (m.destroy w) none none
  -- `SetEvent`
  | setLock (e : ℕ) (h : m.mutex (.event e) = none) :
      Access t ch m (.set e .lock) (m.locked (.event e) t) (some (.set e .store)) none
  | store (e : ℕ) :
      Access t ch m (.set e .store) (m.setEvent e PEvent.raise) (some (.set e (.scan 0)))
        (some (.set e (m.events e).state))
  | scanLock (e i : ℕ) (info : WfmoInfo) (hi : (m.events e).registeredWaits[i]? = some info)
      (h : m.mutex (.waiter info.waiter) = none) :
      Access t ch m (.set e (.scan i)) (m.locked (.waiter info.waiter) t)
        (some (.set e (.serve i info))) none
  | scanAuto (e i : ℕ) (hi : (m.events e).registeredWaits[i]? = none)
      (ha : (m.events e).autoReset = true) (h : (m.events e).state = true) :
      Access t ch m (.set e (.scan i)) (m.unlock (.event e)) (some (.set e .signal)) none
  | scanStuck (e i : ℕ) (hi : (m.events e).registeredWaits[i]? = none)
      (ha : (m.events e).autoReset = true) (h : (m.events e).state = false) :
      Access t ch m (.set e (.scan i)) m none none
  | scanManual (e i : ℕ) (hi : (m.events e).registeredWaits[i]? = none)
      (ha : (m.events e).autoReset = false) :
      Access t ch m (.set e (.scan i)) ((m.setEvent e PEvent.clear).unlock (.event e))
        (some (.set e .broadcast)) none
  | serve (e i : ℕ) (info : WfmoInfo) (h : (m.waiters info.waiter).stillWaiting = true) :
      Access t ch m (.set e (.serve i info))
        (((m.setWaiter info.waiter fun b => b.dropRef.fire info.waitIndex).setEvent e
          PEvent.give).unlock (.waiter info.waiter))
        (some (.set e (.notify i info.waiter)))
        (some (.obtainFor e info.waiter info.waitIndex))
  | dropLast (e i : ℕ) (info : WfmoInfo) (h : (m.waiters info.waiter).stillWaiting = false)
      (hr : (m.waiters info.waiter).dropRef.refCount = 0) :
      Access t ch m (.set e (.serve i info))
        (((m.setWaiter info.waiter Wfmo.dropRef).setEvent e PEvent.countOff).unlock
          (.waiter info.waiter))
        (some (.set e (.destroy i info.waiter))) none
  | drop (e i : ℕ) (info : WfmoInfo) (h : (m.waiters info.waiter).stillWaiting = false)
      (hr : (m.waiters info.waiter).dropRef.refCount ≠ 0) :
      Access t ch m (.set e (.serve i info))
        (((m.setWaiter info.waiter Wfmo.dropRef).setEvent e fun ev => ev.countOff.pass).unlock
          (.waiter info.waiter))
        (some (.set e (.scan ((m.events e).nextIndex i)))) none
  | destroy (e i w : ℕ) :
      Access t ch m (.set e (.destroy i w)) ((m.destroy w).setEvent e PEvent.pass)
        (some (.set e (.scan ((m.events e).nextIndex i)))) none
  | notify (e i w : ℕ) (pc' : SetPc)
      (hpc' : pc' = if (m.events e).autoReset then .unlock else .scan (i + 1)) :
      Access t ch m (.set e (.notify i w))
        ((m.condSignal (.waiter w) ch.woken).setEvent e PEvent.pass) (some (.set e pc')) none
  | setUnlock (e : ℕ) : Access t ch m (.set e .unlock) (m.unlock (.event e)) none none
  | signal (e : ℕ) :
      Access t ch m (.set e .signal) (m.condSignal (.event e) ch.woken) none none
  | broadcast (e : ℕ) :
      Access t ch m (.set e .broadcast) (m.condBroadcast (.event e)) none none
  -- `ResetEvent`
  | resetLock (e : ℕ) (h : m.mutex (.event e) = none) :
      Access t ch m (.reset e .lock) (m.locked (.event e) t) (some (.reset e .store)) none
  | reset (e : ℕ) :
      Access t ch m (.reset e .store) ((m.setEvent e PEvent.reset).unlock (.event e)) none
        (some (.reset e (m.events e).state))

end Step

section Inversion

variable {ι : Type*} {t : ι} {ch : Chance} {m m' : Memory ι} {pc' : Option Pc} {mk : Option Mark}

theorem Memory.lock_eq_some {o : Object} (h : m.lock o t = some m') :
    m.mutex o = none ∧ m' = m.locked o t := by
  unfold Memory.lock at h
  split at h
  next hfree => exact ⟨Option.isNone_iff_eq_none.mp hfree, (Option.some.inj h).symm⟩
  next => cases h

theorem Memory.lock_eq_none {o : Object} (h : m.lock o t = none) : m.mutex o ≠ none := by
  unfold Memory.lock at h
  split at h
  next => cases h
  next hbusy => exact fun hfree => hbusy (Option.isNone_iff_eq_none.mpr hfree)

/-- A step that takes a mutex. -/
private theorem lock_inv {o : Object} {p : Pc}
    (h : ((m.lock o t).map fun m₁ => (m₁, some p, (none : Option Mark))) = some (m', pc', mk)) :
    m.mutex o = none ∧ m' = m.locked o t ∧ pc' = some p ∧ mk = none := by
  obtain ⟨m₁, hlock, heq⟩ := Option.map_eq_some_iff.mp h
  obtain ⟨hfree, rfl⟩ := Memory.lock_eq_some hlock
  cases heq
  exact ⟨hfree, rfl, rfl, rfl⟩

variable [DecidableEq ι]

private theorem waitForEvent_inv {e ms : ℕ} {pc : WaitPc}
    (h : codeStep t ch m (.wait e ms pc) = some (m', pc', mk)) :
    Access t ch m (.wait e ms pc) m' pc' mk := by
  cases pc with
  | lock =>
      simp only [codeStep, waitForEvent] at h
      split at h
      next hbusy =>
        cases h
        exact .waitBusy e ms hbusy.1 (Option.isSome_iff_ne_none.mp hbusy.2)
      next =>
        rw [Option.map_map] at h
        obtain ⟨hfree, rfl, rfl, rfl⟩ := lock_inv h
        exact .waitLock e ms hfree
  | check =>
      simp only [codeStep, waitForEvent] at h
      split at h
      next hset =>
        cases h
        exact .waitObtain e ms .check (.inl rfl) hset
      next hunset =>
        split at h <;> cases h
        · exact .waitRefuse e ms ‹_› (Bool.eq_false_iff.mpr hunset)
        · exact .waitSleep e ms .check (.inl rfl) (Bool.eq_false_iff.mpr hunset)
  | asleep =>
      simp only [codeStep, waitForEvent, Option.map_map] at h
      obtain ⟨r, hwake, heq⟩ := Option.map_eq_some_iff.mp h
      cases heq
      exact .waitWake e ms r hwake
  | relock r =>
      simp only [codeStep, waitForEvent, Option.map_map] at h
      obtain ⟨hfree, rfl, rfl, rfl⟩ := lock_inv h
      exact .waitRelock e ms r hfree
  | test r =>
      simp only [codeStep, waitForEvent] at h
      split at h
      next hr =>
        subst hr
        split at h <;> cases h
        · exact .waitObtain e ms _ (.inr rfl) ‹_›
        · exact .waitSleep e ms _ (.inr rfl) (Bool.eq_false_iff.mpr ‹_›)
      next hr =>
        cases h
        exact .waitGiveUp e ms r hr

private theorem waitForMultipleEvents_inv {c : WaitCall} {pc : MultiplePc}
    (h : codeStep t ch m (.multiple c pc) = some (m', pc', mk)) :
    Access t ch m (.multiple c pc) m' pc' mk := by
  cases pc with
  | create =>
      cases h
      exact .create c
  | lockOwn w =>
      simp only [codeStep, waitForMultipleEvents, Option.map_map] at h
      obtain ⟨hfree, rfl, rfl, rfl⟩ := lock_inv h
      exact .lockOwn c w hfree
  | lockEvent w i =>
      simp only [codeStep, waitForMultipleEvents] at h
      split at h
      next hi =>
        rw [Option.map_map] at h
        obtain ⟨hfree, rfl, rfl, rfl⟩ := lock_inv h
        exact .lockEvent c w i hi hfree
      next hi =>
        cases h
        exact .loopEnd c w i (Int.not_lt.mp hi) _ rfl
  | sweep w i k =>
      simp only [codeStep, waitForMultipleEvents] at h
      split at h
      next hk =>
        cases h
        exact .swept c w i k hk
      next info hk =>
        split at h <;> cases h
        · exact .sweepBusy c w i k info hk (Memory.lock_eq_none ‹_›)
        · obtain ⟨hfree, rfl⟩ := Memory.lock_eq_some ‹_›
          exact .sweepLock c w i k info hk hfree
  | expired w i k info =>
      simp only [codeStep, waitForMultipleEvents] at h
      split at h <;> cases h
      · exact .sweepKeep c w i k info ‹_›
      · exact .sweepDrop c w i k info (Bool.eq_false_iff.mpr ‹_›) _ rfl
  | destroyExpired w i k u =>
      cases h
      exact .destroyExpired c w i k u
  | check w i =>
      simp only [codeStep, waitForMultipleEvents] at h
      split at h <;> cases h
      · exact .found c w i ‹_› _ rfl
      · exact .register c w i (Bool.eq_false_iff.mpr ‹_›)
  | testDone w =>
      simp only [codeStep, waitForMultipleEvents] at h
      split at h <;> cases h
      · exact .done c w ‹_›
      · exact .sleep c w (Bool.eq_false_iff.mpr ‹_›)
  | asleep w =>
      simp only [codeStep, waitForMultipleEvents, Option.map_map] at h
      obtain ⟨r, hwake, heq⟩ := Option.map_eq_some_iff.mp h
      cases heq
      exact .wake c w r hwake
  | relock w r =>
      simp only [codeStep, waitForMultipleEvents, Option.map_map] at h
      obtain ⟨hfree, rfl, rfl, rfl⟩ := lock_inv h
      exact .relock c w r hfree _ rfl
  | leave w r =>
      simp only [codeStep, waitForMultipleEvents, Option.map_some, Option.some.injEq] at h
      split at h
      next hzero =>
        cases h
        exact .leave c w r _ (if_pos hzero).symm
      next hpos =>
        cases h
        exact .leave c w r _ (if_neg hpos).symm
  | destroyOwn w r waitIndex =>
      cases h
      exact .destroyOwn c w r waitIndex

private theorem setEvent_inv {e : ℕ} {pc : SetPc}
    (h : codeStep t ch m (.set e pc) = some (m', pc', mk)) :
    Access t ch m (.set e pc) m' pc' mk := by
  cases pc with
  | lock =>
      simp only [codeStep, setEvent, Option.map_map] at h
      obtain ⟨hfree, rfl, rfl, rfl⟩ := lock_inv h
      exact .setLock e hfree
  | store =>
      cases h
      exact .store e
  | scan i =>
      simp only [codeStep, setEvent] at h
      split at h
      next info hi =>
        rw [Option.map_map] at h
        obtain ⟨hfree, rfl, rfl, rfl⟩ := lock_inv h
        exact .scanLock e i info hi hfree
      next hi =>
        split at h
        next ha =>
          split at h <;> cases h
          · exact .scanAuto e i hi ha ‹_›
          · exact .scanStuck e i hi ha (Bool.eq_false_iff.mpr ‹_›)
        next ha =>
          cases h
          exact .scanManual e i hi (Bool.eq_false_iff.mpr ha)
  | serve i info =>
      simp only [codeStep, setEvent] at h
      split at h
      next hstill =>
        cases h
        exact .serve e i info hstill
      next hstill =>
        split at h <;> cases h
        · exact .dropLast e i info (Bool.eq_false_iff.mpr hstill) ‹_›
        · exact .drop e i info (Bool.eq_false_iff.mpr hstill) ‹_›
  | destroy i w =>
      cases h
      exact .destroy e i w
  | notify i w =>
      cases h
      exact .notify e i w _ rfl
  | unlock =>
      cases h
      exact .setUnlock e
  | signal =>
      cases h
      exact .signal e
  | broadcast =>
      cases h
      exact .broadcast e

private theorem resetEvent_inv {e : ℕ} {pc : ResetPc}
    (h : codeStep t ch m (.reset e pc) = some (m', pc', mk)) :
    Access t ch m (.reset e pc) m' pc' mk := by
  cases pc with
  | lock =>
      simp only [codeStep, resetEvent, Option.map_map] at h
      obtain ⟨hfree, rfl, rfl, rfl⟩ := lock_inv h
      exact .resetLock e hfree
  | store =>
      cases h
      exact .reset e

/-- Every step inside the functions is listed in `Access`. -/
theorem codeStep_inv {pc : Pc} (h : codeStep t ch m pc = some (m', pc', mk)) :
    Access t ch m pc m' pc' mk := by
  cases pc with
  | wait e ms pc => exact waitForEvent_inv h
  | multiple c pc => exact waitForMultipleEvents_inv h
  | set e pc => exact setEvent_inv h
  | reset e pc => exact resetEvent_inv h

/-- **Inversion of a step.** A thread outside the functions enters a call it may make, or a thread inside
performs the step at its program point. -/
theorem step_cases {cfg : Config ι} {s s' : State ι} {a : ι × Choice} (h : step cfg s a = some s') :
    (∃ c, a.2 = .call c ∧ s.threads a.1 = none ∧ cfg.calls a.1 c = true ∧
      c.legal cfg.eventCount = true ∧
      s' = { s with threads := update s.threads a.1 (some c.enter) }) ∨
    (∃ ch pc m' pc' mk, a.2 = .run ch ∧ s.threads a.1 = some pc ∧
      Access a.1 ch s.mem pc m' pc' mk ∧
      s' = { mem := m', threads := update s.threads a.1 pc', hist := mk.toList ++ s.hist }) := by
  obtain ⟨t, ch⟩ := a
  cases ch with
  | call c =>
      simp only [step] at h
      split at h
      next hc =>
        exact .inl ⟨c, rfl, Option.isNone_iff_eq_none.mp hc.1, hc.2.1, hc.2.2,
          (Option.some.inj h).symm⟩
      next => cases h
  | run ch =>
      simp only [step] at h
      split at h
      next => cases h
      next pc hpc =>
        obtain ⟨⟨m', pc', mk⟩, hcode, rfl⟩ := Option.map_eq_some_iff.mp h
        exact .inr ⟨ch, pc, m', pc', mk, rfl, hpc, codeStep_inv hcode, rfl⟩

end Inversion

end AtomicMessageQueue.Pevents
