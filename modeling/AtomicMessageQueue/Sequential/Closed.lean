import AtomicMessageQueue.Events.Threads
import AtomicMessageQueue.Sequential.ListQueue

/-! # Calls on a closed queue

Reference: `events2.h`, `DestroyEvent`; `shmIPC.h`, `ShmQueue::close` as far as it stores into the shared
memory. Closing sets `kill_` in both events and leaves the ring alone, so that another process can go on
calling `write` and `read`. A call on the closed queue returns what it would return on the open one, and
does the same to the ring, but where the call on the open queue sleeps until its deadline this one gives
up at once.
-/

namespace AtomicMessageQueue

open Function Simulation

/-- `DestroyEvent`, run to its end. -/
def EventT.destroy (e : EventT) : EventT := (destroyEvent (destroyEvent e .kill).1 .broadcast).1

/-- What `ShmQueue::close` stores into the shared memory. -/
def MemBuff.close (m : MemBuff) : MemBuff :=
  { m with signal := m.signal.destroy, avail := m.avail.destroy }

/-! ## A wait that is killed and one that is not -/

/-- Between calls, an event and the same event killed. How often either has been broadcast does not
matter. -/
structure EventT.Killed (e e' : EventT) : Prop where
  state : e'.state = e.state
  kill : e.kill = false
  kill' : e'.kill = true
  mtx : e.mtx = false
  mtx' : e'.mtx = false

theorem EventT.Killed.setState {e e' : EventT} (h : e.Killed e') : e.setState.Killed e'.setState := by
  unfold EventT.setState
  rw [h.state]
  split
  · exact ⟨rfl, h.kill, h.kill', h.mtx, h.mtx'⟩
  · exact h

theorem EventT.Killed.clearState {e e' : EventT} (h : e.Killed e') :
    e.clearState.Killed e'.clearState := by
  unfold EventT.clearState
  rw [h.state]
  split
  · exact ⟨rfl, h.kill, h.kill', h.mtx, h.mtx'⟩
  · exact h

theorem EventT.Killed.broadcast {e e' : EventT} (h : e.Killed e') : e.broadcast.Killed e'.broadcast :=
  ⟨h.state, h.kill, h.kill', h.mtx, h.mtx'⟩

theorem EventT.Quiet.destroy {e : EventT} (h : e.Quiet) : e.Killed e.destroy :=
  ⟨rfl, h.kill, rfl, h.mtx, h.mtx⟩

/-- The event with its mutex taken. -/
def EventT.locked (e : EventT) : EventT := { e with mtx := true }

theorem EventT.unlock_locked {e : EventT} (h : e.mtx = false) : { e.locked with mtx := false } = e := by
  cases e
  subst h
  rfl

/-- Where a wait on the killed event stands when one on the event itself stands at a program point. While
the latter sleeps and wakes up, the former has still to give the mutex back. -/
inductive EventT.Behind : EventT → WaitPc → EventT → WaitPc → Prop
  | test {e e' : EventT} (h : e.Killed e') : Behind e .test e' .test
  | clearSet {e e' : EventT} (h : e.Killed e') : Behind e .clearSet e' .clearSet
  | lock {e e' : EventT} (h : e.Killed e') (h0 : e.state = 0) : Behind e .lock e' .lock
  | testState {e e' : EventT} (h : e.Killed e') (h0 : e.state = 0) :
      Behind e.locked (.testState .ok) e'.locked (.testState .ok)
  | testKill {e e' : EventT} (h : e.Killed e') (h0 : e.state = 0) :
      Behind e.locked .testKill e'.locked .testKill
  | enter {e e' : EventT} (h : e.Killed e') :
      Behind e.locked .enter e'.locked (.unlock .ok)
  | asleep {e e' : EventT} (h : e.Killed e') (seen : ℕ) :
      Behind e (.asleep seen) e'.locked (.unlock .ok)
  | relock {e e' : EventT} (h : e.Killed e') :
      Behind e (.relock .timedOut) e'.locked (.unlock .ok)
  | testAgain {e e' : EventT} (h : e.Killed e') :
      Behind e.locked (.testState .timedOut) e'.locked (.unlock .ok)
  | unlock {e e' : EventT} (h : e.Killed e') :
      Behind e.locked (.unlock .timedOut) e'.locked (.unlock .ok)
  | clear {e e' : EventT} (h : e.Killed e') : Behind e (.clear .timedOut) e' (.clear .ok)
  | testExit {e e' : EventT} (h : e.Killed e') : Behind e (.testExit .timedOut) e' (.testExit .ok)

/-- **Step lemma of a killed wait.** It stands still, goes on, or returns when the other does; then both
succeed or neither does. -/
theorem EventT.Behind.step {e e' e₁ : EventT} {pc pc' : WaitPc} {o : Out WaitPc ℤ}
    (h : e.Behind pc e' pc') (access : waitForEvent .expire e pc = some (e₁, o)) :
    (∃ pc₁, o = .next pc₁ ∧ e₁.Behind pc₁ e' pc') ∨
    (∃ pc₁ e₁' pc₁', o = .next pc₁ ∧ waitForEvent .expire e' pc' = some (e₁', .next pc₁') ∧
      e₁.Behind pc₁ e₁' pc₁') ∨
    (∃ r e₁' r', o = .ret r ∧ waitForEvent .expire e' pc' = some (e₁', .ret r') ∧ (0 < r ↔ 0 < r') ∧
      e₁.Killed e₁') := by
  cases h with
  | test h =>
      obtain ⟨rfl, rfl⟩ := Prod.mk.inj (Option.some.inj access)
      refine .inr (.inl ⟨_, e', _, rfl, rfl, ?_⟩)
      rw [h.state]
      split
      next h0 => exact .lock h h0
      next => exact .clearSet h
  | clearSet h =>
      obtain ⟨rfl, rfl⟩ := Prod.mk.inj (Option.some.inj access)
      exact .inr (.inr ⟨1, e'.clearState, 1, rfl, rfl, .rfl, h.clearState⟩)
  | lock h h0 =>
      simp only [waitForEvent, h.mtx, Bool.false_eq_true, if_false] at access
      obtain ⟨rfl, rfl⟩ := Prod.mk.inj (Option.some.inj access)
      refine .inr (.inl ⟨_, e'.locked, .testState .ok, rfl, ?_, .testState h h0⟩)
      simp only [waitForEvent, h.mtx', Bool.false_eq_true, if_false]
      rfl
  | @testState e e' h h0 =>
      have hzero : e.locked.state = 0 := h0
      have hzero' : e'.locked.state = 0 := h.state.trans h0
      simp only [waitForEvent, hzero, true_and, if_true] at access
      obtain ⟨rfl, rfl⟩ := Prod.mk.inj (Option.some.inj access)
      refine .inr (.inl ⟨_, e'.locked, .testKill, rfl, ?_, .testKill h h0⟩)
      simp only [waitForEvent, hzero', true_and, if_true]
  | @testKill e e' h h0 =>
      have hkill : e.locked.kill = false := h.kill
      have hkill' : e'.locked.kill = true := h.kill'
      simp only [waitForEvent, hkill, Bool.false_eq_true, if_false] at access
      obtain ⟨rfl, rfl⟩ := Prod.mk.inj (Option.some.inj access)
      refine .inr (.inl ⟨_, e'.locked, .unlock .ok, rfl, ?_, .enter h⟩)
      simp only [waitForEvent, hkill', if_true]
  | @enter e e' h =>
      obtain ⟨rfl, rfl⟩ := Prod.mk.inj (Option.some.inj access)
      refine .inl ⟨_, rfl, ?_⟩
      rw [EventT.unlock_locked h.mtx]
      exact .asleep h _
  | @asleep e e' h seen =>
      simp only [waitForEvent, reduceCtorEq, false_and, if_false] at access
      obtain ⟨rfl, rfl⟩ := Prod.mk.inj (Option.some.inj access)
      exact .inl ⟨_, rfl, .relock h⟩
  | @relock e e' h =>
      simp only [waitForEvent, h.mtx, Bool.false_eq_true, if_false] at access
      obtain ⟨rfl, rfl⟩ := Prod.mk.inj (Option.some.inj access)
      exact .inl ⟨_, rfl, .testAgain h⟩
  | @testAgain e e' h =>
      simp only [waitForEvent, reduceCtorEq, and_false, if_false] at access
      obtain ⟨rfl, rfl⟩ := Prod.mk.inj (Option.some.inj access)
      exact .inl ⟨_, rfl, .unlock h⟩
  | @unlock e e' h =>
      obtain ⟨rfl, rfl⟩ := Prod.mk.inj (Option.some.inj access)
      refine .inr (.inl ⟨_, e', .clear .ok, rfl, ?_, ?_⟩)
      · simp only [waitForEvent, EventT.unlock_locked h.mtx']
      · rw [EventT.unlock_locked h.mtx]
        exact .clear h
  | clear h =>
      obtain ⟨rfl, rfl⟩ := Prod.mk.inj (Option.some.inj access)
      exact .inr (.inl ⟨_, e'.clearState, _, rfl, rfl, .testExit h.clearState⟩)
  | testExit h =>
      simp only [waitForEvent, h.kill, Bool.false_eq_true, if_false] at access
      obtain ⟨rfl, rfl⟩ := Prod.mk.inj (Option.some.inj access)
      refine .inr (.inr ⟨0, e', -1, rfl, ?_, by decide, h⟩)
      simp only [waitForEvent, h.kill', if_true]

/-! ## A call on the closed queue -/

/-- The program points inside `WaitForEvent`. -/
def Pc.waits : Pc → Bool
  | .getBlockWrite _ (.wait _) => true
  | .getBlockRead _ (.wait _) => true
  | _ => false

/-- The buffer with other events. -/
def MemBuff.withEvents (m : MemBuff) (signal avail : EventT) : MemBuff :=
  { m with signal := signal, avail := avail }

variable {blockSize : ℕ} {m m' m₁ : MemBuff} {pc : Pc} {o o' o₁ : Out Pc Ret} {mk : Option Mark}
  {e f : EventT}

/-- Outside the waits the access on a closed queue is the same. -/
theorem CodeStep.closed (h : CodeStep blockSize waitForEvent .expire m pc m₁ o mk)
    (hpc : pc.waits = false) (hs : m.signal.Killed e) (ha : m.avail.Killed f) :
    ∃ e₁ f₁, CodeStep blockSize waitForEvent .expire (m.withEvents e f) pc (m₁.withEvents e₁ f₁) o mk ∧
      m₁.signal.Killed e₁ ∧ m₁.avail.Killed f₁ := by
  cases h with
  | waitAvail => cases hpc
  | retryWrite => cases hpc
  | timeoutWrite => cases hpc
  | waitSignal => cases hpc
  | retryRead => cases hpc
  | timeoutRead => cases hpc
  | setSignal k => exact ⟨e.setState, f, .setSignal k, hs.setState, ha⟩
  | broadcastSignal k => exact ⟨e.broadcast, f, .broadcastSignal k, hs.broadcast, ha⟩
  | setAvail k => exact ⟨e, f.setState, .setAvail k, hs, ha.setState⟩
  | broadcastAvail k => exact ⟨e, f.broadcast, .broadcastAvail k, hs, ha.broadcast⟩
  | _ => exact ⟨e, f, by constructor <;> assumption, hs, ha⟩

/-- The thread is outside `WaitForEvent`. -/
def Out.outside : Out Pc Ret → Bool
  | .next pc => !pc.waits
  | .ret _ => true

theorem WriteCaller.resume_outside (k : WriteCaller) (b : Option ℕ) :
    (k.resume blockSize b).outside = true := by
  cases k <;> cases b <;> rfl

theorem ReadCaller.resume_outside (k : ReadCaller) (b : Option ℕ) : (k.resume b).outside = true := by
  cases k <;> cases b <;> rfl

/-- A wait begins at its first test. -/
theorem CodeStep.outside_or_test (h : CodeStep blockSize waitForEvent .expire m pc m₁ o mk)
    (hpc : pc.waits = false) :
    o.outside = true ∨ (∃ k, o = .next (.getBlockWrite k (.wait .test))) ∨
      ∃ k, o = .next (.getBlockRead k (.wait .test)) := by
  cases h with
  | full k => exact .inr (.inl ⟨k, rfl⟩)
  | emptyWait k => exact .inr (.inr ⟨k, rfl⟩)
  | waitAvail => cases hpc
  | waitSignal => cases hpc
  | claim k => exact .inl (k.resume_outside _)
  | timeoutWrite k => exact .inl (k.resume_outside _)
  | leavePost k => cases k <;> exact .inl rfl
  | emptyReturn k => exact .inl (k.resume_outside _)
  | timeoutRead k => exact .inl (k.resume_outside _)
  | take k => exact .inl (k.resume_outside _)
  | leaveReturn k => cases k <;> exact .inl rfl
  | _ => exact .inl rfl

/-- A thread on the closed queue follows one on the open queue. -/
inductive Follows : MemBuff → Out Pc Ret → MemBuff → Out Pc Ret → Prop
  | outside {m : MemBuff} {o : Out Pc Ret} {e f : EventT} (ho : o.outside = true)
      (hs : m.signal.Killed e) (ha : m.avail.Killed f) : Follows m o (m.withEvents e f) o
  | avail {m : MemBuff} {k : WriteCaller} {pc pc' : WaitPc} {e f : EventT}
      (hs : m.signal.Killed e) (ha : m.avail.Behind pc f pc') :
      Follows m (.next (.getBlockWrite k (.wait pc))) (m.withEvents e f)
        (.next (.getBlockWrite k (.wait pc')))
  | signal {m : MemBuff} {k : ReadCaller} {pc pc' : WaitPc} {e f : EventT}
      (hs : m.signal.Behind pc e pc') (ha : m.avail.Killed f) :
      Follows m (.next (.getBlockRead k (.wait pc))) (m.withEvents e f)
        (.next (.getBlockRead k (.wait pc')))

/-- **Step lemma of a closed queue.** -/
theorem Follows.step (h : Follows m (.next pc) m' o')
    (hcode : CodeStep blockSize waitForEvent .expire m pc m₁ o mk) :
    ∃ m₁' o₁', Runs blockSize m' o' m₁' o₁' ∧ Follows m₁ o m₁' o₁' := by
  cases h with
  | outside ho hs ha =>
      have hpc : pc.waits = false := by simpa [Out.outside] using ho
      obtain ⟨e₁, f₁, hcode', hs', ha'⟩ := hcode.closed hpc hs ha
      refine ⟨_, o, .step hcode' (.refl _ _), ?_⟩
      rcases hcode.outside_or_test hpc with hout | ⟨k, rfl⟩ | ⟨k, rfl⟩
      · exact .outside hout hs' ha'
      · exact .avail hs' (.test ha')
      · exact .signal (.test hs') ha'
  | @avail k pc pc' e f hs ha =>
      cases hcode with
      | waitAvail k pc pc₁ a access =>
          rcases ha.step access with ⟨_, hnext, hbehind⟩ | ⟨_, f₁, pc₁', hnext, access', hbehind⟩ |
            ⟨_, _, _, hret, -⟩
          · cases hnext
            exact ⟨_, _, .refl _ _, .avail hs hbehind⟩
          · cases hnext
            exact ⟨_, _, .step (.waitAvail k pc' pc₁' f₁ access') (.refl _ _), .avail hs hbehind⟩
          · cases hret
      | retryWrite k pc a r hr access =>
          rcases ha.step access with ⟨_, hnext, -⟩ | ⟨_, _, _, hnext, -⟩ |
            ⟨_, f₁, r', hret, access', hiff, hkilled⟩
          · cases hnext
          · cases hnext
          · cases hret
            exact ⟨_, _, .step (.retryWrite k pc' f₁ r' (hiff.mp hr) access') (.refl _ _),
              .outside rfl hs hkilled⟩
      | timeoutWrite k pc a r hr access =>
          rcases ha.step access with ⟨_, hnext, -⟩ | ⟨_, _, _, hnext, -⟩ |
            ⟨_, f₁, r', hret, access', hiff, hkilled⟩
          · cases hnext
          · cases hnext
          · cases hret
            exact ⟨_, _, .step (.timeoutWrite k pc' f₁ r' (fun h => hr (hiff.mpr h)) access') (.refl _ _),
              .outside (k.resume_outside _) hs hkilled⟩
  | @signal k pc pc' e f hs ha =>
      cases hcode with
      | waitSignal k pc pc₁ a access =>
          rcases hs.step access with ⟨_, hnext, hbehind⟩ | ⟨_, e₁, pc₁', hnext, access', hbehind⟩ |
            ⟨_, _, _, hret, -⟩
          · cases hnext
            exact ⟨_, _, .refl _ _, .signal hbehind ha⟩
          · cases hnext
            exact ⟨_, _, .step (.waitSignal k pc' pc₁' e₁ access') (.refl _ _), .signal hbehind ha⟩
          · cases hret
      | retryRead k pc a r hr access =>
          rcases hs.step access with ⟨_, hnext, -⟩ | ⟨_, _, _, hnext, -⟩ |
            ⟨_, e₁, r', hret, access', hiff, hkilled⟩
          · cases hnext
          · cases hnext
          · cases hret
            exact ⟨_, _, .step (.retryRead k pc' e₁ r' (hiff.mp hr) access') (.refl _ _),
              .outside rfl hkilled ha⟩
      | timeoutRead k pc a r hr access =>
          rcases hs.step access with ⟨_, hnext, -⟩ | ⟨_, _, _, hnext, -⟩ |
            ⟨_, e₁, r', hret, access', hiff, hkilled⟩
          · cases hnext
          · cases hnext
          · cases hret
            exact ⟨_, _, .step (.timeoutRead k pc' e₁ r' (fun h => hr (hiff.mpr h)) access') (.refl _ _),
              .outside (k.resume_outside _) hkilled ha⟩

/-- A run of the followed thread is followed to its end. -/
theorem Follows.runs (h : Follows m o m' o') (hrun : Runs blockSize m o m₁ o₁) :
    ∃ m₁' o₁', Runs blockSize m' o' m₁' o₁' ∧ Follows m₁ o₁ m₁' o₁' := by
  induction hrun generalizing m' o' with
  | refl => exact ⟨m', o', .refl _ _, h⟩
  | head access rest ih =>
      obtain ⟨m₂, o₂, hrun, hfollows⟩ := h.step (codeStep_inv access)
      obtain ⟨m₁', o₁', hrest, hend⟩ := ih hfollows
      exact ⟨m₁', o₁', hrun.trans hrest, hend⟩

/-- **A call on the closed queue** returns what it returns on the open one, and does the same to it. -/
theorem Completes.closed {c : Call} {r : Ret} (h : Completes blockSize m c m₁ r)
    (hs : m.signal.Killed e) (ha : m.avail.Killed f) :
    ∃ e₁ f₁, Completes blockSize (m.withEvents e f) c (m₁.withEvents e₁ f₁) r ∧
      m₁.signal.Killed e₁ ∧ m₁.avail.Killed f₁ := by
  have henter : Out.outside (.next c.enter) = true := by cases c <;> rfl
  obtain ⟨m₁', o₁', hrun, hfollows⟩ := (Follows.outside henter hs ha).runs h
  cases hfollows with
  | outside _ hs₁ ha₁ => exact ⟨_, _, hrun, hs₁, ha₁⟩

/-! ## Closing a list queue -/

/-- What happens to a queue that may be closed, by this process or another. -/
inductive Use
  | call (x : Exchange)
  | close

/-- The steps of a list queue that does not notice being closed. -/
def ListUse (capacity blockSize : ℕ) (queue : List (List UInt8)) :
    Use → List (List UInt8) → Prop
  | .call x, queue' => ListStep capacity blockSize queue x queue'
  | .close, queue' => queue' = queue

/-- The same on the ring. -/
def RingUse (blockSize : ℕ) (m : MemBuff) : Use → MemBuff → Prop
  | .call x, m' => CallStep blockSize m x m'
  | .close, m' => m' = m.close

/-- The ring, open or closed, holds these messages. -/
def Serves (N : ℕ) (m : MemBuff) (queue : List (List UInt8)) : Prop :=
  Holds N m queue ∨
    ∃ m₀ e f, Holds N m₀ queue ∧ m₀.signal.Killed e ∧ m₀.avail.Killed f ∧ m = m₀.withEvents e f

variable {N : ℕ} {queue : List (List UInt8)}

theorem Serves.close (h : Serves N m queue) : Serves N m.close queue := by
  rcases h with h | ⟨m₀, e, f, h, hs, ha, rfl⟩
  · obtain ⟨taken, hfrom⟩ := h
    exact .inr ⟨m, _, _, ⟨taken, hfrom⟩, hfrom.shows.signal.destroy, hfrom.shows.avail.destroy, rfl⟩
  · exact .inr ⟨m₀, e.destroy, f.destroy, h, ⟨hs.state, hs.kill, rfl, hs.mtx, hs.mtx'⟩,
      ⟨ha.state, ha.kill, rfl, ha.mtx, ha.mtx'⟩, rfl⟩

/-- What the list queue does, the ring does. -/
theorem Serves.call (hN : 2 ≤ N) (h : Serves N m queue) {x : Exchange} {queue' : List (List UInt8)}
    (hlist : ListStep (N - 1) blockSize queue x queue') :
    ∃ m', CallStep blockSize m x m' ∧ Serves N m' queue' := by
  rcases h with h | ⟨m₀, e, f, h, hs, ha, rfl⟩
  · obtain ⟨m', hcall, hholds⟩ := calls_backward hN blockSize _ _ _ _ h hlist
    exact ⟨m', hcall, .inl hholds⟩
  · obtain ⟨m', hcall, hholds⟩ := calls_backward hN blockSize _ _ _ _ h hlist
    cases x <;> obtain ⟨e₁, f₁, hclosed, hs₁, ha₁⟩ := Completes.closed hcall hs ha <;>
      exact ⟨_, hclosed, .inr ⟨m', e₁, f₁, hholds, hs₁, ha₁, rfl⟩⟩

theorem uses_backward (hN : 2 ≤ N) (blockSize : ℕ) :
    Forward (ListUse (N - 1) blockSize) (RingUse blockSize) fun queue m => Serves N m queue := by
  rintro queue m (x | _) queue' h hlist
  · exact h.call hN hlist
  · obtain rfl : queue' = queue := hlist
    exact ⟨_, rfl, h.close⟩

theorem uses_forward (hN : 2 ≤ N) (blockSize : ℕ) :
    Forward (RingUse blockSize) (ListUse (N - 1) blockSize) (Serves N) := by
  rintro m queue (x | _) m' h hring
  · -- the list queue answers the call, and the ring answers as it does
    cases x with
    | write pBuff amount result =>
        have hlist : ListStep (N - 1) blockSize queue
            (.write pBuff amount (listWrite (N - 1) blockSize pBuff amount queue).1)
            (listWrite (N - 1) blockSize pBuff amount queue).2 := rfl
        obtain ⟨m₁, hcall, hserves⟩ := h.call hN hlist
        obtain ⟨rfl, hr⟩ := Completes.determ hring hcall
        cases hr
        exact ⟨_, rfl, hserves⟩
    | read buffSize ms bytes =>
        have hlist : ListStep (N - 1) blockSize queue (.read buffSize ms (listRead buffSize queue).1)
            (listRead buffSize queue).2 := rfl
        obtain ⟨m₁, hcall, hserves⟩ := h.call hN hlist
        obtain ⟨rfl, hr⟩ := Completes.determ hring hcall
        cases hr
        exact ⟨_, rfl, hserves⟩
  · obtain rfl : m' = m.close := hring
    exact ⟨queue, rfl, h.close⟩

/-- **A queue closed at any time** shows the histories of the list queue. -/
theorem closing_listQueue (hN : 2 ≤ N) (blockSize : ℕ) (history : List Use) :
    (∃ m, Trace (RingUse blockSize) (create N) history m) ↔
      ∃ queue, Trace (ListUse (N - 1) blockSize) [] history queue :=
  Trace.iff_of_forward (uses_forward hN blockSize) (uses_backward hN blockSize)
    (.inl (holds_create hN)) history

/-- Three blocks of four bytes, closed with a message in the ring: two more are written, the second
refused, and both that are there are read. -/
theorem closing_listQueue_inUse :
    ∃ m, Trace (RingUse 4) (create 3)
      [.call (.write (fun _ => 7) 6 4), .close, .call (.write (fun _ => 9) 1 1),
        .call (.write (fun _ => 5) 1 0), .call (.read 3 1 [7, 7, 7]), .close,
        .call (.read 3 1 [9]), .call (.read 3 1 [])] m :=
  (closing_listQueue (by decide) 4 _).mpr
    ⟨[], .cons rfl <| .cons rfl <| .cons rfl <| .cons rfl <| .cons rfl <| .cons rfl <|
      .cons rfl <| .cons rfl <| .nil _⟩

end AtomicMessageQueue
