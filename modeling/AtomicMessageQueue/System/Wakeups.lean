import Mathlib.Data.Fintype.Basic
import AtomicMessageQueue.Lib.Wakeup
import AtomicMessageQueue.System.Streams

/-! # Wake-ups

Readers wait for `m_signal` while the ring is empty, writers for `m_avail` while it is full; `post_block`
and `return_block` set these events. Each event with the threads around it is a `Wakeup.Watch`. The
steps that may leave a waiting thread behind are the emptiness or room test that sends a thread to
wait, the CAS with which a thread leaves the loop it would look again in, both only while the event is
not set, and `ClearEvent` after a wait that has failed; every other step keeps the waiting threads safe.
No thread is left behind as long as such tests are made on the current cursors, nobody then takes or
claims a block beside a waiting thread unless it is the last one, and no failed wait clears an event that
is set.
-/

namespace AtomicMessageQueue

open Function Transition TicketRing Wakeup

variable {ι : Type*}

/-! ## The part of each thread -/

/-- Inside `WaitForEvent` a thread waits until it has found the event set; from then on it is on its
way back to its caller's loop. A wait that has failed or timed out does neither. -/
def WaitPc.role : WaitPc → Role
  | .test => .waiting
  | .clearSet => .coming
  | .lock => .waiting
  | .testState ret => if ret = .ok then .waiting else .idle
  | .testKill => .waiting
  | .enter => .waiting
  | .asleep _ => .waiting
  | .relock ret => if ret = .ok then .waiting else .idle
  | .unlock ret => if ret = .ok then .coming else .idle
  | .clear ret => if ret = .ok then .coming else .idle
  | .testExit ret => if ret = .ok then .coming else .idle

/-- The part of a thread in the wake-ups by `m_signal`. -/
def signalRole (m : MemBuff) : Option Pc → Role
  | some (.getBlockRead _ (.wait pc)) => pc.role
  | some (.getBlockRead _ _) => .coming
  | some (.postBlock _ (.test i)) => if i = m.readStart then .coming else .idle
  | some (.postBlock _ .setEvent) => .coming
  | _ => .idle

/-- The part of a thread in the wake-ups by `m_avail`. -/
def availRole (m : MemBuff) : Option Pc → Role
  | some (.getBlockWrite _ (.wait pc)) => pc.role
  | some (.getBlockWrite _ _) => .coming
  | some (.returnBlock _ (.test i)) =>
      if (m.blocks i).prev = m.writeStart then .coming else .idle
  | some (.returnBlock _ .setEvent) => .coming
  | _ => .idle

/-- Readers are to be woken while a message is there. -/
def signalWatch (m : MemBuff) (threads : ι → Local) : Watch ι where
  pending := decide (m.readStart ≠ m.writeEnd)
  set := decide (m.signal.state ≠ 0)
  role := fun t => signalRole m (threads t).pc

/-- Writers are to be woken while there is room. -/
def availWatch (m : MemBuff) (threads : ι → Local) : Watch ι where
  pending := decide ((m.blocks m.writeStart).next ≠ m.readEnd)
  set := decide (m.avail.state ≠ 0)
  role := fun t => availRole m (threads t).pc

/-! ## The condition -/

/-- Inside `WaitForEvent(&m_pBuffer->m_signal, ..)`, and has neither found the event set nor failed. -/
def Local.awaitsSignal (l : Local) : Bool :=
  match l.pc with
  | some (.getBlockRead _ (.wait pc)) => pc.role = .waiting
  | _ => false

/-- Inside `WaitForEvent(&m_pBuffer->m_avail, ..)`, and has neither found the event set nor failed. -/
def Local.awaitsAvail (l : Local) : Bool :=
  match l.pc with
  | some (.getBlockWrite _ (.wait pc)) => pc.role = .waiting
  | _ => false

/-- The result of the wait for `m_signal` after which the thread is about to clear the event. -/
def signalClear : Option Pc → Option WaitResult
  | some (.getBlockRead _ (.wait (.clear ret))) => some ret
  | _ => none

/-- The result of the wait for `m_avail` after which the thread is about to clear the event. -/
def availClear : Option Pc → Option WaitResult
  | some (.getBlockWrite _ (.wait (.clear ret))) => some ret
  | _ => none

section Condition

variable [DecidableEq ι]

/-- While the event is not set, an emptiness or room test that sends its thread to wait is made on the
current cursor. -/
def TestsCurrent (s : State ι) (a : ι × Choice) : Prop :=
  (∀ i ∈ emptinessTest (s.threads a.1).pc, s.mem.signal.state = 0 →
    i = s.mem.writeEnd → i = s.mem.readStart) ∧
  ∀ i ∈ roomTest (s.threads a.1).pc, s.mem.avail.state = 0 →
    (s.mem.blocks i).next = s.mem.readEnd → i = s.mem.writeStart

/-- While the event is not set, a reader that takes a block beside one that waits for `m_signal` takes the
last one there is to read, and a writer that claims a block beside one that waits for `m_avail` the last
one there is to write. -/
def TakesLast (s : State ι) (a : ι × Choice) : Prop :=
  (∀ i, s.Takes a i → s.mem.signal.state = 0 → (∃ u, (s.threads u).awaitsSignal = true) →
    (s.mem.blocks i).next = s.mem.writeEnd) ∧
  ∀ i, s.Claims a i → s.mem.avail.state = 0 → (∃ u, (s.threads u).awaitsAvail = true) →
    (s.mem.blocks (s.mem.blocks i).next).next = s.mem.readEnd

/-- `ClearEvent` after a wait that has failed or timed out does not find the event set. -/
def FailsUnset (s : State ι) (a : ι × Choice) : Prop :=
  (∀ ret ∈ signalClear (s.threads a.1).pc, ret ≠ .ok → s.mem.signal.state = 0) ∧
    ∀ ret ∈ availClear (s.threads a.1).pc, ret ≠ .ok → s.mem.avail.state = 0

/-- While the event is not set nobody goes to wait on an old test, or takes or claims one of several
blocks beside a waiting thread; and no wait that has failed clears an event that is set. -/
def Considerate (s : State ι) (a : ι × Choice) : Prop :=
  TestsCurrent s a ∧ TakesLast s a ∧ FailsUnset s a

instance (s : State ι) (a : ι × Choice) : Decidable (TestsCurrent s a) :=
  inferInstanceAs (Decidable (_ ∧ _))

instance [Fintype ι] (s : State ι) (a : ι × Choice) : Decidable (TakesLast s a) :=
  @instDecidableAnd _ _ ((readView.actOf s a).decidableForallGrant _)
    ((writeView.actOf s a).decidableForallGrant _)

instance (s : State ι) (a : ι × Choice) : Decidable (FailsUnset s a) :=
  inferInstanceAs (Decidable (_ ∧ _))

instance [Fintype ι] (s : State ι) (a : ι × Choice) : Decidable (Considerate s a) :=
  inferInstanceAs (Decidable (_ ∧ _))

end Condition

/-! ## What a wait does to the event -/

/-- The part of a thread after a step of its wait; one that succeeds goes round its caller's loop. -/
def waitOutRole : Out WaitPc ℤ → Role
  | .next pc => pc.role
  | .ret r => if 0 < r then .coming else .idle

/-- A step of a wait on an event that is not killed takes no cover away, other than `ClearEvent` after a
failed wait that finds the event set. -/
theorem waitForEventAtomic_keeps {w : WaitEnd} {e e' : EventT} {pc : WaitPc} {o : Out WaitPc ℤ}
    (h : waitForEventAtomic w e pc = some (e', o)) (hkill : e.kill = false)
    (hclear : ∀ ret, pc = .clear ret → ret ≠ .ok → e.state = 0) :
    (e.state ≠ 0 → e'.state ≠ 0 ∨ waitOutRole o = .coming) ∧
      (waitOutRole o = .waiting → pc.role = .waiting) ∧
      (pc.role = .coming → waitOutRole o = .coming) := by
  cases pc with
  | test =>
      obtain ⟨rfl, rfl⟩ : e = e' ∧ Out.next (if e.state = 0 then .lock else .clearSet) = o := by
        simpa [waitForEventAtomic, waitForEvent] using h
      exact ⟨.inl, fun _ => rfl, nofun⟩
  | clearSet =>
      obtain ⟨rfl, rfl⟩ : e.clearState = e' ∧ Out.ret 1 = o := by
        simpa [waitForEventAtomic, waitForEvent] using h
      exact ⟨fun _ => .inr rfl, nofun, fun _ => rfl⟩
  | testState ret =>
      simp only [waitForEventAtomic] at h
      split at h
      next hsleep =>
        cases h
        exact ⟨.inl, fun _ => if_pos hsleep.2.1, fun hc => by simp [WaitPc.role, hsleep.2.1] at hc⟩
      next =>
        cases h
        refine ⟨.inl, fun hw => ?_, fun hc => ?_⟩
        · cases ret <;> cases hw
        · cases ret <;> cases hc
  | testKill =>
      obtain ⟨rfl, rfl⟩ : e = e' ∧ Out.next .enter = o := by
        simpa [waitForEventAtomic, waitForEvent, hkill] using h
      exact ⟨.inl, fun _ => rfl, nofun⟩
  | clear ret =>
      cases h
      by_cases hret : ret = .ok
      · subst hret
        exact ⟨fun _ => .inr rfl, nofun, fun _ => rfl⟩
      · have hidle : (WaitPc.testExit ret).role = .idle := if_neg hret
        refine ⟨fun hset => absurd (hclear ret rfl hret) hset, fun hw => ?_, fun hc => ?_⟩
        · exact absurd (hidle.symm.trans hw) nofun
        · exact absurd ((if_neg hret).symm.trans hc) nofun
  | testExit ret =>
      simp only [waitForEventAtomic, waitForEvent, hkill] at h
      cases h
      cases ret
      · exact ⟨.inl, nofun, fun _ => rfl⟩
      · exact ⟨.inl, nofun, nofun⟩
      · exact ⟨.inl, nofun, nofun⟩
  | asleep seen =>
      simp only [waitForEventAtomic, waitForEvent] at h
      split at h
      next => cases h
      next =>
        cases h
        exact ⟨.inl, fun _ => rfl, nofun⟩
  | lock | relock ret =>
      simp only [waitForEventAtomic, waitForEvent] at h
      split at h
      next => cases h
      next =>
        cases h
        exact ⟨.inl, id, id⟩
  | enter | unlock ret =>
      cases h
      exact ⟨.inl, id, id⟩

theorem waitForEventAtomic_kill {w : WaitEnd} {e e' : EventT} {pc : WaitPc} {o : Out WaitPc ℤ}
    (h : waitForEventAtomic w e pc = some (e', o)) : e'.kill = e.kill := by
  cases pc <;> simp only [waitForEventAtomic, waitForEvent] at h
  case testState ret => split at h <;> cases h <;> rfl
  case asleep seen => split at h <;> cases h; rfl
  case lock => split at h <;> cases h; rfl
  case relock ret => split at h <;> cases h; rfl
  case clearSet => cases h; unfold EventT.clearState; split <;> rfl
  case clear ret => cases h; unfold EventT.clearState; split <;> rfl
  all_goals cases h; rfl

/-! ## What an access does to the waiting readers -/

section Code

variable {blockSize : ℕ} {w : WaitEnd} {m m' : MemBuff} {pc : Pc} {o : Out Pc Ret}
  {mk : Option Mark}

theorem CodeStep.kill (h : CodeStep blockSize waitForEventAtomic w m pc m' o mk) :
    m'.signal.kill = m.signal.kill ∧ m'.avail.kill = m.avail.kill := by
  cases h with
  | waitSignal k pc pc' e h => exact ⟨waitForEventAtomic_kill h, rfl⟩
  | retryRead k pc e r hr h => exact ⟨waitForEventAtomic_kill h, rfl⟩
  | timeoutRead k pc e r hr h => exact ⟨waitForEventAtomic_kill h, rfl⟩
  | waitAvail k pc pc' e h => exact ⟨rfl, waitForEventAtomic_kill h⟩
  | retryWrite k pc e r hr h => exact ⟨rfl, waitForEventAtomic_kill h⟩
  | timeoutWrite k pc e r hr h => exact ⟨rfl, waitForEventAtomic_kill h⟩
  | setSignal | setAvail =>
      unfold EventT.setState
      refine ⟨?_, ?_⟩ <;> first | rfl | (split <;> rfl)
  | _ => exact ⟨rfl, rfl⟩

/-- An access passes on what it no longer provides to the waiting readers. -/
structure KeepsSignal (m m' : MemBuff) (pc : Pc) (pc' : Option Pc) : Prop where
  start : m'.readStart = m.readStart
  pending : m'.readStart ≠ m'.writeEnd → m.readStart ≠ m.writeEnd ∨ signalRole m' pc' = .coming
  set : m.signal.state ≠ 0 → m'.signal.state ≠ 0 ∨ signalRole m' pc' = .coming
  waiting : signalRole m' pc' = .waiting → signalRole m (some pc) = .waiting
  coming : signalRole m (some pc) = .coming → signalRole m' pc' = .coming ∨ m'.signal.state ≠ 0

theorem EventT.setState_ne (e : EventT) : e.setState.state ≠ 0 := by
  unfold EventT.setState
  split
  · exact Nat.one_ne_zero
  · assumption

/-- Accesses that may take cover from the waiting readers. -/
def Pc.SignalRisky (m : MemBuff) : Pc → Prop
  | .getBlockRead _ (.test i) => i = m.writeEnd
  | .getBlockRead _ (.cas i) => m.readStart = i
  | _ => False

theorem CodeStep.signal_same (h : CodeStep blockSize waitForEventAtomic w m pc m' o mk)
    (hrisky : pc.SignalRisky m) : m'.signal = m.signal := by
  cases h <;> first | rfl | exact hrisky.elim

theorem CodeStep.keepsSignal (h : CodeStep blockSize waitForEventAtomic w m pc m' o mk)
    (hkill : m.signal.kill = false)
    (hclear : ∀ ret ∈ signalClear (some pc), ret ≠ .ok → m.signal.state = 0)
    (hsafe : ¬ pc.SignalRisky m) : KeepsSignal m m' pc o.pc := by
  cases h with
  | emptyWait k i hi => exact absurd hi hsafe
  | emptyReturn k i hi => exact absurd hi hsafe
  | take k i hi => exact absurd hi hsafe
  | waitSignal k pc pc' e h =>
      obtain ⟨hset, hwaiting, hcoming⟩ := waitForEventAtomic_keeps h hkill fun ret hret =>
        hclear ret (by rw [hret]; rfl)
      exact ⟨rfl, .inl, hset, hwaiting, fun hc => .inl (hcoming hc)⟩
  | retryRead k pc e r hr h =>
      exact ⟨rfl, .inl, fun _ => .inr rfl, nofun, fun _ => .inl rfl⟩
  | timeoutRead k pc e r hr h =>
      obtain ⟨hset, hwaiting, hcoming⟩ := waitForEventAtomic_keeps h hkill fun ret hret =>
        hclear ret (by rw [hret]; rfl)
      have hidle : waitOutRole (.ret r) = .idle := if_neg hr
      rw [hidle] at hset hcoming
      have hnone : (k.resume none).pc = none := by cases k <;> rfl
      rw [hnone]
      exact ⟨rfl, .inl, hset, nofun, fun hc => absurd (hcoming hc) nofun⟩
  | publish k i hi =>
      refine ⟨rfl, fun _ => ?_, .inl, fun hw => ?_, nofun⟩
      · -- publishing into an empty ring: the test that comes next finds the reader's cursor
        by_cases hempty : m.readStart = m.writeEnd
        · exact .inr (if_pos (hi.symm.trans hempty.symm))
        · exact .inl hempty
      · simp only [Out.pc, signalRole] at hw
        split at hw <;> cases hw
  | publishMissed k i hi =>
      refine ⟨rfl, .inl, .inl, fun hw => ?_, nofun⟩
      simp only [Out.pc, signalRole] at hw
      split at hw <;> cases hw
  | testReadStart k i hi => exact ⟨rfl, .inl, .inl, nofun, fun _ => .inl rfl⟩
  | testReadStartNe k i hi =>
      exact ⟨rfl, .inl, .inl, nofun, fun hc => by simp [signalRole, hi] at hc⟩
  | setSignal k => exact ⟨rfl, .inl, fun _ => .inl m.signal.setState_ne, nofun,
      fun _ => .inr m.signal.setState_ne⟩
  | timeoutWrite k | claim k | leavePost k =>
      cases k <;> exact ⟨rfl, .inl, .inl, nofun, nofun⟩
  | leaveReturn k => cases k <;> exact ⟨rfl, .inl, .inl, nofun, nofun⟩
  | _ => first
    | exact ⟨rfl, .inl, .inl, nofun, fun _ => .inl rfl⟩
    | exact ⟨rfl, .inl, .inl, nofun, nofun⟩

/-! ## What an access does to the waiting writers -/

/-- An access passes on what it no longer provides to the waiting writers. -/
structure KeepsAvail (m m' : MemBuff) (pc : Pc) (pc' : Option Pc) : Prop where
  start : m'.writeStart = m.writeStart
  prev : ∀ i, (m'.blocks i).prev = (m.blocks i).prev
  pending : (m'.blocks m'.writeStart).next ≠ m'.readEnd →
    (m.blocks m.writeStart).next ≠ m.readEnd ∨ availRole m' pc' = .coming
  set : m.avail.state ≠ 0 → m'.avail.state ≠ 0 ∨ availRole m' pc' = .coming
  waiting : availRole m' pc' = .waiting → availRole m (some pc) = .waiting
  coming : availRole m (some pc) = .coming → availRole m' pc' = .coming ∨ m'.avail.state ≠ 0

/-- Accesses that may take cover from the waiting writers. -/
def Pc.AvailRisky (m : MemBuff) : Pc → Prop
  | .getBlockWrite _ (.test i) => (m.blocks i).next = m.readEnd
  | .getBlockWrite _ (.cas i) => m.writeStart = i
  | _ => False

theorem CodeStep.avail_same (h : CodeStep blockSize waitForEventAtomic w m pc m' o mk)
    (hrisky : pc.AvailRisky m) : m'.avail = m.avail := by
  cases h <;> first | rfl | exact hrisky.elim

theorem CodeStep.keepsAvail (h : CodeStep blockSize waitForEventAtomic w m pc m' o mk)
    (hkill : m.avail.kill = false)
    (hback : (m.blocks (m.blocks m.writeStart).next).prev = m.writeStart)
    (hclear : ∀ ret ∈ availClear (some pc), ret ≠ .ok → m.avail.state = 0)
    (hsafe : ¬ pc.AvailRisky m) : KeepsAvail m m' pc o.pc := by
  have hprev := fun i => (h.links i).2
  have hnext := (h.links m.writeStart).1
  cases h with
  | full k i hi => exact absurd hi hsafe
  | claim k i hi => exact absurd hi hsafe
  | waitAvail k pc pc' e h =>
      obtain ⟨hset, hwaiting, hcoming⟩ := waitForEventAtomic_keeps h hkill fun ret hret =>
        hclear ret (by rw [hret]; rfl)
      exact ⟨rfl, hprev, .inl, hset, hwaiting, fun hc => .inl (hcoming hc)⟩
  | retryWrite k pc e r hr h =>
      exact ⟨rfl, hprev, .inl, fun _ => .inr rfl, nofun, fun _ => .inl rfl⟩
  | timeoutWrite k pc e r hr h =>
      obtain ⟨hset, hwaiting, hcoming⟩ := waitForEventAtomic_keeps h hkill fun ret hret =>
        hclear ret (by rw [hret]; rfl)
      have hidle : waitOutRole (.ret r) = .idle := if_neg hr
      rw [hidle] at hset hcoming
      have hnone : (k.resume blockSize none).pc = none := by cases k <;> rfl
      rw [hnone]
      exact ⟨rfl, hprev, .inl, hset, nofun, fun hc => absurd (hcoming hc) nofun⟩
  | retire k i hi =>
      refine ⟨rfl, hprev, fun _ => ?_, .inl, fun hw => ?_, nofun⟩
      · -- retiring from a full ring: the test that comes next finds the writer's cursor
        by_cases hfull : (m.blocks m.writeStart).next = m.readEnd
        · refine .inr (if_pos ?_)
          rw [← hi, ← hfull]
          exact hback
        · exact .inl hfull
      · simp only [Out.pc, availRole] at hw
        split at hw <;> cases hw
  | retireMissed k i hi =>
      refine ⟨rfl, hprev, .inl, .inl, fun hw => ?_, nofun⟩
      simp only [Out.pc, availRole] at hw
      split at hw <;> cases hw
  | testWriteStart k i hi => exact ⟨rfl, hprev, .inl, .inl, nofun, fun _ => .inl rfl⟩
  | testWriteStartNe k i hi =>
      exact ⟨rfl, hprev, .inl, .inl, nofun, fun hc => by simp [availRole, hi] at hc⟩
  | setAvail k =>
      exact ⟨rfl, hprev, .inl, fun _ => .inl m.avail.setState_ne, nofun,
        fun _ => .inr m.avail.setState_ne⟩
  | emptyReturn k | timeoutRead k | take k | leavePost k =>
      cases k <;> exact ⟨rfl, hprev, .inl, .inl, nofun, nofun⟩
  | leaveReturn k => cases k <;> exact ⟨rfl, hprev, .inl, .inl, nofun, nofun⟩
  | _ => first
    | exact ⟨rfl, hprev, .inl, .inl, nofun, fun _ => .inl rfl⟩
    | exact ⟨rfl, hprev, fun hp => .inl (hnext ▸ hp), .inl, nofun, nofun⟩

end Code

/-! ## The invariant -/

section Watches

variable [DecidableEq ι] {m m' : MemBuff} {threads : ι → Local} {t : ι} {l : Local} {pc : Pc}

theorem signalRole_congr (h : m'.readStart = m.readStart) (pc : Option Pc) :
    signalRole m' pc = signalRole m pc := by
  simp only [signalRole, h]

theorem availRole_congr (hstart : m'.writeStart = m.writeStart)
    (hprev : ∀ i, (m'.blocks i).prev = (m.blocks i).prev) (pc : Option Pc) :
    availRole m' pc = availRole m pc := by
  simp only [availRole, hstart, hprev]

omit [DecidableEq ι] in
theorem signalRole_eq_waiting : signalRole m l.pc = .waiting ↔ l.awaitsSignal = true := by
  unfold Local.awaitsSignal
  split
  next pc hpc => rw [hpc, decide_eq_true_eq]; rfl
  next h =>
    refine iff_of_false (fun hw => ?_) nofun
    unfold signalRole at hw
    split at hw
    next hpc => exact h _ _ hpc
    next => cases hw
    next => split at hw <;> cases hw
    next => cases hw
    next => cases hw

omit [DecidableEq ι] in
theorem availRole_eq_waiting : availRole m l.pc = .waiting ↔ l.awaitsAvail = true := by
  unfold Local.awaitsAvail
  split
  next pc hpc => rw [hpc, decide_eq_true_eq]; rfl
  next h =>
    refine iff_of_false (fun hw => ?_) nofun
    unfold availRole at hw
    split at hw
    next hpc => exact h _ _ hpc
    next => cases hw
    next => split at hw <;> cases hw
    next => cases hw
    next => cases hw

theorem signalWatch_update (m : MemBuff) (threads : ι → Local) (t : ι) (l : Local) :
    signalWatch m (update threads t l) =
      (signalWatch m threads).withRole t (signalRole m l.pc) :=
  congrArg (Watch.mk _ _) (comp_update (fun l : Local => signalRole m l.pc) threads t l)

theorem availWatch_update (m : MemBuff) (threads : ι → Local) (t : ι) (l : Local) :
    availWatch m (update threads t l) =
      (availWatch m threads).withRole t (availRole m l.pc) :=
  congrArg (Watch.mk _ _) (comp_update (fun l : Local => availRole m l.pc) threads t l)

theorem KeepsSignal.keeps (h : KeepsSignal m m' pc l.pc) (hpc : (threads t).pc = some pc) :
    Watch.Keeps t (signalWatch m threads) (signalWatch m' (update threads t l)) := by
  have hrole : (signalWatch m threads).role t = signalRole m (some pc) := by
    simp only [signalWatch, hpc]
  rw [signalWatch_update]
  refine .withRole (fun u => signalRole_congr h.start _) ?_ ?_ ?_ ?_
  · simpa only [signalWatch, decide_eq_true_eq] using h.pending
  · simpa only [signalWatch, decide_eq_true_eq] using h.set
  · rw [hrole]
    exact h.waiting
  · rw [hrole]
    simpa only [signalWatch, decide_eq_true_eq] using h.coming

theorem KeepsAvail.keeps (h : KeepsAvail m m' pc l.pc) (hpc : (threads t).pc = some pc) :
    Watch.Keeps t (availWatch m threads) (availWatch m' (update threads t l)) := by
  have hrole : (availWatch m threads).role t = availRole m (some pc) := by
    simp only [availWatch, hpc]
  rw [availWatch_update]
  refine .withRole (fun u => availRole_congr h.start h.prev _) ?_ ?_ ?_ ?_
  · simpa only [availWatch, decide_eq_true_eq] using h.pending
  · simpa only [availWatch, decide_eq_true_eq] using h.set
  · rw [hrole]
    exact h.waiting
  · rw [hrole]
    simpa only [availWatch, decide_eq_true_eq] using h.coming

end Watches

/-- Waiting threads are covered, and the events are not killed. -/
structure Watched (N : ℕ) (s : State ι) : Prop where
  cursors : Cursors N s
  signalKill : s.mem.signal.kill = false
  availKill : s.mem.avail.kill = false
  signal : (signalWatch s.mem s.threads).Safe
  avail : (availWatch s.mem s.threads).Safe

/-- The writer's cursor is behind the block its link leads to. -/
theorem Cursors.prev_next {N : ℕ} {s : State ι} (h : Cursors N s) (hN : 0 < N) :
    (s.mem.blocks (s.mem.blocks s.mem.writeStart).next).prev = s.mem.writeStart := by
  rw [h.links.advance hN h.writeStart, h.links.prev _ (Nat.mod_lt _ hN), pred_mod hN, h.writeStart]

section Steps

variable [DecidableEq ι] {cfg : Config ι} {s s' : State ι} {t : ι} {w : WaitEnd} {pc : Pc}
  {m' : MemBuff} {o : Out Pc Ret} {mk : Option Mark}

/-- The emptiness test and the CAS of a reader leave the waiting readers safe under the condition. -/
theorem signal_of_risky (hcode : CodeStep cfg.blockSize waitForEventAtomic w s.mem pc m' o mk)
    (hpc : (s.threads t).pc = some pc) (hok : Considerate s (t, .run w)) (hrisky : pc.SignalRisky s.mem) :
    (signalWatch m' (update s.threads t ((s.threads t).after o mk))).Safe := by
  obtain ⟨⟨htest, -⟩, ⟨htake, -⟩, -⟩ := hok
  by_cases hset : s.mem.signal.state ≠ 0
  · -- whoever waits finds the event set
    exact .of_set (decide_eq_true (by rwa [hcode.signal_same hrisky]))
  have hunset := not_not.mp hset
  cases hcode with
  | emptyWait k i hi | emptyReturn k i hi =>
      -- the reader's cursor is at the end of the messages
      have hstart : i = s.mem.readStart := htest i (by rw [hpc]; rfl) hunset hi
      exact .of_not_pending (decide_eq_false (not_not.mpr (hstart.symm.trans hi)))
  | message k i hi => exact absurd hrisky hi
  | take k i hi =>
      by_cases hwaits : ∃ u, (s.threads u).awaitsSignal = true
      · have hlast := htake i (takes_of_pc hpc hi) hunset hwaits
        exact .of_not_pending (decide_eq_false (not_not.mpr hlast))
      · refine .of_not_waiting t ?_ fun u hut hu => ?_
        · simp only [signalWatch, update_self]
          cases k <;> nofun
        · simp only [signalWatch, update_of_ne hut] at hu
          exact hwaits ⟨u, signalRole_eq_waiting.mp hu⟩
  | takeLost k i hi => exact absurd hrisky hi
  | _ => exact hrisky.elim

/-- The room test and the CAS of a writer leave the waiting writers safe under the condition. -/
theorem avail_of_risky (hcode : CodeStep cfg.blockSize waitForEventAtomic w s.mem pc m' o mk)
    (hpc : (s.threads t).pc = some pc) (hok : Considerate s (t, .run w)) (hrisky : pc.AvailRisky s.mem) :
    (availWatch m' (update s.threads t ((s.threads t).after o mk))).Safe := by
  obtain ⟨⟨-, htest⟩, ⟨-, hclaim⟩, -⟩ := hok
  by_cases hset : s.mem.avail.state ≠ 0
  · -- whoever waits finds the event set
    exact .of_set (decide_eq_true (by rwa [hcode.avail_same hrisky]))
  have hunset := not_not.mp hset
  cases hcode with
  | full k i hi =>
      have hstart : i = s.mem.writeStart := htest i (by rw [hpc]; rfl) hunset hi
      exact .of_not_pending (decide_eq_false (not_not.mpr (hstart ▸ hi)))
  | room k i hi => exact absurd hrisky hi
  | claim k i hi =>
      by_cases hwaits : ∃ u, (s.threads u).awaitsAvail = true
      · have hlast := hclaim i (claims_of_pc hpc hi) hunset hwaits
        exact .of_not_pending (decide_eq_false (not_not.mpr hlast))
      · refine .of_not_waiting t ?_ fun u hut hu => ?_
        · simp only [availWatch, update_self]
          cases k <;> nofun
        · simp only [availWatch, update_of_ne hut] at hu
          exact hwaits ⟨u, availRole_eq_waiting.mp hu⟩
  | claimLost k i hi => exact absurd hrisky hi
  | _ => exact hrisky.elim

/-- A call starts with its thread on the way, or without a part in the wake-ups. -/
theorem Watched.call (h : Watched cfg.blockCount s) (c : Call) (hpc : (s.threads t).pc = none) :
    Watched cfg.blockCount
      { s with threads := update s.threads t { s.threads t with pc := some c.enter } } := by
  refine ⟨⟨h.cursors.links, h.cursors.writeStart, h.cursors.writeEnd, h.cursors.readStart,
    h.cursors.readEnd, h.cursors.writeTicket, h.cursors.readTicket⟩, h.signalKill, h.availKill, ?_, ?_⟩
  · rw [signalWatch_update]
    refine h.signal.withRole ?_ (by cases c <;> nofun)
    simp only [signalWatch, hpc, signalRole]
  · rw [availWatch_update]
    refine h.avail.withRole ?_ (by cases c <;> nofun)
    simp only [availWatch, hpc, availRole]

/-- **Step lemma of the wake-ups.** -/
theorem Watched.step (hN : 0 < cfg.blockCount) (hwait : cfg.wait = waitForEventAtomic)
    {a : ι × Choice} (h : Watched cfg.blockCount s) (hok : Considerate s a)
    (hs : step cfg s a = some s') : Watched cfg.blockCount s' := by
  have hcursors := h.cursors.step hN hs
  obtain ⟨t, ch⟩ := a
  rcases step_cases hs with ⟨c, rfl, hpc, -, -, rfl⟩ | ⟨w, pc, m', o, mk, rfl, hpc, hcode, rfl⟩
  · exact h.call c hpc
  · rw [hwait] at hcode
    obtain ⟨hsignal, havail⟩ := hok.2.2
    rw [hpc] at hsignal havail
    refine ⟨hcursors, hcode.kill.1.trans h.signalKill, hcode.kill.2.trans h.availKill, ?_, ?_⟩
    · -- the condition speaks of the risky accesses; every other passes the cover on
      by_cases hrisky : pc.SignalRisky s.mem
      · exact signal_of_risky hcode hpc hok hrisky
      · have hkeeps := hcode.keepsSignal h.signalKill hsignal hrisky
        exact h.signal.keeps (KeepsSignal.keeps (l := (s.threads t).after o mk) hkeeps hpc)
    · by_cases hrisky : pc.AvailRisky s.mem
      · exact avail_of_risky hcode hpc hok hrisky
      · have hkeeps := hcode.keepsAvail h.availKill (h.cursors.prev_next hN) havail hrisky
        exact h.avail.keeps (KeepsAvail.keeps (l := (s.threads t).after o mk) hkeeps hpc)

omit [DecidableEq ι] in
theorem watched_start (hN : 2 ≤ cfg.blockCount) : Watched cfg.blockCount (start cfg) where
  cursors := cursors_start hN
  signalKill := by
    show (create cfg.blockCount).signal.kill = false
    rw [create_eq hN]
    rfl
  availKill := by
    show (create cfg.blockCount).avail.kill = false
    rw [create_eq hN]
    rfl
  signal := fun ⟨_, ht⟩ => by cases ht
  avail := fun ⟨_, ht⟩ => by cases ht

theorem watched_of_reached (hN : 2 ≤ cfg.blockCount) (hwait : cfg.wait = waitForEventAtomic)
    (h : Reached cfg Considerate s) : Watched cfg.blockCount s :=
  h.invariant (watched_start hN) fun _ _ _ _ hi hok hs =>
    hi.step (by omega) hwait hok hs

end Steps

/-! ## Nobody is left asleep -/

/-- Asleep in `WaitForEvent(&m_pBuffer->m_signal, ..)`. -/
def Local.asleepOnSignal (l : Local) : Bool :=
  match l.pc with
  | some (.getBlockRead _ (.wait (.asleep _))) => true
  | _ => false

/-- Asleep in `WaitForEvent(&m_pBuffer->m_avail, ..)`. -/
def Local.asleepOnAvail (l : Local) : Bool :=
  match l.pc with
  | some (.getBlockWrite _ (.wait (.asleep _))) => true
  | _ => false

/-- Every thread is outside the queue's methods or asleep in `WaitForEvent`. -/
def State.Still (s : State ι) : Prop :=
  ∀ t, (s.threads t).pc.isNone = true ∨ (s.threads t).asleepOnSignal = true ∨
    (s.threads t).asleepOnAvail = true

instance [Fintype ι] (s : State ι) : Decidable s.Still :=
  inferInstanceAs (Decidable (∀ _, _))

theorem signalRole_of_asleep {m : MemBuff} {l : Local} (h : l.asleepOnSignal = true) :
    signalRole m l.pc = .waiting := by
  unfold Local.asleepOnSignal at h
  split at h
  next hpc => rw [hpc]; rfl
  next => cases h

theorem availRole_of_asleep {m : MemBuff} {l : Local} (h : l.asleepOnAvail = true) :
    availRole m l.pc = .waiting := by
  unfold Local.asleepOnAvail at h
  split at h
  next hpc => rw [hpc]; rfl
  next => cases h

/-- While every thread is out or asleep, none is on its way. -/
theorem State.Still.not_coming {s : State ι} (h : s.Still) (m : MemBuff) (t : ι) :
    signalRole m (s.threads t).pc ≠ .coming ∧ availRole m (s.threads t).pc ≠ .coming := by
  rcases h t with hout | hsignal | havail
  · rw [Option.isNone_iff_eq_none.mp hout]
    exact ⟨nofun, nofun⟩
  · unfold Local.asleepOnSignal at hsignal
    split at hsignal
    next hpc => rw [hpc]; exact ⟨nofun, nofun⟩
    next => cases hsignal
  · unfold Local.asleepOnAvail at havail
    split at havail
    next hpc => rw [hpc]; exact ⟨nofun, nofun⟩
    next => cases havail

/-- **No thread is left asleep** beside a message it could take or room it could use, in every run in
which tests that send a thread to wait are made on the current cursors, nobody takes or claims a block
beside a waiting thread unless it is the last one, and no wait that has failed clears an event that is
set: when all threads are out of the queue's methods or asleep, a reader sleeps only while the ring is
empty or `m_signal` is set, and a writer only while it is full or `m_avail` is set. -/
theorem nobody_left_asleep [DecidableEq ι] {cfg : Config ι} (hN : 2 ≤ cfg.blockCount)
    (hwait : cfg.wait = waitForEventAtomic) {s : State ι} (h : Reached cfg Considerate s)
    (hstill : s.Still) :
    ((∃ t, (s.threads t).asleepOnSignal = true) →
      s.mem.readStart = s.mem.writeEnd ∨ s.mem.signal.state ≠ 0) ∧
    ((∃ t, (s.threads t).asleepOnAvail = true) →
      (s.mem.blocks s.mem.writeStart).next = s.mem.readEnd ∨ s.mem.avail.state ≠ 0) := by
  have hw := watched_of_reached hN hwait h
  constructor
  · rintro ⟨t, ht⟩
    have hsafe := hw.signal.of_still (fun u => (hstill.not_coming s.mem u).1)
      (signalRole_of_asleep ht)
    simpa [signalWatch] using hsafe
  · rintro ⟨t, ht⟩
    have hsafe := hw.avail.of_still (fun u => (hstill.not_coming s.mem u).2)
      (availRole_of_asleep ht)
    simpa [availWatch] using hsafe

/-- Two readers fall asleep on the empty ring. A message wakes both; the first takes it, and the second
finds the event cleared and sleeps on. -/
def oneWoken : List (Fin 3 × Choice) :=
  during 1 (.read 4 1) 5 ++ during 2 (.read 4 1) 5 ++ during 0 (.write letters 1) 16 ++
  runs 1 23 ++ runs 2 3

theorem nobody_left_asleep_oneWoken :
    ∃ s, Reached (streams 3 3 1 waitForEventAtomic) Considerate s ∧ s.Still ∧
      delivered s.hist = [(4, [65])] ∧ (s.threads 2).asleepOnSignal = true ∧
      (s.mem.readStart = s.mem.writeEnd ∨ s.mem.signal.state ≠ 0) := by
  obtain ⟨s, hs, hstill, hdelivered, hasleep⟩ :
      ∃ s, Reached (streams 3 3 1 waitForEventAtomic) Considerate s ∧ s.Still ∧
        delivered s.hist = [(4, [65])] ∧ (s.threads 2).asleepOnSignal = true :=
    Reach.exists_of_run oneWoken (by decide +kernel)
  have hN : 2 ≤ (streams 3 3 1 waitForEventAtomic).blockCount := by decide
  have hsafe := nobody_left_asleep hN rfl hs hstill
  exact ⟨s, hs, hstill, hdelivered, hasleep, hsafe.1 ⟨2, hasleep⟩⟩

/-- The scheduled access is not the end of a wait at its deadline or with an error. -/
def Choice.inTime : Choice → Bool
  | .run .expire => false
  | .run .fail => false
  | _ => true

/-- Two readers sleep and two messages are posted, of which only the first sets `m_signal`. The first
reader clears the event and takes one message; the second finds the event cleared and sleeps on. -/
def oneLeft : List (Fin 3 × Choice) :=
  during 1 (.read 4 1) 5 ++ during 2 (.read 4 1) 5 ++ during 0 (.write letters 1) 16 ++
  during 0 (.write letters 1) 14 ++ runs 1 25 ++ runs 2 3

/-- A reader is left asleep beside a message, though no wait has expired. -/
theorem reader_left_asleep :
    ∃ s, Reached (streams 3 3 1 waitForEventAtomic) (fun _ a => a.2.inTime = true) s ∧ s.Still ∧
      (s.threads 2).asleepOnSignal = true ∧ s.mem.readStart ≠ s.mem.writeEnd ∧
      s.mem.signal.state = 0 :=
  Reach.exists_of_run oneLeft (by decide +kernel)

end AtomicMessageQueue
