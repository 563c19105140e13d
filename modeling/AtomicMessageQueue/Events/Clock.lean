import AtomicMessageQueue.Events.Threads
import AtomicMessageQueue.Sequential.Calls

/-! # Waiting by the clock

Reference: `events2.h`, `WaitForEvent`. One thread waits for an event nobody sets, and time passes. The
deadline has the seconds of `CLOCK_MONOTONIC`, and for nanoseconds the whole timeout, multiplied in 32
bits; the condition variable compares it with `CLOCK_REALTIME`, its clock unless `CreateEvent` sets
another. The time of the call is the time at which `WaitForEvent` reads the clock: what a call does before
that takes no time, and from there on time passes as it likes.
-/

namespace AtomicMessageQueue

open Relation

/-! ## Clocks and deadlines -/

/-- What the two clocks show, in nanoseconds. -/
structure Instant where
  monotonic : ℕ
  realtime : ℕ
deriving DecidableEq, Repr

/-- `d` nanoseconds later. -/
def Instant.after (now : Instant) (d : ℕ) : Instant :=
  { monotonic := now.monotonic + d, realtime := now.realtime + d }

/-- `struct timespec`. -/
structure Timespec where
  sec : ℕ
  nsec : ℕ
deriving DecidableEq, Repr

/-- `pthread_cond_timedwait` returns `EINVAL` otherwise. -/
def Timespec.Valid (ts : Timespec) : Prop := ts.nsec < 10 ^ 9

/-- The time it denotes. -/
def Timespec.nanoseconds (ts : Timespec) : ℕ := ts.sec * 10 ^ 9 + ts.nsec

/-- `clock_gettime(CLOCK_MONOTONIC, &ts); ts.tv_nsec = msTimeout * 1000000;` -/
def deadline (msTimeout : UInt32) (now : Instant) : Timespec where
  sec := now.monotonic / 10 ^ 9
  nsec := (msTimeout * 1000000).toNat

/-- How a `pthread_cond_timedwait` with this deadline may end now. -/
def WaitEnd.MayEnd (ts : Timespec) (now : Instant) : WaitEnd → Prop
  | .wake => ts.Valid
  | .spurious => ts.Valid
  | .expire => ts.Valid ∧ ts.nanoseconds ≤ now.realtime
  | .fail => ¬ ts.Valid

/-- The program points of `WaitForEvent` after it has read the clock. -/
def WaitPc.ClockRead : WaitPc → Prop
  | .test => False
  | .clearSet => False
  | .lock => False
  | _ => True

/-- Where in `WaitForEvent` the thread is. -/
def Pc.waitPc : Pc → Option WaitPc
  | .getBlockWrite _ (.wait pc) => some pc
  | .getBlockRead _ (.wait pc) => some pc
  | _ => none

/-- A thread alone with the clock, and the deadline of the wait it is in. -/
structure Clocked where
  mem : MemBuff
  out : Out Pc Ret
  now : Instant
  ts : Option Timespec

/-- A call begins. -/
def Clocked.start (m : MemBuff) (c : Call) (now : Instant) : Clocked :=
  { mem := m, out := .next c.enter, now := now, ts := none }

/-- Time passes in a wait, or the thread makes its next access, which is the end of a
`pthread_cond_timedwait` only as the deadline allows. -/
inductive ClockedStep (blockSize : ℕ) (msTimeout : ℤ) : Clocked → Clocked → Prop
  | pass {m : MemBuff} {pc : Pc} {p : WaitPc} {now : Instant} {ts : Option Timespec} (d : ℕ)
      (hp : pc.waitPc = some p) (hread : p.ClockRead) :
      ClockedStep blockSize msTimeout ⟨m, .next pc, now, ts⟩ ⟨m, .next pc, now.after d, ts⟩
  | access {m m' : MemBuff} {pc : Pc} {o : Out Pc Ret} {mk : Option Mark} {now : Instant}
      {ts : Option Timespec} (w : WaitEnd)
      (hend : ∀ seen, pc.waitPc = some (.asleep seen) → ∃ d ∈ ts, w.MayEnd d now)
      (access : codeStep blockSize waitForEvent w m pc = some (m', o, mk)) :
      ClockedStep blockSize msTimeout ⟨m, .next pc, now, ts⟩
        ⟨m', o, now,
          if pc.waitPc = some .lock then some (deadline (UInt32.ofInt msTimeout) now) else ts⟩

/-- A thread alone with the clock goes from one state to another. -/
abbrev ClockedRuns (blockSize : ℕ) (msTimeout : ℤ) : Clocked → Clocked → Prop :=
  ReflTransGen (ClockedStep blockSize msTimeout)

/-! ## A wait nobody ends -/

variable {start now : Instant} {e e' : EventT} {w : WaitEnd} {pc : WaitPc}

theorem Instant.after_after (now : Instant) (d d' : ℕ) :
    (now.after d).after d' = now.after (d + d') := by
  simp only [Instant.after, Nat.add_assoc]

/-- The deadline `dl` has passed, or could not be waited for. -/
def WaitResult.Due (dl : Timespec) (now : Instant) : WaitResult → Prop
  | .ok => False
  | .timedOut => dl.Valid ∧ dl.nanoseconds ≤ now.realtime
  | .error => ¬ dl.Valid

/-- What holds in a wait for an event nobody sets, by its program point: up to the reading of the clock it
is still `start`; from there on the event is down, and the wait is on its way out only if it is due. -/
def InWait (start : Instant) (dl : Timespec) (e : EventT) (now : Instant) (ts : Option Timespec) :
    WaitPc → Prop
  | .test => now = start ∧ e.Quiet
  | .clearSet => now = start ∧ e.Quiet
  | .lock => now = start ∧ e.Quiet ∧ e.state = 0
  | .testState ret => Late ∧ (ret = .ok ∨ ret.Due dl now)
  | .testKill => Late
  | .enter => Late
  | .asleep _ => Late
  | .relock ret => Late ∧ (ret = .ok ∨ ret.Due dl now)
  | .unlock ret => Late ∧ ret.Due dl now
  | .clear ret => Late ∧ ret.Due dl now
  | .testExit ret => Late ∧ ret.Due dl now
where
  /-- After the reading of the clock. -/
  Late : Prop := (∃ d, now = start.after d) ∧ ts = some dl ∧ e.state = 0 ∧ e.kill = false

/-- A wait that is due stays so. -/
theorem WaitResult.Due.after {dl : Timespec} {ret : WaitResult} (h : ret.Due dl now) (d : ℕ) :
    ret.Due dl (now.after d) := by
  cases ret with
  | ok => exact h
  | timedOut => exact ⟨h.1, le_trans h.2 (Nat.le_add_right _ _)⟩
  | error => exact h

theorem InWait.Late.after {dl : Timespec} {ts : Option Timespec} (h : InWait.Late start dl e now ts)
    (d : ℕ) : InWait.Late start dl e (now.after d) ts := by
  obtain ⟨⟨d', rfl⟩, hlate⟩ := h
  exact ⟨⟨d' + d, Instant.after_after start d' d⟩, hlate⟩

/-- Time that passes changes nothing. -/
theorem InWait.pass {dl : Timespec} {ts : Option Timespec} (h : InWait start dl e now ts pc)
    (hread : pc.ClockRead) (d : ℕ) : InWait start dl e (now.after d) ts pc := by
  cases pc with
  | test => exact hread.elim
  | clearSet => exact hread.elim
  | lock => exact hread.elim
  | testState ret => exact ⟨h.1.after d, h.2.imp_right fun hdue => hdue.after d⟩
  | testKill => exact InWait.Late.after h d
  | enter => exact InWait.Late.after h d
  | asleep seen => exact InWait.Late.after h d
  | relock ret => exact ⟨h.1.after d, h.2.imp_right fun hdue => hdue.after d⟩
  | unlock ret => exact ⟨h.1.after d, h.2.after d⟩
  | clear ret => exact ⟨h.1.after d, h.2.after d⟩
  | testExit ret => exact ⟨h.1.after d, h.2.after d⟩

/-- How such a wait returns: at once, because the event was still set, or without success when it is
due. -/
inductive WaitReturned (start : Instant) (dl : Timespec) (e : EventT) (now : Instant) (r : ℤ) : Prop
  | again (h : now = start) (hq : e.Quiet) (hr : 0 < r)
  | gaveUp (h : ∃ d, now = start.after d) (ret : WaitResult) (hdue : ret.Due dl now) (hr : ¬ 0 < r)

variable {ms : UInt32} {ts : Option Timespec}

/-- How a `pthread_cond_timedwait` ends that ends as its deadline allows. -/
theorem WaitEnd.MayEnd.due {dl : Timespec} (h : w.MayEnd dl now) :
    w.result = .ok ∨ w.result.Due dl now := by
  cases w with
  | wake => exact .inl rfl
  | spurious => exact .inl rfl
  | expire => exact .inr h
  | fail => exact .inr h

/-- **Step lemma.** An access that stays in the wait. -/
theorem InWait.next {pc' : WaitPc} (h : InWait start (deadline ms start) e now ts pc)
    (hend : ∀ seen, pc = .asleep seen → ∃ d ∈ ts, w.MayEnd d now)
    (haccess : EventAccess w e (.wait pc) e' (.next (.wait pc'))) :
    InWait start (deadline ms start) e' now
      (if pc = .lock then some (deadline ms now) else ts) pc' := by
  cases haccess with
  | testUnset hstate => exact ⟨h.1, h.2, hstate⟩
  | testSet hstate => exact h
  | lock hmtx =>
      obtain ⟨rfl, hq, hstate⟩ := h
      exact ⟨⟨⟨0, rfl⟩, if_pos rfl, hstate, hq.kill⟩, .inl rfl⟩
  | loop ret hstate hr => exact h.1
  | leaveLoop ret hleave =>
      refine ⟨h.1, h.2.resolve_left fun hr => hleave ⟨h.1.2.2.1, hr⟩⟩
  | killed hkill => exact absurd hkill (by rw [h.2.2.2]; decide)
  | alive hkill => exact h
  | enter => exact h
  | wake seen hwake =>
      obtain ⟨d, hd, hmay⟩ := hend seen rfl
      obtain rfl : deadline ms start = d := Option.some.inj (h.2.1.symm.trans hd)
      exact ⟨h, hmay.due⟩
  | relock ret hmtx => exact h
  | unlock ret => exact h
  | clear ret =>
      have hclear : e.clearState = e := by rw [EventT.clearState, h.1.2.2.1]; rfl
      rw [hclear]
      exact h

/-- **Step lemma.** An access with which the wait returns. -/
theorem InWait.ret {r : ℤ} (h : InWait start (deadline ms start) e now ts pc)
    (haccess : EventAccess w e (.wait pc) e' (.ret (some r))) :
    WaitReturned start (deadline ms start) e' now r := by
  cases haccess with
  | clearSet =>
      obtain ⟨rfl, hq⟩ := h
      refine .again rfl ?_ Int.one_pos
      unfold EventT.clearState
      split
      · exact hq.cleared
      · exact hq
  | testExit ret =>
      obtain ⟨⟨hlate, -, -, hkill⟩, hdue⟩ := h
      refine .gaveUp hlate ret hdue ?_
      rw [if_neg (by rw [hkill]; decide)]
      cases ret with
      | ok => exact hdue.elim
      | timedOut => decide
      | error => decide

/-! ## A call that waits in a loop -/

/-- A call that, whatever the event, looks at the ring, finds it must wait, and waits; it goes round when
the wait succeeds, and otherwise returns `gone`. -/
structure WaitLoop (blockSize : ℕ) where
  withEvent : EventT → MemBuff
  load : Pc
  test : Pc
  wait : WaitPc → Pc
  gone : Ret
  load_step : ∀ w e, codeStep blockSize waitForEvent w (withEvent e) load =
    some (withEvent e, .next test, none)
  test_step : ∀ w e, codeStep blockSize waitForEvent w (withEvent e) test =
    some (withEvent e, .next (wait .test), none)
  wait_step : ∀ w e p, codeStep blockSize waitForEvent w (withEvent e) (wait p) =
    (waitForEvent w e p).map fun
      | (e', .next p') => (withEvent e', .next (wait p'), none)
      | (e', .ret r) => (withEvent e', if 0 < r then .next load else .ret gone, none)
  load_waitPc : load.waitPc = none
  test_waitPc : test.waitPc = none
  wait_waitPc : ∀ p, (wait p).waitPc = some p

namespace WaitLoop

variable {blockSize : ℕ} {msTimeout : ℤ}

/-- The states of such a call. -/
inductive Within (l : WaitLoop blockSize) (start : Instant) (ms : UInt32) : Clocked → Prop
  | load {e : EventT} {ts : Option Timespec} (hq : e.Quiet) :
      Within l start ms ⟨l.withEvent e, .next l.load, start, ts⟩
  | test {e : EventT} {ts : Option Timespec} (hq : e.Quiet) :
      Within l start ms ⟨l.withEvent e, .next l.test, start, ts⟩
  | wait {e : EventT} {now : Instant} {ts : Option Timespec} {p : WaitPc}
      (h : InWait start (deadline ms start) e now ts p) :
      Within l start ms ⟨l.withEvent e, .next (l.wait p), now, ts⟩
  | gone {e : EventT} {now : Instant} {ts : Option Timespec} (h : ∃ d, now = start.after d)
      (ret : WaitResult) (hdue : ret.Due (deadline ms start) now) :
      Within l start ms ⟨l.withEvent e, .ret l.gone, now, ts⟩

theorem Within.step {l : WaitLoop blockSize} {s s' : Clocked}
    (h : l.Within start (UInt32.ofInt msTimeout) s) (hstep : ClockedStep blockSize msTimeout s s') :
    l.Within start (UInt32.ofInt msTimeout) s' := by
  cases hstep with
  | pass d hp hread =>
      cases h with
      | load hq =>
          rw [l.load_waitPc] at hp
          cases hp
      | test hq =>
          rw [l.test_waitPc] at hp
          cases hp
      | wait h =>
          rw [l.wait_waitPc, Option.some.injEq] at hp
          subst hp
          exact .wait (h.pass hread d)
  | access w hend access =>
      cases h with
      | load hq =>
          rw [l.load_step] at access
          cases access
          exact .test hq
      | test hq =>
          rw [l.test_step] at access
          cases access
          exact .wait ⟨rfl, hq⟩
      | @wait e now ts p h =>
          rw [l.wait_step, Option.map_eq_some_iff] at access
          simp only [l.wait_waitPc, Option.some.injEq] at hend ⊢
          obtain ⟨⟨e', p' | r⟩, hwait, heq⟩ := access <;> cases heq
          · have haccess : EventAccess w e (.wait p) e' (.next (.wait p')) :=
              eventAccess_inv (by rw [eventAccess, hwait]; rfl)
            exact .wait (h.next hend haccess)
          · have haccess : EventAccess w e (.wait p) e' (.ret (some r)) :=
              eventAccess_inv (by rw [eventAccess, hwait]; rfl)
            cases h.ret haccess with
            | again hnow hq hr =>
                subst hnow
                rw [if_pos hr]
                exact .load hq
            | gaveUp hnow ret hdue hr =>
                rw [if_neg hr]
                exact .gone hnow ret hdue

theorem Within.runs {l : WaitLoop blockSize} {s s' : Clocked}
    (h : l.Within start (UInt32.ofInt msTimeout) s) (hruns : ClockedRuns blockSize msTimeout s s') :
    l.Within start (UInt32.ofInt msTimeout) s' := by
  induction hruns with
  | refl => exact h
  | tail rest hstep ih => exact ih.step hstep

/-! ### Its runs -/

variable (l : WaitLoop blockSize)

/-- An access inside the wait. -/
theorem step_next {p p' : WaitPc} {ts ts' : Option Timespec}
    (hwait : waitForEvent w e p = some (e', .next p'))
    (hend : ∀ seen, p = .asleep seen → ∃ d ∈ ts, w.MayEnd d now)
    (hts : ts' = if p = .lock then some (deadline (UInt32.ofInt msTimeout) now) else ts) :
    ClockedStep blockSize msTimeout ⟨l.withEvent e, .next (l.wait p), now, ts⟩
      ⟨l.withEvent e', .next (l.wait p'), now, ts'⟩ := by
  have haccess : codeStep blockSize waitForEvent w (l.withEvent e) (l.wait p) =
      some (l.withEvent e', .next (l.wait p'), none) := by
    rw [l.wait_step, hwait]
    rfl
  have hstep : ClockedStep blockSize msTimeout ⟨l.withEvent e, .next (l.wait p), now, ts⟩ _ :=
    .access w (by simpa only [l.wait_waitPc, Option.some.injEq] using hend) haccess
  simpa only [l.wait_waitPc, Option.some.injEq, ← hts] using hstep

/-- An access with which the wait returns. -/
theorem step_ret {p : WaitPc} {ts : Option Timespec} {r : ℤ}
    (hwait : waitForEvent w e p = some (e', .ret r)) (hp : ∀ seen, p ≠ .asleep seen)
    (hlock : p ≠ .lock) :
    ClockedStep blockSize msTimeout ⟨l.withEvent e, .next (l.wait p), now, ts⟩
      ⟨l.withEvent e', if 0 < r then .next l.load else .ret l.gone, now, ts⟩ := by
  have haccess : codeStep blockSize waitForEvent w (l.withEvent e) (l.wait p) =
      some (l.withEvent e', if 0 < r then .next l.load else .ret l.gone, none) := by
    rw [l.wait_step, hwait]
    rfl
  have hend : ∀ seen, (l.wait p).waitPc = some (.asleep seen) → ∃ d ∈ ts, w.MayEnd d now := by
    intro seen hseen
    rw [l.wait_waitPc, Option.some.injEq] at hseen
    exact absurd hseen (hp seen)
  have hstep : ClockedStep blockSize msTimeout ⟨l.withEvent e, .next (l.wait p), now, ts⟩ _ :=
    .access w hend haccess
  simpa only [l.wait_waitPc, Option.some.injEq, hlock, if_false] using hstep

/-- The call looks at the ring and begins to wait. -/
theorem runs_load (e : EventT) (ts : Option Timespec) :
    ClockedRuns blockSize msTimeout ⟨l.withEvent e, .next l.load, now, ts⟩
      ⟨l.withEvent e, .next (l.wait .test), now, ts⟩ := by
  have hload : ClockedStep blockSize msTimeout ⟨l.withEvent e, .next l.load, now, ts⟩ _ :=
    .access .wake (by simp [l.load_waitPc]) (l.load_step .wake e)
  have htest : ClockedStep blockSize msTimeout ⟨l.withEvent e, .next l.test, now, ts⟩ _ :=
    .access .wake (by simp [l.test_waitPc]) (l.test_step .wake e)
  simp only [l.load_waitPc, reduceCtorEq, if_false] at hload
  simp only [l.test_waitPc, reduceCtorEq, if_false] at htest
  exact .head hload (.single htest)

/-- A wait that finds the event down goes to sleep with the deadline. -/
theorem runs_asleep (hq : e.Quiet) (hstate : e.state = 0) (ts : Option Timespec) :
    ClockedRuns blockSize msTimeout ⟨l.withEvent e, .next (l.wait .test), now, ts⟩
      ⟨l.withEvent e, .next (l.wait (.asleep e.cond)), now,
        some (deadline (UInt32.ofInt msTimeout) now)⟩ := by
  obtain ⟨state, kill, mtx, cond⟩ := e
  obtain rfl : state = 0 := hstate
  obtain rfl : kill = false := hq.kill
  obtain rfl : mtx = false := hq.mtx
  -- test, lock and read the clock, test, test `kill_`, fall asleep
  exact .head (l.step_next (w := .wake) rfl (by simp) rfl) <|
    .head (l.step_next (w := .wake) rfl (by simp) rfl) <|
    .head (l.step_next (w := .wake) rfl (by simp) rfl) <|
    .head (l.step_next (w := .wake) rfl (by simp) rfl) <|
    .single (l.step_next (w := .wake) rfl (by simp) rfl)

/-- The call goes to sleep; an event that was still set only makes it go round once. -/
theorem reaches_asleep (now : Instant) (hq : e.Quiet) (ts : Option Timespec) :
    ∃ e' : EventT, e'.Quiet ∧ e'.state = 0 ∧
      ClockedRuns blockSize msTimeout ⟨l.withEvent e, .next l.load, now, ts⟩
        ⟨l.withEvent e', .next (l.wait (.asleep e'.cond)), now,
          some (deadline (UInt32.ofInt msTimeout) now)⟩ := by
  rcases Nat.le_one_iff_eq_zero_or_eq_one.mp hq.state with hdown | hup
  · exact ⟨e, hq, hdown, (l.runs_load e ts).trans (l.runs_asleep hq hdown ts)⟩
  · have htest : ClockedStep blockSize msTimeout ⟨l.withEvent e, .next (l.wait .test), now, ts⟩
        ⟨l.withEvent e, .next (l.wait .clearSet), now, ts⟩ :=
      l.step_next (w := .wake) (by simp [waitForEvent, hup]) (by simp) rfl
    have hclear : ClockedStep blockSize msTimeout ⟨l.withEvent e, .next (l.wait .clearSet), now, ts⟩
        ⟨l.withEvent e.cleared, .next l.load, now, ts⟩ :=
      l.step_ret (w := .wake) (r := 1)
        (by simp [waitForEvent, EventT.clearState, hup, EventT.cleared]) (by simp) (by simp)
    exact ⟨e.cleared, hq.cleared, rfl, (l.runs_load e ts).trans <| .head htest <| .head hclear <|
      (l.runs_load e.cleared ts).trans (l.runs_asleep hq.cleared rfl ts)⟩

/-- A sleeper returns once the deadline has passed. -/
theorem runs_expire {dl : Timespec} (hq : e.Quiet) (hstate : e.state = 0) (seen : ℕ)
    (hmay : WaitEnd.expire.MayEnd dl now) :
    ClockedRuns blockSize msTimeout ⟨l.withEvent e, .next (l.wait (.asleep seen)), now, some dl⟩
      ⟨l.withEvent e, .ret l.gone, now, some dl⟩ := by
  obtain ⟨state, kill, mtx, cond⟩ := e
  obtain rfl : state = 0 := hstate
  obtain rfl : kill = false := hq.kill
  obtain rfl : mtx = false := hq.mtx
  -- deadline, relock, test, unlock, clear, test `kill_`
  exact .head (l.step_next (w := .expire) rfl (fun _ _ => ⟨dl, rfl, hmay⟩) rfl) <|
    .head (l.step_next (w := .wake) rfl (by rintro _ ⟨⟩) rfl) <|
    .head (l.step_next (w := .wake) rfl (by rintro _ ⟨⟩) rfl) <|
    .head (l.step_next (w := .wake) rfl (by rintro _ ⟨⟩) rfl) <|
    .head (l.step_next (w := .wake) rfl (by rintro _ ⟨⟩) rfl) <|
    .single (l.step_ret (w := .wake) (r := 0) rfl (by rintro _ ⟨⟩) (by rintro ⟨⟩))

end WaitLoop

/-! ## Being on time -/

/-- A call that waits for nothing returns an `ok` result, no earlier than `T` nanoseconds after it was
called, and every deadline it waits for is valid and denotes the time of the call and `T`
nanoseconds. -/
structure OnTime (blockSize : ℕ) (msTimeout : ℤ) (s₀ : Clocked) (T : ℕ) (ok : Ret → Prop) : Prop where
  ends : ∃ s r, ClockedRuns blockSize msTimeout s₀ s ∧ s.out = .ret r
  returns : ∀ s r, ClockedRuns blockSize msTimeout s₀ s → s.out = .ret r →
    ok r ∧ s₀.now.monotonic + T ≤ s.now.monotonic
  deadlines : ∀ s pc seen, ClockedRuns blockSize msTimeout s₀ s → s.out = .next pc →
    pc.waitPc = some (.asleep seen) → ∃ dl ∈ s.ts, dl.Valid ∧ dl.nanoseconds = s₀.now.realtime + T

variable {blockSize : ℕ}

/-- **A call that waits is on time** exactly if its deadline is valid and denotes the right time. -/
theorem WaitLoop.onTime_iff (l : WaitLoop blockSize) (hq : e.Quiet) (msTimeout : ℤ)
    (start : Instant) (T : ℕ) (ok : Ret → Prop) (hok : ok l.gone) :
    OnTime blockSize msTimeout ⟨l.withEvent e, .next l.load, start, none⟩ T ok ↔
      (deadline (UInt32.ofInt msTimeout) start).Valid ∧
        (deadline (UInt32.ofInt msTimeout) start).nanoseconds = start.realtime + T := by
  obtain ⟨e', hq', hstate, hsleep⟩ := l.reaches_asleep start hq none
  constructor
  · intro h
    obtain ⟨dl, hdl, hright⟩ := h.deadlines _ _ _ hsleep rfl (l.wait_waitPc _)
    obtain rfl := Option.some.inj hdl
    exact hright
  · rintro ⟨hvalid, hright⟩
    have hwithin : ∀ {s}, ClockedRuns blockSize msTimeout
        ⟨l.withEvent e, .next l.load, start, none⟩ s → l.Within start (UInt32.ofInt msTimeout) s :=
      fun hruns => WaitLoop.Within.runs (.load hq) hruns
    refine ⟨?_, ?_, ?_⟩
    · have hpass : ClockedStep blockSize msTimeout
          ⟨l.withEvent e', .next (l.wait (.asleep e'.cond)), start,
            some (deadline (UInt32.ofInt msTimeout) start)⟩ _ :=
        .pass T (l.wait_waitPc _) trivial
      have hmay : WaitEnd.expire.MayEnd (deadline (UInt32.ofInt msTimeout) start) (start.after T) :=
        ⟨hvalid, hright.le⟩
      exact ⟨_, _, hsleep.trans (.head hpass (l.runs_expire hq' hstate _ hmay)), rfl⟩
    · intro s r hruns hret
      cases hwithin hruns with
      | load hq => cases hret
      | test hq => cases hret
      | wait h => cases hret
      | gone hnow ret hdue =>
          obtain ⟨d, rfl⟩ := hnow
          obtain rfl : l.gone = r := by injection hret
          refine ⟨hok, ?_⟩
          cases ret with
          | ok => exact hdue.elim
          | error => exact absurd hvalid hdue
          | timedOut =>
              have hpassed : start.realtime + T ≤ start.realtime + d := hright.symm.trans_le hdue.2
              show start.monotonic + T ≤ start.monotonic + d
              omega
    · intro s pc seen hruns hpc hasleep
      cases hwithin hruns with
      | load hq =>
          obtain rfl : l.load = pc := by injection hpc
          rw [l.load_waitPc] at hasleep
          cases hasleep
      | test hq =>
          obtain rfl : l.test = pc := by injection hpc
          rw [l.test_waitPc] at hasleep
          cases hasleep
      | @wait e now ts p h =>
          obtain rfl : l.wait p = pc := by injection hpc
          rw [l.wait_waitPc, Option.some.injEq] at hasleep
          subst hasleep
          exact ⟨_, h.2.1, hvalid, hright⟩
      | gone hnow ret hdue => cases hpc

end AtomicMessageQueue
