import AtomicMessageQueue.Pevents.Lifetimes

/-! # What the waiting calls are given

A call that waits for several events registers with those it does not find set, and is given each event by
itself or by `SetEvent`. `Dealing` lists what a step can do to the registrations, to what has been given
and to the status of the calls; the rest of what steps do does not bear on it.
-/

namespace AtomicMessageQueue.Pevents

open Function Mutexes

/-! ## Registrations and what was given -/

/-- How many registrations of event `e` that have not been dealt with are `info`. -/
def Memory.live {ι : Type*} (m : Memory ι) (e : ℕ) (info : WfmoInfo) : ℕ :=
  (m.events e).liveCount fun other => other = info

/-- How often the call with block `w` has obtained event `e` as its `events[i]`. -/
def given (hist : List Mark) (e w i : ℕ) : ℕ := hist.count (.obtainFor e w i)

/-- What of a block decides on its call's result. -/
def Wfmo.standing (b : Wfmo) : ℤ × Bool × Bool := (b.status, b.waitAll, b.stillWaiting)

theorem Wfmo.eq_of_standing {b b' : Wfmo} (h : b'.standing = b.standing) :
    b'.status = b.status ∧ b'.waitAll = b.waitAll ∧ b'.stillWaiting = b.stillWaiting := by
  simpa [Wfmo.standing] using h

section Live

variable {ι : Type*} {m m' : Memory ι} {e : ℕ} {ev : PEvent} {info : WfmoInfo}

/-- One event changes in a way that does not count. -/
theorem Memory.live_same (hm : m'.events = update m.events e ev)
    (hev : ∀ p, ev.liveCount p = (m.events e).liveCount p) (d : ℕ) (other : WfmoInfo) :
    m'.live d other = m.live d other := by
  unfold Memory.live
  rw [hm]
  by_cases hde : d = e
  · rw [hde, update_self, hev]
  · rw [update_of_ne hde]

/-- One event has a registration more than before. -/
theorem Memory.live_add (hm : m'.events = update m.events e ev)
    (hev : ∀ p, ev.liveCount p = (m.events e).liveCount p + (p info).toNat) (d : ℕ)
    (other : WfmoInfo) :
    m'.live d other = m.live d other + if d = e ∧ other = info then 1 else 0 := by
  unfold Memory.live
  rw [hm]
  by_cases hde : d = e
  · rw [hde, update_self, hev]
    by_cases ho : other = info
    · simp [ho]
    · simp [ho, Ne.symm ho]
  · rw [update_of_ne hde]
    simp [hde]

/-- One event has a registration less than before. -/
theorem Memory.live_sub (hm : m'.events = update m.events e ev)
    (hev : ∀ p, ev.liveCount p + (p info).toNat = (m.events e).liveCount p) (d : ℕ)
    (other : WfmoInfo) :
    (m'.live d other + if d = e ∧ other = info then 1 else 0) = m.live d other := by
  unfold Memory.live
  rw [hm]
  by_cases hde : d = e
  · rw [hde, update_self, ← hev]
    by_cases ho : other = info
    · simp [ho]
    · simp [ho, Ne.symm ho]
  · rw [update_of_ne hde]
    simp [hde]

/-- The registration `SetEvent` comes to next has not been dealt with. -/
theorem Memory.live_pos {i : ℕ} (hc : (m.events e).counted = i)
    (hi : (m.events e).registeredWaits[i]? = some info) : 0 < m.live e info := by
  refine List.countP_pos_iff.mpr ⟨info, ?_, by simp⟩
  rw [PEvent.live, hc]
  exact List.mem_of_getElem? (i := 0) (by rw [List.getElem?_drop]; exact hi)

/-- A step gives a call an event if its mark says so. -/
theorem given_append (mk : Option Mark) (hist : List Mark) (e w i : ℕ) :
    given (mk.toList ++ hist) e w i =
      given hist e w i + if mk = some (.obtainFor e w i) then 1 else 0 := by
  unfold given
  cases mk with
  | none => simp
  | some mk =>
      rw [Option.toList_some, List.singleton_append, List.count_cons]
      simp

theorem given_cons (hist : List Mark) (d v k e w i : ℕ) :
    given (.obtainFor d v k :: hist) e w i =
      given hist e w i + if e = d ∧ w = v ∧ i = k then 1 else 0 := by
  rw [given, List.count_cons, given]
  congr 1
  refine if_congr ⟨fun h => ?_, ?_⟩ rfl rfl
  · cases eq_of_beq h
    exact ⟨rfl, rfl, rfl⟩
  · rintro ⟨rfl, rfl, rfl⟩
    exact beq_self_eq_true _

end Live

/-! ## The phases of a waiting call -/

/-- How far a call is that waits for several events. -/
inductive Phase
  /-- it has dealt with the events below `i` of its array -/
  | registering (i : ℕ)
  | waiting
  | leaving (result : WaitResult)
deriving DecidableEq, Repr

/-- The block and the phase of a call. -/
def MultiplePc.phase : MultiplePc → Option (ℕ × Phase)
  | .lockOwn w => some (w, .registering 0)
  | .lockEvent w i | .sweep w i _ | .expired w i _ _ | .destroyExpired w i _ _ | .check w i =>
      some (w, .registering i)
  | .testDone w | .asleep w | .relock w _ => some (w, .waiting)
  | .leave w r => some (w, .leaving r)
  | .create | .destroyOwn _ _ _ => none

/-- The arguments, the block and the phase of a call. -/
def Pc.phase : Pc → Option (WaitCall × ℕ × Phase)
  | .multiple c pc => pc.phase.map fun (w, ph) => (c, w, ph)
  | _ => none

variable {c : WaitCall} {w : ℕ} {ph : Phase} {pc : Pc}

theorem Pc.own_of_phase (h : pc.phase = some (c, w, ph)) : pc.own = some w := by
  cases pc with
  | multiple c' pc =>
      cases pc <;> simp_all [Pc.phase, MultiplePc.phase, Pc.own]
  | _ => cases h

theorem Pc.exists_phase (h : pc.own = some w) : ∃ c ph, pc.phase = some (c, w, ph) := by
  cases pc with
  | multiple c pc =>
      cases pc <;> cases h <;> exact ⟨c, _, rfl⟩
  | _ => cases h

/-- Once it has taken it, a call gives up the mutex of its block to wait, and only then. -/
theorem Pc.held_of_phase (h : pc.phase = some (c, w, ph)) :
    .waiter w ∈ pc.held ∨ ph = .registering 0 ∨ ph = .waiting := by
  cases pc with
  | multiple c' pc =>
      cases pc <;> simp_all [Pc.phase, MultiplePc.phase, Pc.held]
  | _ => cases h

/-! ## Dealings -/

/-- What a step does to the registrations, the status of the calls and the phase of its own. -/
inductive Dealing {ι : Type*} (m m' : Memory ι) : Pc → Option Pc → Option Mark → Prop
  | create (c : WaitCall) (hm : m' = m.new c.wfmo) :
      Dealing m m' (.multiple c .create) (some (.multiple c (.lockOwn m.allocated))) none
  | register (c : WaitCall) (w i : ℕ)
      (live : ∀ d info, m'.live d info =
        m.live d info + if d = c.events + i ∧ info = ⟨w, i⟩ then 1 else 0)
      (standing : ∀ v, (m'.waiters v).standing = (m.waiters v).standing) :
      Dealing m m' (.multiple c (.check w i)) (some (.multiple c (.lockEvent w (i + 1)))) none
  | found (c : WaitCall) (w i : ℕ) (live : ∀ d info, m'.live d info = m.live d info)
      (hw : m'.waiters = update m.waiters w ((m.waiters w).found c.waitAll i)) :
      Dealing m m' (.multiple c (.check w i))
        (some (.multiple c (if c.waitAll then .lockEvent w (i + 1) else .leave w .ok)))
        (some (.obtainFor (c.events + i) w i))
  | serve (e i : ℕ) (info : WfmoInfo) (still : (m.waiters info.waiter).stillWaiting = true)
      (live : ∀ d other, (m'.live d other + if d = e ∧ other = info then 1 else 0) =
        m.live d other)
      (hw : m'.waiters =
        update m.waiters info.waiter ((m.waiters info.waiter).dropRef.fire info.waitIndex)) :
      Dealing m m' (.set e (.serve i info)) (some (.set e (.notify i info.waiter)))
        (some (.obtainFor e info.waiter info.waitIndex))
  | drop (e : ℕ) (info : WfmoInfo) (still : (m.waiters info.waiter).stillWaiting = false)
      (live : ∀ d other, (m'.live d other + if d = e ∧ other = info then 1 else 0) =
        m.live d other)
      (standing : ∀ v, (m'.waiters v).standing = (m.waiters v).standing) (pc : Pc)
      (pc' : Option Pc) (phase : pc'.bind Pc.phase = pc.phase) : Dealing m m' pc pc' none
  | leave (c : WaitCall) (w : ℕ) (r : WaitResult) (live : ∀ d info, m'.live d info = m.live d info)
      (hw : m'.waiters = update m.waiters w (m.waiters w).leave) (pc' : Option Pc)
      (phase : pc'.bind Pc.phase = none) :
      Dealing m m' (.multiple c (.leave w r)) pc' (some (.leave w c r (m.waiters w).status))
  | other (live : ∀ d info, m'.live d info = m.live d info)
      (standing : ∀ v, (m'.waiters v).standing = (m.waiters v).standing) (pc : Pc)
      (pc' : Option Pc) (mk : Option Mark)
      (phase : pc'.bind Pc.phase = pc.phase ∨
        (∃ c w i, pc = .multiple c (.lockEvent w i) ∧ c.count ≤ i ∧
          pc' = some (.multiple c (if c.milliseconds = 0 then .leave w .timedOut else .testDone w))) ∨
        (∃ c w, pc = .multiple c (.testDone w) ∧ c.done (m.waiters w).status = true ∧
          pc' = some (.multiple c (.leave w .ok))) ∨
        ∃ c w r, pc = .multiple c (.relock w r) ∧ r ≠ .ok ∧ pc' = some (.multiple c (.leave w r)))
      (given : ∀ e w i, mk ≠ some (.obtainFor e w i))
      (left : ∀ w c r waitIndex, mk ≠ some (.leave w c r waitIndex)) : Dealing m m' pc pc' mk

section Step

variable {ι : Type*} {m m' : Memory ι} {pc' : Option Pc} {mk : Option Mark}

/-- A step that changes neither the registrations that count nor the status of any call. -/
private theorem Dealing.of_same {e : ℕ} {ev : PEvent} (hm : m'.events = update m.events e ev)
    (hev : ∀ p, ev.liveCount p = (m.events e).liveCount p) (hw : m'.waiters = m.waiters)
    (hphase : pc'.bind Pc.phase = pc.phase) (hgiven : ∀ e w i, mk ≠ some (.obtainFor e w i))
    (hleft : ∀ w c r waitIndex, mk ≠ some (.leave w c r waitIndex)) : Dealing m m' pc pc' mk :=
  .other (Memory.live_same hm hev) (fun v => by rw [hw]) pc pc' mk (.inl hphase) hgiven hleft

/-- A step of a call from one phase to the next. -/
private theorem Dealing.of_phase (hm : m'.events = m.events) (hw : m'.waiters = m.waiters)
    (hphase : pc'.bind Pc.phase = pc.phase ∨
      (∃ c w i, pc = .multiple c (.lockEvent w i) ∧ c.count ≤ i ∧
        pc' = some (.multiple c (if c.milliseconds = 0 then .leave w .timedOut else .testDone w))) ∨
      (∃ c w, pc = .multiple c (.testDone w) ∧ c.done (m.waiters w).status = true ∧
        pc' = some (.multiple c (.leave w .ok))) ∨
      ∃ c w r, pc = .multiple c (.relock w r) ∧ r ≠ .ok ∧ pc' = some (.multiple c (.leave w r))) :
    Dealing m m' pc pc' none :=
  .other (fun d info => by rw [Memory.live, Memory.live, hm]) (fun v => by rw [hw]) pc pc' none hphase
    (fun _ _ _ => by simp) fun _ _ _ _ => by simp

/-- Only the count of one block changes. -/
theorem Memory.standing_update (w : ℕ) (f : Wfmo → Wfmo)
    (hw : m'.waiters = update m.waiters w (f (m.waiters w))) (hf : ∀ b, (f b).standing = b.standing)
    (v : ℕ) : (m'.waiters v).standing = (m.waiters v).standing := by
  rw [hw]
  by_cases hv : v = w
  · rw [hv, update_self, hf]
  · rw [update_of_ne hv]

variable [DecidableEq ι] {t : ι} {ch : Chance}

/-- **What a step deals with.** -/
theorem Access.dealing (h : Access t ch m pc m' pc' mk) (hknows : pc.Knows m) :
    Dealing m m' pc pc' mk := by
  cases h with
  | create c => exact .create c rfl
  | register c w i hs =>
      exact .register c w i (Memory.live_add rfl fun p => PEvent.liveCount_register p hknows)
        (Memory.standing_update w Wfmo.addRef rfl fun _ => rfl)
  | found c w i hs pc' hpc' =>
      subst hpc'
      exact .found c w i (Memory.live_same rfl fun _ => rfl) rfl
  | sweepDrop c w i k info hs pc' hpc' =>
      refine .drop (c.events + i) info hs
        (Memory.live_sub rfl fun p => PEvent.liveCount_remove p hknows.1 hknows.2.2)
        (Memory.standing_update info.waiter Wfmo.dropRef rfl fun _ => rfl) _ _ ?_
      subst hpc'
      split <;> rfl
  | leave c w r pc' hpc' =>
      have hlive : ∀ d info, ((m.setWaiter w Wfmo.leave).unlock (.waiter w)).live d info =
          m.live d info := fun _ _ => rfl
      refine .leave c w r hlive rfl _ ?_
      subst hpc'
      split <;> rfl
  | serve e i info hs =>
      refine .serve e i info hs (Memory.live_sub rfl fun p => ?_) rfl
      rw [PEvent.liveCount_give]
      exact PEvent.liveCount_countOff p (hknows.2.1 ▸ hknows.2.2.2)
  | dropLast e i info hs hr =>
      exact .drop e info hs
        (Memory.live_sub rfl fun p => PEvent.liveCount_countOff p (hknows.2.1 ▸ hknows.2.2.2))
        (Memory.standing_update info.waiter Wfmo.dropRef rfl fun _ => rfl) _ _ rfl
  | drop e i info hs hr =>
      refine .drop e info hs (Memory.live_sub rfl fun p => ?_)
        (Memory.standing_update info.waiter Wfmo.dropRef rfl fun _ => rfl) _ _ rfl
      rw [PEvent.liveCount_pass p (Nat.succ_ne_zero _)]
      exact PEvent.liveCount_countOff p (hknows.2.1 ▸ hknows.2.2.2)
  | loopEnd c w i hi pc' hpc' =>
      subst hpc'
      exact .of_phase rfl rfl (.inr (.inl ⟨c, w, i, rfl, hi, rfl⟩))
  | done c w hd => exact .of_phase rfl rfl (.inr (.inr (.inl ⟨c, w, rfl, hd, rfl⟩)))
  | relock c w r hfree pc' hpc' =>
      subst hpc'
      by_cases hr : r = .ok
      · rw [if_pos hr]
        exact .of_phase rfl rfl (.inl rfl)
      · rw [if_neg hr]
        exact .of_phase rfl rfl (.inr (.inr (.inr ⟨c, w, r, rfl, hr, rfl⟩)))
  | waitObtain e ms pc hpc hs =>
      exact .of_same rfl (fun _ => rfl) rfl rfl (fun _ _ _ => by simp) fun _ _ _ _ => by simp
  | store e | reset e =>
      exact .of_same rfl (fun _ => rfl) rfl rfl (fun _ _ _ => by simp) fun _ _ _ _ => by simp
  | scanManual e i hi ha =>
      exact .of_same rfl (fun p => PEvent.liveCount_clear p (hknows.2.1 ▸ hi)) rfl rfl
        (fun _ _ _ => by simp) fun _ _ _ _ => by simp
  | destroy e i w | notify e i w pc' hpc' =>
      have hcounted : (m.events e).counted ≠ 0 := by
        rw [hknows.2.1]
        exact Nat.succ_ne_zero i
      exact .of_same rfl (fun p => PEvent.liveCount_pass p hcounted) rfl rfl (fun _ _ _ => by simp)
        fun _ _ _ _ => by simp
  | _ => exact .of_phase rfl rfl (.inl rfl)

end Step

end AtomicMessageQueue.Pevents
