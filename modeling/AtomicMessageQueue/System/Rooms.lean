import AtomicMessageQueue.Events.Signals
import AtomicMessageQueue.Lib.Mutex
import AtomicMessageQueue.System.Machine

/-! # The two events and those that wait for them

Reference: `shmIPC.h`, the waits in `get_block_read` and `get_block_write`; `events2.h`, `WaitForEvent`.
Readers wait for `m_signal` and writers for `m_avail`. What an access does to an event is a step of a wait
for it or an access of `SetEvent`. The mutex of an event is taken exactly while one thread is between
taking it and giving it back, by `pthread_mutex_unlock` or by falling asleep.
-/

namespace AtomicMessageQueue

open Function Transition Mutexes

variable {ι : Type*}

/-! ## Rooms -/

/-- Where a reader stands in its wait for `m_signal`. -/
def Pc.waitsSignal : Pc → Option WaitPc
  | .getBlockRead _ (.wait pc) => some pc
  | _ => none

/-- Where a writer stands in its wait for `m_avail`. -/
def Pc.waitsAvail : Pc → Option WaitPc
  | .getBlockWrite _ (.wait pc) => some pc
  | _ => none

/-- An event of the queue, with the threads that wait for it. -/
inductive Room
  | signal
  | avail
deriving DecidableEq, Repr

def Room.event : Room → MemBuff → EventT
  | .signal => MemBuff.signal
  | .avail => MemBuff.avail

def Room.wait : Room → Pc → Option WaitPc
  | .signal => Pc.waitsSignal
  | .avail => Pc.waitsAvail

/-- Where a thread stands in its wait for the event. -/
def Room.at (r : Room) (s : State ι) (t : ι) : Option WaitPc := (s.threads t).pc.bind r.wait

theorem Call.enter_wait (c : Call) (r : Room) : r.wait c.enter = none := by
  cases r <;> cases c <;> rfl

/-! ## What an access does to an event -/

/-- An access outside the waits for an event leaves it alone or is one of `SetEvent`. -/
inductive EventT.SetAccess (e : EventT) : EventT → Prop
  | same : e.SetAccess e
  | set : e.SetAccess e.setState
  | broadcast : e.SetAccess e.broadcast

theorem EventT.SetAccess.cond_le {e e' : EventT} (h : e.SetAccess e') : e.cond ≤ e'.cond := by
  cases h with
  | same => exact le_rfl
  | set => exact e.setState_cond.ge
  | broadcast => exact Nat.le_succ _

theorem EventT.SetAccess.kill_eq {e e' : EventT} (h : e.SetAccess e') : e'.kill = e.kill := by
  cases h with
  | same => rfl
  | set => exact e.setState_kill
  | broadcast => rfl

theorem EventT.SetAccess.mtx_eq {e e' : EventT} (h : e.SetAccess e') : e'.mtx = e.mtx := by
  cases h with
  | same => rfl
  | set =>
      unfold EventT.setState
      split <;> rfl
  | broadcast => rfl

/-- A wait changes neither `kill_` nor the broadcasts. -/
theorem waitForEvent_same {w : WaitEnd} {e e' : EventT} {pc : WaitPc} {o : Out WaitPc ℤ}
    (h : waitForEvent w e pc = some (e', o)) : e'.cond = e.cond ∧ e'.kill = e.kill := by
  cases pc <;> simp only [waitForEvent] at h
  case clearSet | clear =>
    cases h
    exact ⟨e.clearState_cond, e.clearState_kill⟩
  all_goals first
    | (cases h; exact ⟨rfl, rfl⟩)
    | (split at h <;> cases h; exact ⟨rfl, rfl⟩)

/-- A wait is about to sleep only after it has found `kill_` false, and asleep only after that. -/
theorem waitForEvent_sleeps {w : WaitEnd} {e e' : EventT} {pc : WaitPc} {o : Out WaitPc ℤ}
    (h : waitForEvent w e pc = some (e', o)) :
    (o.pc = some .enter → e.kill = false) ∧
      ∀ seen, o.pc = some (.asleep seen) → pc = .enter ∧ seen = e.cond := by
  cases pc with
  | testKill =>
      obtain ⟨-, rfl⟩ := Prod.mk.inj (Option.some.inj h)
      cases hkill : e.kill with
      | false => exact ⟨fun _ => rfl, fun seen ho => by cases ho⟩
      | true => exact ⟨fun ho => (by cases ho), fun seen ho => by cases ho⟩
  | enter =>
      obtain ⟨-, rfl⟩ := Prod.mk.inj (Option.some.inj h)
      refine ⟨fun ho => (by cases ho), fun seen ho => ?_⟩
      cases ho
      exact ⟨rfl, rfl⟩
  | testExit ret =>
      obtain ⟨-, rfl⟩ := Prod.mk.inj (Option.some.inj h)
      exact ⟨fun ho => (by cases ho), fun seen ho => by cases ho⟩
  | _ =>
      -- the other accesses lead neither to `.enter` nor to `.asleep`
      have hne : o.pc ≠ some .enter ∧ ∀ seen, o.pc ≠ some (.asleep seen) := by
        grind [waitForEvent, Out.pc]
      exact ⟨fun ho => absurd ho hne.1, fun seen ho => absurd ho (hne.2 seen)⟩

section Access

variable {blockSize : ℕ} {w : WaitEnd} {m m' : MemBuff} {pc : Pc} {o : Out Pc Ret} {mk : Option Mark}

/-- What an access does to the signal event, and to a wait for it. -/
theorem CodeStep.signal_cases (h : CodeStep blockSize waitForEvent w m pc m' o mk) :
    (∃ wpc wo, pc.waitsSignal = some wpc ∧ waitForEvent w m.signal wpc = some (m'.signal, wo) ∧
      o.pc.bind Pc.waitsSignal = wo.pc) ∨
    (pc.waitsSignal = none ∧ m.signal.SetAccess m'.signal ∧
      ∀ wpc, o.pc.bind Pc.waitsSignal = some wpc → wpc = .test) := by
  cases h with
  | waitSignal k wpc wpc' e access => exact .inl ⟨wpc, .next wpc', rfl, access, rfl⟩
  | retryRead k wpc e r hr access => exact .inl ⟨wpc, .ret r, rfl, access, rfl⟩
  | timeoutRead k wpc e r hr access =>
      exact .inl ⟨wpc, .ret r, rfl, access, by cases k <;> rfl⟩
  | setSignal k => exact .inr ⟨rfl, .set, nofun⟩
  | broadcastSignal k => exact .inr ⟨rfl, .broadcast, nofun⟩
  | emptyWait k i => exact .inr ⟨rfl, .same, fun wpc h => (Option.some.inj h).symm⟩
  | timeoutWrite k | claim k | leavePost k | emptyReturn k | take k | leaveReturn k =>
      refine .inr ⟨rfl, .same, fun wpc h => ?_⟩
      cases k <;> cases h
  | _ => exact .inr ⟨rfl, .same, nofun⟩

theorem CodeStep.avail_cases (h : CodeStep blockSize waitForEvent w m pc m' o mk) :
    (∃ wpc wo, pc.waitsAvail = some wpc ∧ waitForEvent w m.avail wpc = some (m'.avail, wo) ∧
      o.pc.bind Pc.waitsAvail = wo.pc) ∨
    (pc.waitsAvail = none ∧ m.avail.SetAccess m'.avail ∧
      ∀ wpc, o.pc.bind Pc.waitsAvail = some wpc → wpc = .test) := by
  cases h with
  | waitAvail k wpc wpc' e access => exact .inl ⟨wpc, .next wpc', rfl, access, rfl⟩
  | retryWrite k wpc e r hr access => exact .inl ⟨wpc, .ret r, rfl, access, rfl⟩
  | timeoutWrite k wpc e r hr access =>
      exact .inl ⟨wpc, .ret r, rfl, access, by cases k <;> rfl⟩
  | setAvail k => exact .inr ⟨rfl, .set, nofun⟩
  | broadcastAvail k => exact .inr ⟨rfl, .broadcast, nofun⟩
  | full k i => exact .inr ⟨rfl, .same, fun wpc h => (Option.some.inj h).symm⟩
  | timeoutRead k | claim k | leavePost k | emptyReturn k | take k | leaveReturn k =>
      refine .inr ⟨rfl, .same, fun wpc h => ?_⟩
      cases k <;> cases h
  | _ => exact .inr ⟨rfl, .same, nofun⟩

/-- **What an access does to an event,** and to those that wait for it. -/
theorem CodeStep.event_cases (h : CodeStep blockSize waitForEvent w m pc m' o mk) (r : Room) :
    (∃ wpc wo, r.wait pc = some wpc ∧ waitForEvent w (r.event m) wpc = some (r.event m', wo) ∧
      o.pc.bind r.wait = wo.pc) ∨
    (r.wait pc = none ∧ (r.event m).SetAccess (r.event m') ∧
      ∀ wpc, o.pc.bind r.wait = some wpc → wpc = .test) := by
  cases r with
  | signal => exact h.signal_cases
  | avail => exact h.avail_cases

theorem CodeStep.cond_le (h : CodeStep blockSize waitForEvent w m pc m' o mk) (r : Room) :
    (r.event m).cond ≤ (r.event m').cond := by
  rcases h.event_cases r with ⟨wpc, wo, -, access, -⟩ | ⟨-, hset, -⟩
  · exact (waitForEvent_same access).1.ge
  · exact hset.cond_le

theorem CodeStep.kill_eq (h : CodeStep blockSize waitForEvent w m pc m' o mk) (r : Room) :
    (r.event m').kill = (r.event m).kill := by
  rcases h.event_cases r with ⟨wpc, wo, -, access, -⟩ | ⟨-, hset, -⟩
  · exact (waitForEvent_same access).2
  · exact hset.kill_eq

/-- A thread comes to fall asleep only by finding `kill_` false. -/
theorem CodeStep.enter (h : CodeStep blockSize waitForEvent w m pc m' o mk) {r : Room}
    (ho : o.pc.bind r.wait = some .enter) : (r.event m).kill = false := by
  rcases h.event_cases r with ⟨wpc, wo, -, access, hwo⟩ | ⟨-, -, htest⟩
  · exact (waitForEvent_sleeps access).1 (hwo ▸ ho)
  · cases htest _ ho

/-- A thread that falls asleep has seen the broadcasts so far. -/
theorem CodeStep.asleep (h : CodeStep blockSize waitForEvent w m pc m' o mk) {r : Room} {seen : ℕ}
    (ho : o.pc.bind r.wait = some (.asleep seen)) :
    r.wait pc = some .enter ∧ seen = (r.event m).cond := by
  rcases h.event_cases r with ⟨wpc, wo, hwpc, access, hwo⟩ | ⟨-, -, htest⟩
  · obtain ⟨rfl, hseen⟩ := (waitForEvent_sleeps access).2 seen (hwo ▸ ho)
    exact ⟨hwpc, hseen⟩
  · cases htest _ ho

end Access

/-! ## The mutexes -/

/-- Between taking the mutex and giving it back. -/
def WaitPc.locks : WaitPc → Bool
  | .testState _ => true
  | .testKill => true
  | .enter => true
  | .unlock _ => true
  | _ => false

/-- At this program point a thread has the mutex of the event. -/
def Room.locks (r : Room) (p : Option Pc) : Bool := (p.bind r.wait).any WaitPc.locks

/-- The mutexes a thread has. -/
def locksAt (p : Option Pc) : List Room := [Room.signal, Room.avail].filter fun r => r.locks p

theorem mem_locksAt {r : Room} {p : Option Pc} : r ∈ locksAt p ↔ r.locks p = true := by
  cases r <;> simp [locksAt]

theorem locksAt_eq {r : Room} {p : Option Pc} (hothers : ∀ r', r' ≠ r → r'.locks p = false) :
    locksAt p = if r.locks p then [r] else [] := by
  cases r with
  | signal => simp [locksAt, hothers .avail, List.filter_cons]
  | avail => simp [locksAt, hothers .signal, List.filter_cons]

theorem locksAt_eq_nil {p : Option Pc} (h : ∀ r : Room, r.locks p = false) : locksAt p = [] := by
  simp only [locksAt, h, List.filter_false]

/-- An access of a wait leaves the mutex alone, takes it while it is free, or gives it back. -/
theorem waitForEvent_mutex {w : WaitEnd} {e e' : EventT} {pc : WaitPc} {o : Out WaitPc ℤ}
    (h : waitForEvent w e pc = some (e', o)) :
    (e'.mtx = e.mtx ∧ o.pc.any WaitPc.locks = pc.locks) ∨
    (pc.locks = false ∧ e.mtx = false ∧ e'.mtx = true ∧ o.pc.any WaitPc.locks = true) ∨
    (pc.locks = true ∧ e'.mtx = false ∧ o.pc.any WaitPc.locks = false) := by
  cases pc <;> simp only [waitForEvent] at h
  case lock | relock =>
    split at h
    · cases h
    next hmtx =>
      cases h
      exact .inr (.inl ⟨rfl, by simpa using hmtx, rfl, rfl⟩)
  case enter | unlock =>
    cases h
    exact .inr (.inr ⟨rfl, rfl, rfl⟩)
  case clearSet | clear =>
    cases h
    refine .inl ⟨?_, rfl⟩
    unfold EventT.clearState
    split <;> rfl
  case asleep =>
    split at h <;> cases h
    exact .inl ⟨rfl, rfl⟩
  case testExit =>
    cases h
    exact .inl ⟨rfl, rfl⟩
  all_goals
    cases h
    refine .inl ⟨rfl, ?_⟩
    simp only [Out.pc, Option.any_some]
    split <;> rfl

section Locks

variable {blockSize : ℕ} {w : WaitEnd} {m m' : MemBuff} {pc : Pc} {o : Out Pc Ret} {mk : Option Mark}

/-- A thread waits for one event at a time. -/
theorem Room.wait_unique {r r' : Room} {wpc : WaitPc} (h : r.wait pc = some wpc) (hne : r' ≠ r) :
    r'.wait pc = none := by
  cases pc with
  | getBlockRead k p | getBlockWrite k p => cases r <;> cases r' <;> first | contradiction | rfl
  | _ => cases r <;> cases h

/-- Outside the waits for an event its mutex is left alone. -/
theorem CodeStep.unlocked (h : CodeStep blockSize waitForEvent w m pc m' o mk) {r : Room}
    (hr : r.wait pc = none) : r.locks (some pc) = false ∧ r.locks o.pc = false ∧
      (r.event m').mtx = (r.event m).mtx := by
  rcases h.event_cases r with ⟨wpc, wo, hwait, -, -⟩ | ⟨-, hset, htest⟩
  · rw [hr] at hwait
    cases hwait
  · refine ⟨by rw [Room.locks, Option.bind_some, hr]; rfl, ?_, hset.mtx_eq⟩
    unfold Room.locks
    cases hwait : o.pc.bind r.wait with
    | none => rfl
    | some wpc =>
        obtain rfl := htest wpc hwait
        rfl

/-- An access of a wait for the event changes the owner of its mutex, and those of no other. -/
theorem waitForEvent_change {r : Room} {e e' : EventT} {wpc : WaitPc} {wo : Out WaitPc ℤ}
    (h : waitForEvent w e wpc = some (e', wo)) (t : ι) {owner : Room → Option ι}
    (hown : e.mtx = (owner r).isSome) :
    ∃ x : Option ι, Change t owner (if wpc.locks then [r] else []) (update owner r x)
      (if wo.pc.any WaitPc.locks then [r] else []) ∧ e'.mtx = x.isSome := by
  rcases waitForEvent_mutex h with ⟨hsame, hlocks⟩ | ⟨hfree, hmtx, htaken, hlocks⟩ |
    ⟨hheld, hgiven, hlocks⟩
  · exact ⟨owner r, .keep (update_eq_self r owner) (by rw [hlocks]), hsame.trans hown⟩
  · have hnone : owner r = none := by
      rw [hown] at hmtx
      simpa using hmtx
    rw [hfree, hlocks]
    exact ⟨some t, .acquire r hnone rfl rfl, htaken⟩
  · rw [hheld, hlocks]
    exact ⟨none, .release r rfl rfl List.not_mem_nil, hgiven⟩

/-- **What an access does to the mutexes,** told in their owners. -/
theorem CodeStep.mutexes (h : CodeStep blockSize waitForEvent w m pc m' o mk) (t : ι)
    {owner : Room → Option ι} (hown : ∀ r, (r.event m).mtx = (owner r).isSome) :
    ∃ owner', Change t owner (locksAt (some pc)) owner' (locksAt o.pc) ∧
      ∀ r, (r.event m').mtx = (owner' r).isSome := by
  by_cases hwaits : ∃ (r : Room) (wpc : WaitPc), r.wait pc = some wpc
  · obtain ⟨r, wpc, hr⟩ := hwaits
    have hothers : ∀ r', r' ≠ r → r'.locks (some pc) = false ∧ r'.locks o.pc = false ∧
        (r'.event m').mtx = (r'.event m).mtx := fun r' hne => h.unlocked (Room.wait_unique hr hne)
    obtain ⟨wo, access, hwo⟩ : ∃ wo, waitForEvent w (r.event m) wpc = some (r.event m', wo) ∧
        o.pc.bind r.wait = wo.pc := by
      rcases h.event_cases r with ⟨wpc', wo, hwait, access, hwo⟩ | ⟨hnone, -, -⟩
      · obtain rfl : wpc = wpc' := Option.some.inj (hr.symm.trans hwait)
        exact ⟨wo, access, hwo⟩
      · rw [hr] at hnone
        cases hnone
    have hbefore : r.locks (some pc) = wpc.locks := by rw [Room.locks, Option.bind_some, hr]; rfl
    have hafter : r.locks o.pc = wo.pc.any WaitPc.locks := by rw [Room.locks, hwo]
    rw [locksAt_eq fun r' hne => (hothers r' hne).1, locksAt_eq fun r' hne => (hothers r' hne).2.1,
      hbefore, hafter]
    obtain ⟨x, hchange, hmtx⟩ := waitForEvent_change (r := r) access t (hown r)
    refine ⟨update owner r x, hchange, fun r' => ?_⟩
    by_cases hne : r' = r
    · subst hne
      rw [update_self, hmtx]
    · rw [update_of_ne hne, (hothers r' hne).2.2, hown r']
  · have hnone : ∀ r : Room, r.wait pc = none := fun r => by
      cases hr : r.wait pc with
      | none => rfl
      | some wpc => exact absurd ⟨r, wpc, hr⟩ hwaits
    rw [locksAt_eq_nil fun r => (h.unlocked (hnone r)).1, locksAt_eq_nil fun r => (h.unlocked (hnone r)).2.1]
    exact ⟨owner, .keep rfl rfl, fun r => (h.unlocked (hnone r)).2.2.trans (hown r)⟩

end Locks

/-- The mutexes are held by the threads whose program point says so. -/
def Owned (m : MemBuff) (threads : ι → Local) : Prop :=
  ∃ owner : Room → Option ι, Agree owner (fun t => locksAt (threads t).pc) ∧
    ∀ r, (r.event m).mtx = (owner r).isSome

theorem owned_free {m : MemBuff} {threads : ι → Local} (hfree : ∀ r : Room, (r.event m).mtx = false)
    (hout : ∀ t, (threads t).pc = none) : Owned m threads := by
  refine ⟨fun _ => none, ?_, hfree⟩
  have hnothing : (fun t => locksAt (threads t).pc) = fun _ => [] := by
    funext t
    rw [hout t]
    rfl
  rw [hnothing]
  exact agree_free

section Owners

variable {m : MemBuff} {threads : ι → Local}

/-- A mutex is taken exactly if a thread has it, and no two threads have it. -/
theorem Owned.mutex (h : Owned m threads) (r : Room) :
    ((r.event m).mtx = true ↔ ∃ t, r.locks (threads t).pc = true) ∧
      ∀ t u, r.locks (threads t).pc = true → r.locks (threads u).pc = true → t = u := by
  obtain ⟨owner, hagree, hmtx⟩ := h
  refine ⟨?_, fun t u ht hu => hagree.unique (mem_locksAt.mpr ht) (mem_locksAt.mpr hu)⟩
  rw [hmtx r, Option.isSome_iff_exists]
  exact exists_congr fun t => (hagree r t).trans mem_locksAt

variable [DecidableEq ι]

theorem locksAt_update (threads : ι → Local) (t : ι) (l : Local) :
    (fun u => locksAt (update threads t l u).pc) =
      update (fun u => locksAt (threads u).pc) t (locksAt l.pc) := by
  funext u
  exact apply_update (fun _ (l : Local) => locksAt l.pc) threads t l u

/-- **Step lemma of the mutexes.** -/
theorem Owned.step {cfg : Config ι} {s s' : State ι} {a : ι × Choice} (h : Owned s.mem s.threads)
    (hwait : cfg.wait = waitForEvent) (hs : step cfg s a = some s') : Owned s'.mem s'.threads := by
  obtain ⟨t, ch⟩ := a
  obtain ⟨owner, hagree, hmtx⟩ := h
  rcases step_cases hs with ⟨c, rfl, hpc, -, -, rfl⟩ | ⟨w, pc, m', o, mk, rfl, hpc, hcode, rfl⟩
  · refine ⟨owner, ?_, hmtx⟩
    have hnothing : locksAt (some c.enter) = locksAt (s.threads t).pc := by
      rw [hpc]
      exact locksAt_eq_nil fun r => by rw [Room.locks, Option.bind_some, c.enter_wait]; rfl
    rw [locksAt_update, hnothing, update_eq_self]
    exact hagree
  · rw [hwait] at hcode
    obtain ⟨owner', hchange, hmtx'⟩ := hcode.mutexes t hmtx
    refine ⟨owner', ?_, hmtx'⟩
    rw [locksAt_update]
    exact hagree.change (by rw [hpc]; exact hchange)

end Owners

/-! ## Threads that can go on -/

/-- The next access of the wait takes the mutex. -/
def WaitPc.takes : WaitPc → Bool
  | .lock => true
  | .relock _ => true
  | _ => false

/-- At this program point a thread needs the mutex of the event to go on. -/
def Room.wants (r : Room) (p : Option Pc) : Bool := (p.bind r.wait).any WaitPc.takes

/-- The thread is not asleep in a wait. -/
def Pc.Awake (pc : Pc) : Prop := ∀ (r : Room) (seen : ℕ), r.wait pc ≠ some (.asleep seen)

theorem waitForEvent_isSome {e : EventT} {wpc : WaitPc} (hawake : ∀ seen, wpc ≠ .asleep seen)
    (hfree : wpc.takes = true → e.mtx = false) : (waitForEvent .wake e wpc).isSome = true := by
  cases wpc with
  | asleep seen => exact absurd rfl (hawake seen)
  | lock | relock ret =>
      have hmtx := hfree rfl
      simp [waitForEvent, hmtx]
  | _ => rfl

section Unhindered

variable {m : MemBuff} {pc : Pc}

/-- A thread in a wait makes the accesses of the wait. -/
theorem codeStep_of_wait (blockSize : ℕ) {w : WaitEnd} {r : Room} {wpc : WaitPc}
    (hwait : r.wait pc = some wpc) (h : (waitForEvent w (r.event m) wpc).isSome = true) :
    (codeStep blockSize waitForEvent w m pc).isSome = true := by
  cases r with
  | signal =>
      cases pc with
      | getBlockRead k p =>
          cases p with
          | wait wpc' =>
              cases hwait
              simp only [codeStep, getBlockReadStep, Option.isSome_map]
              exact h
          | _ => cases hwait
      | _ => cases hwait
  | avail =>
      cases pc with
      | getBlockWrite k p =>
          cases p with
          | wait wpc' =>
              cases hwait
              simp only [codeStep, getBlockWriteStep, Option.isSome_map]
              exact h
          | _ => cases hwait
      | _ => cases hwait

/-- A thread that is awake and needs no mutex that is taken can make its next access. -/
theorem codeStep_isSome (blockSize : ℕ) (hawake : pc.Awake)
    (hfree : ∀ r : Room, r.wants (some pc) = true → (r.event m).mtx = false) :
    (codeStep blockSize waitForEvent .wake m pc).isSome = true := by
  by_cases hwaits : ∃ (r : Room) (wpc : WaitPc), r.wait pc = some wpc
  · obtain ⟨r, wpc, hwait⟩ := hwaits
    refine codeStep_of_wait blockSize hwait (waitForEvent_isSome (fun seen h => ?_) fun h => hfree r ?_)
    · exact hawake r seen (h ▸ hwait)
    · rw [Room.wants, Option.bind_some, hwait]
      exact h
  · cases pc with
    | getBlockWrite k p =>
        simp only [codeStep, Option.isSome_map]
        cases p with
        | wait wpc => exact absurd ⟨.avail, wpc, rfl⟩ hwaits
        | load => rfl
        | test i | cas i =>
            simp only [getBlockWriteStep]
            split <;> rfl
    | getBlockRead k p =>
        simp only [codeStep, Option.isSome_map]
        cases p with
        | wait wpc => exact absurd ⟨.signal, wpc, rfl⟩ hwaits
        | load => rfl
        | test i | cas i =>
            simp only [getBlockReadStep]
            split <;> rfl
    | copyIn | copyOut =>
        simp only [codeStep]
        split <;> rfl
    | _ => rfl

/-- A thread waits for the event and stands where `f` says. -/
theorem Room.exists_wait {r : Room} {p : Option Pc} {f : WaitPc → Bool}
    (h : (p.bind r.wait).any f = true) :
    ∃ pc wpc, p = some pc ∧ r.wait pc = some wpc ∧ f wpc = true := by
  obtain ⟨wpc, hwpc, hf⟩ := (Option.any_eq_true _ _).mp h
  obtain ⟨pc, hpc, hwait⟩ := Option.bind_eq_some_iff.mp hwpc
  exact ⟨pc, wpc, hpc, hwait, hf⟩

theorem Room.awake_of_wait {r : Room} {wpc : WaitPc} (h : r.wait pc = some wpc)
    (hne : ∀ seen, wpc ≠ .asleep seen) : pc.Awake := by
  intro r' seen hr'
  by_cases heq : r' = r
  · subst heq
    exact hne seen (Option.some.inj (h.symm.trans hr'))
  · rw [Room.wait_unique h heq] at hr'
    cases hr'

/-- A thread that has a mutex needs none. -/
theorem Room.not_wants_of_locks {r r' : Room} {p : Option Pc} (h : r.locks p = true) :
    r'.wants p = false := by
  obtain ⟨pc, wpc, rfl, hwait, hlocks⟩ := Room.exists_wait h
  unfold Room.wants
  by_cases heq : r' = r
  · subst heq
    rw [Option.bind_some, hwait]
    cases wpc <;> first | rfl | cases hlocks
  · rw [Option.bind_some, Room.wait_unique hwait heq]
    rfl

/-- **Somebody can go on** while a thread inside the methods is awake. -/
theorem Owned.exists_unhindered {threads : ι → Local} (h : Owned m threads) (blockSize : ℕ) {t : ι}
    (hpc : (threads t).pc = some pc) (hawake : pc.Awake) :
    ∃ u q, (threads u).pc = some q ∧ q.Awake ∧
      (codeStep blockSize waitForEvent .wake m q).isSome = true := by
  by_cases hfree : ∀ r : Room, r.wants (some pc) = true → (r.event m).mtx = false
  · exact ⟨t, pc, hpc, hawake, codeStep_isSome blockSize hawake hfree⟩
  · obtain ⟨owner, hagree, hmtx⟩ := h
    simp only [not_forall] at hfree
    obtain ⟨r, hwants, -⟩ := hfree
    -- nobody has a mutex while it needs one: the order of the mutexes does not matter
    obtain ⟨u, ⟨j, hj, hnone⟩ | ⟨hheld, hnowants⟩⟩ := hagree.exists_unblocked
      (fun t r => r.wants (threads t).pc = true) (fun _ => 0) 0 (fun _ _ _ => le_rfl)
      (fun u k k' hk hk' => absurd hk' (by
        rw [Room.not_wants_of_locks (mem_locksAt.mp hk)]
        decide)) (show r.wants (threads t).pc = true by rw [hpc]; exact hwants)
    · obtain ⟨q, wpc, hq, hwait, htakes⟩ := Room.exists_wait hj
      have hq' : q.Awake := Room.awake_of_wait hwait fun seen h => by
        subst h
        cases htakes
      refine ⟨u, q, hq, hq', codeStep_isSome blockSize hq' fun r' hr' => ?_⟩
      obtain ⟨q', wpc', heq, hwait', -⟩ := Room.exists_wait hr'
      cases heq
      by_cases hrj : r' = j
      · rw [hrj, hmtx, hnone]
        rfl
      · rw [Room.wait_unique hwait hrj] at hwait'
        cases hwait'
    · obtain ⟨k, hk⟩ := List.exists_mem_of_ne_nil _ hheld
      obtain ⟨q, wpc, hq, hwait, hlocks⟩ := Room.exists_wait (mem_locksAt.mp hk)
      have hq' : q.Awake := Room.awake_of_wait hwait fun seen h => by
        subst h
        cases hlocks
      exact ⟨u, q, hq, hq', codeStep_isSome blockSize hq' fun r' hr' => absurd (hq ▸ hr') (hnowants r')⟩

theorem step_of_code [DecidableEq ι] {cfg : Config ι} {s : State ι} {t : ι} {w : WaitEnd}
    (hpc : (s.threads t).pc = some pc)
    (hcode : (codeStep cfg.blockSize cfg.wait w s.mem pc).isSome = true) :
    ∃ s', step cfg s (t, .run w) = some s' := by
  obtain ⟨⟨m', o, mk⟩, hcode⟩ := Option.isSome_iff_exists.mp hcode
  simp only [step, hpc, hcode]
  exact ⟨_, rfl⟩

end Unhindered

end AtomicMessageQueue
