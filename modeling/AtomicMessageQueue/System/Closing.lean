import AtomicMessageQueue.Sequential.Closed
import AtomicMessageQueue.System.Laps
import AtomicMessageQueue.System.Rooms

/-! # Closing a queue in use

Reference: `shmIPC.h`, `ShmQueue::close`, as far as it stores into the shared memory; `events2.h`,
`DestroyEvent`. Any number of processes close the queue at any time, one shared access at a time, while
the threads of others go on using it. The ring stays as safe as it was. `DestroyEvent` takes no mutex, so
a thread that has tested `kill_` and not yet fallen asleep misses the broadcast; unless that happens, a
closed queue lets nobody sleep.
-/

namespace AtomicMessageQueue

open Function Transition

variable {κ ι : Type*}

/-! ## `close`, access by access -/

/-- Program points of `close`. -/
inductive ClosePc
  /-- `DestroyEvent(&m_pBuffer->m_signal);` -/
  | signal (pc : DestroyEventPc)
  /-- `DestroyEvent(&m_pBuffer->m_avail);` -/
  | avail (pc : DestroyEventPc)
deriving DecidableEq, Repr

/-- `close`. -/
def closeAccess (m : MemBuff) : ClosePc → MemBuff × Out ClosePc Unit
  | .signal pc =>
      let (e, o) := destroyEvent m.signal pc
      ({ m with signal := e }, match o with
        | .next pc' => .next (.signal pc')
        | .ret _ => .next (.avail .kill))
  | .avail pc =>
      let (e, o) := destroyEvent m.avail pc
      ({ m with avail := e }, o.map .avail id)

/-- A process that closes the queue; it unmaps the buffer at the end. -/
inductive Closer
  | mapped
  | closing (pc : ClosePc)
  | closed
deriving DecidableEq, Repr

/-- The process after an access of its `close`. -/
def Out.closer : Out ClosePc Unit → Closer
  | .next pc => .closing pc
  | .ret _ => .closed

/-- The threads and the buffer, and the processes that may close the queue. -/
structure ClosingState (κ ι : Type*) where
  queue : State ι
  closers : κ → Closer

/-- What happens next: a thread makes a step, or a process calls `close` or goes on with it. -/
inductive ClosingAction (κ ι : Type*)
  | queue (a : ι × Choice)
  | close (p : κ)

section Step

variable [DecidableEq κ] [DecidableEq ι]

/-- One step of the system. -/
def closingStep (cfg : Config ι) (s : ClosingState κ ι) : ClosingAction κ ι → Option (ClosingState κ ι)
  | .queue a => (step cfg s.queue a).map fun q => { s with queue := q }
  | .close p =>
      match s.closers p with
      | .mapped => some { s with closers := update s.closers p (.closing (.signal .kill)) }
      | .closing pc =>
          let (m, o) := closeAccess s.queue.mem pc
          some { queue := { s.queue with mem := m }, closers := update s.closers p o.closer }
      | .closed => none

/-- Nobody has called `close`. -/
def closingStart (cfg : Config ι) : ClosingState κ ι where
  queue := start cfg
  closers := fun _ => .mapped

/-- What is noted of a step of a thread; a process that closes the queue makes no attempt on a cursor. -/
def closingNote (s : ClosingState κ ι) (a : ClosingAction κ ι) (n : Notes ι) : Notes ι :=
  match a with
  | .queue a => note s.queue a n
  | .close _ => n

/-- The states reached, with what is noted of the run. -/
abbrev ClosingNoted (cfg : Config ι)
    (ok : ClosingState κ ι × Notes ι → ClosingAction κ ι → Prop) : ClosingState κ ι × Notes ι → Prop :=
  Reach (noted (closingStep cfg) closingNote) ok (closingStart cfg, .start)

/-- **Inversion of a step.** -/
theorem closingStep_cases {cfg : Config ι} {s s' : ClosingState κ ι} {a : ClosingAction κ ι}
    (h : closingStep cfg s a = some s') :
    (∃ b q, a = .queue b ∧ step cfg s.queue b = some q ∧ s' = { s with queue := q }) ∨
    (∃ p, a = .close p ∧ s.closers p = .mapped ∧
      s' = { s with closers := update s.closers p (.closing (.signal .kill)) }) ∨
    ∃ p pc, a = .close p ∧ s.closers p = .closing pc ∧
      s' = { queue := { s.queue with mem := (closeAccess s.queue.mem pc).1 }
             closers := update s.closers p (closeAccess s.queue.mem pc).2.closer } := by
  cases a with
  | queue b =>
      obtain ⟨q, hq, rfl⟩ := Option.map_eq_some_iff.mp h
      exact .inl ⟨b, q, rfl, hq, rfl⟩
  | close p =>
      simp only [closingStep] at h
      split at h
      next hp => exact .inr (.inl ⟨p, rfl, hp, (Option.some.inj h).symm⟩)
      next pc hp => exact .inr (.inr ⟨p, pc, rfl, hp, (Option.some.inj h).symm⟩)
      next => cases h

end Step

/-- Closing stores into the events only. -/
theorem closeAccess_withEvents (m : MemBuff) (pc : ClosePc) :
    ∃ e f, (closeAccess m pc).1 = m.withEvents e f := by
  cases pc with
  | signal pc => exact ⟨_, m.avail, rfl⟩
  | avail pc => exact ⟨m.signal, _, rfl⟩

/-- Its accesses, with no other in between, are the `close` of a process alone. -/
theorem closeAccess_alone (m : MemBuff) :
    (closeAccess (closeAccess (closeAccess (closeAccess m (.signal .kill)).1 (.signal .broadcast)).1
      (.avail .kill)).1 (.avail .broadcast)).1 = m.close := rfl

/-! ## The ring -/

section Ring

variable {N : ℕ} {s : State ι}

/-- The state with other events. -/
def State.withEvents (s : State ι) (signal avail : EventT) : State ι :=
  { s with mem := s.mem.withEvents signal avail }

theorem RingInv.withEvents (h : RingInv N s) (e f : EventT) : RingInv N (s.withEvents e f) where
  cursors := { h.cursors with links := h.cursors.links.of_blocks rfl }
  wf := h.wf
  write := h.write
  read := h.read
  takes_le := h.takes_le
  room := h.room
  unread_iff := h.unread_iff

theorem Turning.withEvents {n : Notes ι} (h : Turning N (s, n)) (e f : EventT) :
    Turning N (s.withEvents e f, n) where
  ring := h.ring.withEvents e f
  tested := h.tested
  write := ⟨h.write.moves, h.write.paid, h.write.sees⟩
  read := ⟨h.read.moves, h.read.paid, h.read.sees⟩

end Ring

section Safety

variable [DecidableEq κ] [DecidableEq ι] {cfg : Config ι}

/-- No CAS of a thread on a leading cursor comes a round of the ring after its load. -/
def ClosingInLap (N : ℕ) (p : ClosingState κ ι × Notes ι) : ClosingAction κ ι → Prop
  | .queue a => InLap N (p.1.queue, p.2) a
  | .close _ => True

instance (N : ℕ) (p : ClosingState κ ι × Notes ι) : (a : ClosingAction κ ι) →
    Decidable (ClosingInLap N p a)
  | .queue a => inferInstanceAs (Decidable (InLap N (p.1.queue, p.2) a))
  | .close _ => isTrue trivial

variable {p : ClosingState κ ι × Notes ι}

/-- **Run lemma of a ring that is closed.** -/
theorem turning_of_closing (hN : 2 ≤ cfg.blockCount)
    (h : ClosingNoted cfg (ClosingInLap cfg.blockCount) p) :
    Turning cfg.blockCount (p.1.queue, p.2) := by
  refine h.invariant (I := fun p => Turning cfg.blockCount (p.1.queue, p.2)) (turning_start hN) ?_
  rintro ⟨s, n⟩ a ⟨s', n'⟩ - hturning hlap hs
  obtain ⟨hstep, rfl⟩ := noted_eq_some.mp hs
  rcases closingStep_cases hstep with ⟨b, q, rfl, hq, rfl⟩ | ⟨q, rfl, -, rfl⟩ | ⟨q, pc, rfl, -, rfl⟩
  · exact hturning.step hlap hq
  · exact hturning
  · obtain ⟨e, f, hmem⟩ := closeAccess_withEvents s.queue.mem pc
    simp only [hmem]
    exact hturning.withEvents e f

/-- **Closing does the ring no harm.** Whenever and by however many processes the queue is closed, the ring
is as safe for the threads that go on using it as it is without. -/
theorem closing_safe (hN : 2 ≤ cfg.blockCount)
    (h : ClosingNoted cfg (ClosingInLap cfg.blockCount) p) :
    SafeRing cfg.blockCount (p.1.queue, p.2) :=
  (turning_of_closing hN h).safe

end Safety

/-! ## The events -/

/-- How many accesses of `close` have been made. -/
def ClosePc.stage : ClosePc → ℕ
  | .signal .kill => 0
  | .signal .broadcast => 1
  | .avail .kill => 2
  | .avail .broadcast => 3

def Closer.stage : Closer → ℕ
  | .mapped => 0
  | .closing pc => pc.stage
  | .closed => 4

/-- How many accesses of `close` have been made when `kill_` of the event is set. -/
def Room.stage : Room → ℕ
  | .signal => 1
  | .avail => 3

theorem stage_closeAccess (m : MemBuff) (pc : ClosePc) :
    (closeAccess m pc).2.closer.stage = pc.stage + 1 := by
  rcases pc with (_ | _) | (_ | _) <;> rfl

/-- The event after an access of `close`. -/
theorem Room.event_close (r : Room) (m : MemBuff) (pc : ClosePc) :
    (r.event m).cond ≤ (r.event (closeAccess m pc).1).cond ∧
      ((r.event m).kill = true → (r.event (closeAccess m pc).1).kill = true) ∧
      (pc.stage + 1 = r.stage → (r.event (closeAccess m pc).1).kill = true) ∧
      (pc.stage = r.stage → (r.event m).cond < (r.event (closeAccess m pc).1).cond) ∧
      (r.event (closeAccess m pc).1).mtx = (r.event m).mtx := by
  cases r <;> rcases pc with (_ | _) | (_ | _)
  -- `kill_` of the event itself, its broadcast, and the accesses to the other event
  case signal.signal.kill | avail.avail.kill =>
    exact ⟨le_rfl, fun _ => rfl, fun _ => rfl, nofun, rfl⟩
  case signal.signal.broadcast | avail.avail.broadcast =>
    exact ⟨Nat.le_succ _, id, nofun, fun _ => Nat.lt_succ_self _, rfl⟩
  all_goals exact ⟨le_rfl, id, nofun, nofun, rfl⟩

/-! ## Nobody sleeps on a closed queue -/

/-- No thread is about to fall asleep in the room when `close` broadcasts there. -/
def Room.Hears (r : Room) (s : State ι) (pc : ClosePc) : Prop :=
  pc.stage = r.stage → ∀ t, r.at s t ≠ some .enter

/-- The access of `close` that comes next. -/
def Closer.pc : Closer → Option ClosePc
  | .closing pc => some pc
  | _ => none

/-- No thread misses the broadcasts of `close`. -/
def Heard (s : ClosingState κ ι) : ClosingAction κ ι → Prop
  | .queue _ => True
  | .close p => ∀ pc ∈ (s.closers p).pc, ∀ r : Room, r.Hears s.queue pc

instance [Fintype ι] (r : Room) (s : State ι) (pc : ClosePc) : Decidable (r.Hears s pc) :=
  inferInstanceAs (Decidable (_ → _))

instance [Fintype ι] (s : State ι) (pc : ClosePc) : Decidable (∀ r : Room, r.Hears s pc) :=
  decidable_of_iff (Room.signal.Hears s pc ∧ Room.avail.Hears s pc)
    ⟨fun h r => by cases r <;> first | exact h.1 | exact h.2, fun h => ⟨h _, h _⟩⟩

instance [Fintype ι] (s : ClosingState κ ι) : (a : ClosingAction κ ι) → Decidable (Heard s a)
  | .queue _ => isTrue trivial
  | .close p => inferInstanceAs (Decidable (∀ pc ∈ (s.closers p).pc, _))

/-- A room that a process has closed has `kill_` set; once the broadcast has been made, nobody is about to
fall asleep in it and everybody asleep can wake up. -/
structure Roused (r : Room) (s : ClosingState κ ι) : Prop where
  seen_le : ∀ t seen, r.at s.queue t = some (.asleep seen) → seen ≤ (r.event s.queue.mem).cond
  killed : ∀ p, r.stage ≤ (s.closers p).stage → (r.event s.queue.mem).kill = true
  awake : ∀ p, r.stage < (s.closers p).stage → ∀ t, r.at s.queue t ≠ some .enter ∧
    ∀ seen, r.at s.queue t = some (.asleep seen) → seen < (r.event s.queue.mem).cond

section Rouse

variable {cfg : Config ι} {r : Room} {s : ClosingState κ ι} {a : ι × Choice} {q : State ι}

theorem roused_start : Roused r (closingStart cfg : ClosingState κ ι) where
  seen_le := fun t seen h => by cases h
  killed := fun p h => by cases r <;> cases h
  awake := fun p h => absurd h (Nat.not_lt_zero _)

/-- **Step lemma of a room,** for the accesses of `close`. -/
theorem Roused.close_step [DecidableEq κ] (h : Roused r s) {p : κ} {pc : ClosePc}
    (hpc : s.closers p = .closing pc) (hhears : r.Hears s.queue pc) :
    Roused r { queue := { s.queue with mem := (closeAccess s.queue.mem pc).1 }
               closers := update s.closers p (closeAccess s.queue.mem pc).2.closer } := by
  obtain ⟨hcond, hkeep, hkill, hbroadcast, -⟩ := r.event_close s.queue.mem pc
  have hstage : (s.closers p).stage = pc.stage := by rw [hpc]; rfl
  refine ⟨fun t seen ht => (h.seen_le t seen ht).trans hcond, fun q hq => ?_, fun q hq t => ?_⟩
  · by_cases hqp : q = p
    · subst hqp
      simp only [update_self, stage_closeAccess] at hq
      rcases Nat.lt_or_eq_of_le hq with hlt | heq
      · exact hkeep (h.killed q (by omega))
      · exact hkill heq.symm
    · simp only [update_of_ne hqp] at hq
      exact hkeep (h.killed q hq)
  · have hkept : ∀ u, r.stage < (s.closers u).stage → r.at s.queue t ≠ some .enter ∧
        ∀ seen, r.at s.queue t = some (.asleep seen) →
          seen < (r.event (closeAccess s.queue.mem pc).1).cond := fun u hu =>
      ⟨(h.awake u hu t).1, fun seen ht => ((h.awake u hu t).2 seen ht).trans_le hcond⟩
    by_cases hqp : q = p
    · subst hqp
      simp only [update_self, stage_closeAccess] at hq
      rcases Nat.lt_or_eq_of_le (Nat.le_of_lt_succ hq) with hlt | heq
      · exact hkept q (by omega)
      · -- the broadcast itself: nobody is about to fall asleep, and it wakes everybody asleep
        exact ⟨hhears heq.symm t, fun seen ht =>
          (h.seen_le t seen ht).trans_lt (hbroadcast heq.symm)⟩
    · simp only [update_of_ne hqp] at hq
      exact hkept q hq

variable [DecidableEq ι]

/-- Where a thread stands in its wait after a step of any thread. -/
theorem Room.at_step (r : Room) (hwait : cfg.wait = waitForEvent) (hs : step cfg s.queue a = some q)
    (u : ι) :
    (r.at q u = some .enter → r.at s.queue u = some .enter ∨ (r.event s.queue.mem).kill = false) ∧
      ∀ seen, r.at q u = some (.asleep seen) → r.at s.queue u = some (.asleep seen) ∨
        r.at s.queue u = some .enter ∧ seen = (r.event s.queue.mem).cond := by
  obtain ⟨t, ch⟩ := a
  by_cases hu : u = t
  · subst hu
    rcases step_cases hs with ⟨c, rfl, -, -, -, rfl⟩ | ⟨w, pc, m', o, mk, rfl, hpc, hcode, rfl⟩
    · simp only [Room.at, update_self, Option.bind_some, c.enter_wait r]
      exact ⟨nofun, nofun⟩
    · rw [hwait] at hcode
      simp only [Room.at, update_self, Local.after, hpc, Option.bind_some]
      exact ⟨fun ho => .inr (hcode.enter ho), fun seen ho => .inr (hcode.asleep ho)⟩
  · have hat : r.at q u = r.at s.queue u := by
      rcases step_cases hs with ⟨c, -, -, -, -, rfl⟩ | ⟨w, pc, m', o, mk, -, -, -, rfl⟩ <;>
        simp only [Room.at, update_of_ne hu]
    rw [hat]
    exact ⟨.inl, fun _ => .inl⟩

/-- What a step of a thread does to an event. -/
theorem Room.event_step (r : Room) (hwait : cfg.wait = waitForEvent)
    (hs : step cfg s.queue a = some q) :
    (r.event s.queue.mem).cond ≤ (r.event q.mem).cond ∧
      (r.event q.mem).kill = (r.event s.queue.mem).kill := by
  obtain ⟨t, ch⟩ := a
  rcases step_cases hs with ⟨c, rfl, -, -, -, rfl⟩ | ⟨w, pc, m', o, mk, rfl, hpc, hcode, rfl⟩
  · exact ⟨le_rfl, rfl⟩
  · rw [hwait] at hcode
    exact ⟨hcode.cond_le r, hcode.kill_eq r⟩

/-- **Step lemma of a room,** for the steps of the threads. -/
theorem Roused.queue_step (h : Roused r s) (hwait : cfg.wait = waitForEvent)
    (hs : step cfg s.queue a = some q) : Roused r { s with queue := q } := by
  obtain ⟨hcond, hkill⟩ := r.event_step hwait hs
  refine ⟨fun t seen ht => ?_, fun p hp => hkill.trans (h.killed p hp),
    fun p hp t => ⟨fun ht => ?_, fun seen ht => ?_⟩⟩
  · rcases (r.at_step hwait hs t).2 seen ht with hasleep | ⟨-, rfl⟩
    · exact (h.seen_le t seen hasleep).trans hcond
    · exact hcond
  · rcases (r.at_step hwait hs t).1 ht with henter | hfalse
    · exact (h.awake p hp t).1 henter
    · exact absurd (h.killed p hp.le) (by rw [hfalse]; decide)
  · rcases (r.at_step hwait hs t).2 seen ht with hasleep | ⟨henter, -⟩
    · exact ((h.awake p hp t).2 seen hasleep).trans_le hcond
    · exact absurd henter (h.awake p hp t).1

/-- **Run lemma of a room.** -/
theorem roused_of_closing [DecidableEq κ] (hwait : cfg.wait = waitForEvent)
    (h : Reach (closingStep cfg) Heard (closingStart cfg) s) (r : Room) : Roused r s := by
  refine h.invariant roused_start ?_
  rintro s a s' - hroused hguard hs
  rcases closingStep_cases hs with ⟨b, q, rfl, hq, rfl⟩ | ⟨p, rfl, hp, rfl⟩ | ⟨p, pc, rfl, hp, rfl⟩
  · exact hroused.queue_step hwait hq
  · -- nothing has been stored yet
    have hstage : ∀ u, (update s.closers p (.closing (.signal .kill)) u).stage = (s.closers u).stage := by
      intro u
      by_cases hu : u = p
      · rw [hu, update_self, hp]
        rfl
      · rw [update_of_ne hu]
    exact ⟨hroused.seen_le, fun u hu => hroused.killed u (hstage u ▸ hu),
      fun u hu => hroused.awake u (hstage u ▸ hu)⟩
  · exact hroused.close_step hp (hguard pc (by rw [hp]; rfl) r)

/-- **Nobody sleeps on a closed queue.** If no thread is about to fall asleep at the moment of a broadcast of
`close`, then once a process has closed the queue both events are killed, no thread is about to fall asleep
on them, and every thread that is still asleep on one has been woken. -/
theorem awake_of_closed [DecidableEq κ] (hwait : cfg.wait = waitForEvent)
    (h : Reach (closingStep cfg) Heard (closingStart cfg) s) {p : κ} (hp : s.closers p = .closed)
    (r : Room) :
    (r.event s.queue.mem).kill = true ∧ ∀ t, r.at s.queue t ≠ some .enter ∧
      ∀ seen, r.at s.queue t = some (.asleep seen) →
        ∃ q, step cfg s.queue (t, .run .wake) = some q := by
  have hroused := roused_of_closing hwait h r
  have hlast : r.stage < (s.closers p).stage := by
    rw [hp]
    cases r <;> decide
  refine ⟨hroused.killed p hlast.le, fun t => ⟨(hroused.awake p hlast t).1, fun seen hat => ?_⟩⟩
  obtain ⟨pc, hpc, hroom⟩ := Option.bind_eq_some_iff.mp hat
  have hne : (r.event s.queue.mem).cond ≠ seen := ((hroused.awake p hlast t).2 seen hat).ne'
  refine step_of_code hpc (hwait ▸ codeStep_of_wait cfg.blockSize hroom ?_)
  -- a broadcast since the thread fell asleep wakes it
  simp [waitForEvent, hne]

end Rouse

/-! ## The mutexes -/

section Locks

variable [DecidableEq κ] [DecidableEq ι] {cfg : Config ι} {s : ClosingState κ ι}

/-- **Run lemma of the mutexes.** `close` touches none. -/
theorem owned_of_closing (hwait : cfg.wait = waitForEvent) (hN : 2 ≤ cfg.blockCount)
    (h : Reach (closingStep cfg) anyStep (closingStart cfg) s) : Owned s.queue.mem s.queue.threads := by
  refine h.invariant (I := fun s => Owned s.queue.mem s.queue.threads) (owned_free (fun r => ?_)
    fun _ => rfl) ?_
  · show (r.event (create cfg.blockCount)).mtx = false
    rw [create_eq hN]
    cases r <;> rfl
  · rintro s a s' - howned - hs
    rcases closingStep_cases hs with ⟨b, q, rfl, hq, rfl⟩ | ⟨p, rfl, -, rfl⟩ | ⟨p, pc, rfl, -, rfl⟩
    · exact howned.step hwait hq
    · exact howned
    · obtain ⟨owner, hagree, hmtx⟩ := howned
      exact ⟨owner, hagree, fun r => (r.event_close s.queue.mem pc).2.2.2.2.trans (hmtx r)⟩

/-- **No deadlock.** Whoever closes the queue meanwhile, the mutex of an event is taken exactly while one
thread is between taking it and giving it back; and as long as a thread inside the methods is awake, some
thread that is awake can make its next access. -/
theorem deadlockFree_of_closing (hwait : cfg.wait = waitForEvent) (hN : 2 ≤ cfg.blockCount)
    (h : Reach (closingStep cfg) anyStep (closingStart cfg) s) :
    (∀ r : Room, ((r.event s.queue.mem).mtx = true ↔ ∃ t, r.locks (s.queue.threads t).pc = true) ∧
      ∀ t u, r.locks (s.queue.threads t).pc = true → r.locks (s.queue.threads u).pc = true → t = u) ∧
    ∀ t pc, (s.queue.threads t).pc = some pc → pc.Awake →
      ∃ u pc', (s.queue.threads u).pc = some pc' ∧ pc'.Awake ∧
        ∃ q, step cfg s.queue (u, .run .wake) = some q := by
  have howned := owned_of_closing hwait hN h
  refine ⟨howned.mutex, fun t pc hpc hawake => ?_⟩
  obtain ⟨u, pc', hpc', hawake', hcode⟩ := howned.exists_unhindered cfg.blockSize hpc hawake
  exact ⟨u, pc', hpc', hawake', step_of_code hpc' (hwait ▸ hcode)⟩

end Locks

/-- Reader 1 has the mutex of `m_signal` and reader 2 is about to take it. -/
def twoAtTheMutex : List (Fin 3 × Choice) := during 1 (.read 4 1) 4 ++ during 2 (.read 4 1) 3

/-- Then the queue is closed. -/
theorem deadlockFree_of_closing_twoAtTheMutex :
    ∃ s : ClosingState (Fin 1) (Fin 3),
      Reach (closingStep (streams 3 3 1 waitForEvent)) anyStep
          (closingStart (streams 3 3 1 waitForEvent)) s ∧
        s.closers 0 = .closed ∧ s.queue.mem.signal.mtx = true ∧
          Room.signal.at s.queue 2 = some .lock ∧
          ∃ u pc, (s.queue.threads u).pc = some pc ∧ pc.Awake ∧
            ∃ q, step (streams 3 3 1 waitForEvent) s.queue (u, .run .wake) = some q := by
  obtain ⟨s, hs, hclosed, hmtx, hat⟩ : ∃ s : ClosingState (Fin 1) (Fin 3),
      Reach (closingStep (streams 3 3 1 waitForEvent)) anyStep
          (closingStart (streams 3 3 1 waitForEvent)) s ∧
        s.closers 0 = .closed ∧ s.queue.mem.signal.mtx = true ∧
          Room.signal.at s.queue 2 = some .lock :=
    Reach.exists_of_run (twoAtTheMutex.map .queue ++ List.replicate 5 (.close 0)) (by decide +kernel)
  obtain ⟨pc, hpc, hwait⟩ := Option.bind_eq_some_iff.mp hat
  have hawake : pc.Awake := Room.awake_of_wait hwait fun _ => nofun
  exact ⟨s, hs, hclosed, hmtx, hat, (deadlockFree_of_closing rfl (by decide) hs).2 2 pc hpc hawake⟩

/-! One message has been read and a second waits; in the middle of this the queue has been closed, and
thread 0 is about to claim the last block: -/

theorem closing_safe_third :
    ∃ p : ClosingState (Fin 1) (Fin 2) × Notes (Fin 2),
      ClosingNoted (holders 2 3 1) (ClosingInLap 3) p ∧ p.1.closers 0 = .closed ∧
        p.1.queue.Claims (0, .run .wake) 2 ∧ unread p.1.queue.hist 2 = false := by
  obtain ⟨p, hp, hclosed, hclaim⟩ : ∃ p : ClosingState (Fin 1) (Fin 2) × Notes (Fin 2),
      ClosingNoted (holders 2 3 1) (ClosingInLap 3) p ∧ p.1.closers 0 = .closed ∧
        p.1.queue.Claims (0, .run .wake) 2 :=
    Reach.exists_of_run
      ((third.take 9).map .queue ++ List.replicate 5 (.close 0) ++ (third.drop 9).map .queue)
      (by decide +kernel)
  exact ⟨p, hp, hclosed, hclaim, ((closing_safe (by decide) hp).claimed _ _ hclaim).1⟩

/-- A reader has gone to sleep, and the queue is closed. -/
theorem awake_of_closed_reader :
    ∃ s : ClosingState (Fin 1) (Fin 2),
      Reach (closingStep (streams 2 3 1 waitForEvent)) Heard
          (closingStart (streams 2 3 1 waitForEvent)) s ∧
        Room.signal.at s.queue 1 = some (.asleep 0) ∧
          ∃ q, step (streams 2 3 1 waitForEvent) s.queue (1, .run .wake) = some q := by
  obtain ⟨s, hs, hclosed, hat⟩ : ∃ s : ClosingState (Fin 1) (Fin 2),
      Reach (closingStep (streams 2 3 1 waitForEvent)) Heard
        (closingStart (streams 2 3 1 waitForEvent)) s ∧ s.closers 0 = .closed ∧
          Room.signal.at s.queue 1 = some (.asleep 0) :=
    Reach.exists_of_run ((during 1 (.read 4 1) 7).map .queue ++ List.replicate 5 (.close 0))
      (by decide +kernel)
  obtain ⟨-, hwoken⟩ := awake_of_closed rfl hs hclosed .signal
  exact ⟨s, hs, hat, (hwoken 1).2 0 hat⟩

end AtomicMessageQueue
