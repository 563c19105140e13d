import AtomicMessageQueue.Pevents.Outcomes
import AtomicMessageQueue.Pevents.Sleepers

/-! # Progress

A waiting call holds the mutex of its block while it takes those of its events one after the other, and
`SetEvent` holds that of its event while it takes those of the registered blocks. They do not wait for one
another in a circle, because a call is registered with the events below the one it waits for and with no
others. So the system stands still only when every thread in a call is blocked on a condition variable,
and then each waits for events that are not set.
-/

namespace AtomicMessageQueue.Pevents

open Function Transition Mutexes Finset

/-! ## Threads that can go on -/

/-- A step in which a condition wait ends because of a signal. -/
def signalled : Chance where
  waitEnd := .wake
  woken := 0

/-- The mutex the next step of a thread takes, and waits for if it is not free. -/
def Pc.wants {ι : Type*} (m : Memory ι) : Pc → Option Object
  | .wait e milliseconds .lock => if milliseconds = 0 then none else some (.event e)
  | .wait e _ (.relock _) | .set e .lock | .reset e .lock => some (.event e)
  | .multiple _ (.lockOwn w) | .multiple _ (.relock w _) => some (.waiter w)
  | .multiple c (.lockEvent _ i) => if i < c.count then some (.event (c.events + i)) else none
  | .set e (.scan i) => (m.events e).registeredWaits[i]?.map fun info => .waiter info.waiter
  | _ => none

section Enabled

variable {ι : Type*} {t : ι} {m : Memory ι} {pc : Pc} {o : Object}

theorem Memory.lock_isSome (h : m.mutex o = none) : (m.lock o t).isSome = true := by
  simp [Memory.lock, h]

theorem Pc.sleepsOn_of_wants (h : pc.wants m = some o) : pc.sleepsOn = none := by
  cases pc with
  | wait e ms pc => cases pc <;> simp_all [Pc.wants, Pc.sleepsOn]
  | multiple c pc => cases pc <;> simp_all [Pc.wants, Pc.sleepsOn]
  | _ => rfl

theorem Pc.held_of_sleepsOn (h : pc.sleepsOn = some o) : pc.held = [] := by
  cases pc with
  | wait e ms pc =>
      cases pc <;> cases h
      rfl
  | multiple c pc =>
      cases pc <;> cases h
      rfl
  | _ => cases h

theorem Memory.wakeUp_isSome [DecidableEq ι] {timed : Bool} (h : t ∉ m.cVariable o) :
    (m.wakeUp o t timed signalled.waitEnd).isSome = true := by
  simp [Memory.wakeUp, signalled, h]

/-- A thread can go on unless it waits for a mutex or is blocked on a condition variable. -/
theorem codeStep_isSome [DecidableEq ι] (hwants : ∀ o, pc.wants m = some o → m.mutex o = none)
    (hsleeps : ∀ o, pc.sleepsOn = some o → t ∉ m.cVariable o) :
    (codeStep t signalled m pc).isSome = true := by
  cases pc with
  | wait e ms pc =>
      rw [codeStep, Option.isSome_map]
      cases pc with
      | lock =>
          rw [waitForEvent]
          split
          next => rfl
          next hbusy =>
            rw [Option.isSome_map]
            by_cases hms : ms = 0
            · exact Memory.lock_isSome (Option.not_isSome_iff_eq_none.mp fun h => hbusy ⟨hms, h⟩)
            · exact Memory.lock_isSome (hwants _ (if_neg hms))
      | check | test r =>
          rw [waitForEvent]
          split <;> (try split) <;> rfl
      | asleep =>
          rw [waitForEvent, Option.isSome_map]
          exact Memory.wakeUp_isSome (hsleeps _ rfl)
      | relock r =>
          rw [waitForEvent, Option.isSome_map]
          exact Memory.lock_isSome (hwants _ rfl)
  | multiple c pc =>
      rw [codeStep, Option.isSome_map]
      cases pc with
      | lockOwn w | relock w r =>
          rw [waitForMultipleEvents, Option.isSome_map]
          exact Memory.lock_isSome (hwants _ rfl)
      | lockEvent w i =>
          rw [waitForMultipleEvents]
          split
          next hi =>
            rw [Option.isSome_map]
            exact Memory.lock_isSome (hwants _ (if_pos hi))
          next => rfl
      | sweep w i k =>
          rw [waitForMultipleEvents]
          split
          next => rfl
          next => split <;> rfl
      | expired w i k info | check w i | testDone w =>
          rw [waitForMultipleEvents]
          split <;> rfl
      | asleep w =>
          rw [waitForMultipleEvents, Option.isSome_map]
          exact Memory.wakeUp_isSome (hsleeps _ rfl)
      | _ => rfl
  | set e pc =>
      rw [codeStep, Option.isSome_map]
      cases pc with
      | lock =>
          rw [setEvent, Option.isSome_map]
          exact Memory.lock_isSome (hwants _ rfl)
      | scan i =>
          rw [setEvent]
          split
          next info hi =>
            rw [Option.isSome_map]
            exact Memory.lock_isSome (hwants _ (by simp [Pc.wants, hi]))
          next => split <;> (try split) <;> rfl
      | serve i info =>
          rw [setEvent]
          split <;> (try split) <;> rfl
      | _ => rfl
  | reset e pc =>
      rw [codeStep, Option.isSome_map]
      cases pc with
      | lock =>
          rw [resetEvent, Option.isSome_map]
          exact Memory.lock_isSome (hwants _ rfl)
      | store => rfl

end Enabled

/-! ## No circular wait -/

section Wants

variable {ι : Type*} {cfg : Config ι} {s : State ι} {t : ι} {pc : Pc}

/-- The next step of a thread takes a mutex. -/
def Wants (s : State ι) (t : ι) (o : Object) : Prop :=
  ∃ pc, s.threads t = some pc ∧ pc.wants s.mem = some o

variable [DecidableEq ι]

/-- The place of a block in the order of the mutexes: below the event its call is about to lock, above all
events if there is none. -/
theorem exists_place (h : Reached cfg s) (w : ℕ) :
    ∃ r, (∀ t c i, s.threads t = some (.multiple c (.lockEvent w i)) → r = 2 * (c.events + i)) ∧
      ((∀ t c i, s.threads t ≠ some (.multiple c (.lockEvent w i))) → r = 2 * cfg.eventCount + 2) ∧
      r ≤ 2 * cfg.eventCount + 2 := by
  have hr := referenced_of_reached h
  by_cases howner : ∃ t c i, s.threads t = some (.multiple c (.lockEvent w i))
  · obtain ⟨t, c, i, ht⟩ := howner
    refine ⟨2 * (c.events + i), fun u d j hu => ?_, fun hnone => absurd ht (hnone t c i), ?_⟩
    · obtain rfl := hr.own.own.unique u t w (by rw [hu]; rfl) (by rw [ht]; rfl)
      rw [hu] at ht
      cases ht
      rfl
    · have hlegal := hr.legal t _ ht
      have hle := ((outcomes_of_reached h).stands t _ ht c w (.registering i) rfl).1.le
      unfold Pc.Legal at hlegal
      omega
  · refine ⟨2 * cfg.eventCount + 2, fun t c i ht => absurd ⟨t, c, i, ht⟩ howner, fun _ => rfl, le_rfl⟩

/-- The place of an object among the mutexes, the blocks put in where `place` says. -/
def Object.rank (place : ℕ → ℕ) : Object → ℕ
  | .event e => 2 * e + 1
  | .waiter w => place w

/-- **The mutexes are taken in an order.** -/
theorem exists_rank (h : Reached cfg s) :
    ∃ rank : Object → ℕ, (∀ t o, Wants s t o → rank o ≤ 2 * cfg.eventCount + 2) ∧
      ∀ t o o', o ∈ heldAt (s.threads t) → Wants s t o' → rank o < rank o' := by
  have hr := referenced_of_reached h
  choose place hlock hnone hle using exists_place h
  refine ⟨Object.rank place, ?_, ?_⟩
  · rintro t o ⟨pc, hpc, hwants⟩
    have hlegal := hr.legal t pc hpc
    cases o with
    | waiter w => exact hle w
    | event e =>
        have hlt : e < cfg.eventCount := by
          cases pc with
          | wait d ms pc =>
              cases pc <;> simp [Pc.wants] at hwants
              · exact hwants.2 ▸ hlegal
              · exact hwants ▸ hlegal
          | multiple c pc =>
              cases pc <;> simp [Pc.wants] at hwants
              unfold Pc.Legal at hlegal
              omega
          | set d pc =>
              cases pc <;> simp [Pc.wants] at hwants
              exact hwants ▸ hlegal
          | reset d pc =>
              cases pc <;> simp [Pc.wants] at hwants
              exact hwants ▸ hlegal
        show 2 * e + 1 ≤ _
        omega
  · rintro t o o' hheld ⟨pc, hpc, hwants⟩
    rw [hpc, heldAt_some] at hheld
    cases pc with
    | wait d ms pc => cases pc <;> simp [Pc.wants, Pc.held] at hwants hheld
    | reset d pc => cases pc <;> simp [Pc.wants, Pc.held] at hwants hheld
    | multiple c pc =>
        cases pc <;> simp [Pc.wants, Pc.held] at hwants hheld
        -- a call at its next event holds its own block
        case lockEvent w i =>
          obtain ⟨-, rfl⟩ := hwants
          subst hheld
          show place w < 2 * (c.events + i) + 1
          rw [hlock w t c i hpc]
          exact Nat.lt_succ_self _
    | set e pc =>
        cases pc <;> simp [Pc.wants, Pc.held] at hwants hheld
        -- `SetEvent` at its next registration holds its event
        case scan i =>
          obtain ⟨⟨w, j⟩, hi, rfl⟩ := hwants
          subst hheld
          show 2 * e + 1 < place w
          by_cases howner : ∃ u c k, s.threads u = some (.multiple c (.lockEvent w k))
          · obtain ⟨u, c, k, hu⟩ := howner
            have hwaits := ((outcomes_of_reached h).stands u _ hu c w (.registering k) rfl).1
            obtain ⟨-, hcounted, -⟩ := (guarded_of_reached h).knows t _ hpc
            obtain ⟨rfl, hjk⟩ := hwaits.live e j (Memory.live_pos hcounted hi)
            rw [hlock w u c k hu]
            omega
          · rw [hnone w fun u c k hu => howner ⟨u, c, k, hu⟩]
            have hlt : e < cfg.eventCount := hr.legal t _ hpc
            omega

/-! ## What holds of every run -/

/-- A thread that is in a call, and neither waits for a mutex nor is blocked, can go on. -/
theorem step_isSome (hpc : s.threads t = some pc)
    (hwants : ∀ o, pc.wants s.mem = some o → s.mem.mutex o = none)
    (hblocked : ∀ o, t ∉ s.mem.cVariable o) : (step cfg s (t, .run signalled)).isSome = true := by
  simp only [step, hpc, Option.isSome_map]
  exact codeStep_isSome hwants fun o _ => hblocked o

/-- While some thread is in a call and awake, some such thread waits for no mutex that is taken. -/
theorem exists_unhindered (h : Reached cfg s) (hpc : s.threads t = some pc)
    (hblocked : ∀ o, t ∉ s.mem.cVariable o) :
    ∃ u q, s.threads u = some q ∧ (∀ o, u ∉ s.mem.cVariable o) ∧
      ∀ o, q.wants s.mem = some o → s.mem.mutex o = none := by
  have hsleepers := sleepers_of_reached h
  have hawake : ∀ {u q}, s.threads u = some q → q.sleepsOn = none → ∀ o, u ∉ s.mem.cVariable o :=
    fun hq hnone => hsleepers.not_mem (by rw [hq]; exact hnone)
  by_cases hwaits : ∃ o, pc.wants s.mem = some o
  · obtain ⟨o, ho⟩ := hwaits
    obtain ⟨rank, htop, hrank⟩ := exists_rank h
    obtain ⟨u, ⟨o', ⟨q, hq, hwants⟩, hfree⟩ | ⟨hheld, hnone⟩⟩ :=
      (guarded_of_reached h).agree.exists_unblocked (Wants s) rank _ htop hrank (t := t) (k := o)
        ⟨pc, hpc, ho⟩
    · refine ⟨u, q, hq, hawake hq (Pc.sleepsOn_of_wants hwants), fun k hk => ?_⟩
      rw [hwants] at hk
      exact Option.some.inj hk ▸ hfree
    · cases hq : s.threads u with
      | none => exact absurd (by rw [hq]; rfl) hheld
      | some q =>
          have hsleeps : q.sleepsOn = none := by
            by_contra hne
            obtain ⟨k, hk⟩ := Option.ne_none_iff_exists'.mp hne
            exact hheld (by rw [hq]; exact Pc.held_of_sleepsOn hk)
          exact ⟨u, q, hq, hawake hq hsleeps, fun k hk => absurd ⟨q, hq, hk⟩ (hnone k)⟩
  · exact ⟨t, pc, hpc, hblocked, fun o ho => absurd ⟨o, ho⟩ hwaits⟩

/-- **No deadlock.** As long as a thread is in a call and not blocked on a condition variable, some such
thread can go on. -/
theorem deadlockFree_of_reached (h : Reached cfg s) (hpc : s.threads t = some pc)
    (hblocked : ∀ o, t ∉ s.mem.cVariable o) :
    ∃ u, s.threads u ≠ none ∧ (∀ o, u ∉ s.mem.cVariable o) ∧
      (step cfg s (u, .run signalled)).isSome = true := by
  obtain ⟨u, q, hq, hawake, hwants⟩ := exists_unhindered h hpc hblocked
  exact ⟨u, by rw [hq]; exact Option.some_ne_none q, hawake, step_isSome hq hwants hawake⟩

/-- No thread can go on; waits that end without a signal do not count. -/
def Quiet (cfg : Config ι) (s : State ι) : Prop :=
  ∀ t, (step cfg s (t, .run signalled)).isNone = true

/-- In a quiet state every thread in a call is blocked in a wait. -/
theorem Quiet.sleepsOn (hq : Quiet cfg s) (h : Reached cfg s) (hpc : s.threads t = some pc) :
    ∃ o, pc.sleepsOn = some o ∧ t ∈ s.mem.cVariable o := by
  by_contra hnot
  have hblocked : ∀ o, t ∉ s.mem.cVariable o := fun o hmem => hnot ⟨o, by
    simpa [hpc] using (sleepers_of_reached h).asleep o t hmem, hmem⟩
  obtain ⟨u, q, hu, hawake, hwants⟩ := exists_unhindered h hpc hblocked
  have hstep : (step cfg s (u, .run signalled)).isSome = true := step_isSome hu hwants hawake
  rw [Option.isNone_iff_eq_none.mp (hq u)] at hstep
  cases hstep

/-- In a quiet state every mutex is free. -/
theorem Quiet.free (hq : Quiet cfg s) (h : Reached cfg s) (o : Object) : s.mem.mutex o = none := by
  cases hmutex : s.mem.mutex o with
  | none => rfl
  | some t =>
      have hheld : o ∈ heldAt (s.threads t) := ((guarded_of_reached h).agree o t).mp hmutex
      cases hpc : s.threads t with
      | none =>
          rw [hpc] at hheld
          exact absurd hheld List.not_mem_nil
      | some pc =>
          obtain ⟨k, hk, -⟩ := hq.sleepsOn h hpc
          rw [hpc, heldAt_some, Pc.held_of_sleepsOn hk] at hheld
          exact absurd hheld List.not_mem_nil

/-- An event that a call is registered with, and nobody holds, is not set. -/
theorem Quiet.unset (hq : Quiet cfg s) (h : Reached cfg s) {e : ℕ} {info : WfmoInfo}
    (hlive : 0 < s.mem.live e info) : (s.mem.events e).state = false := by
  have hidle := (guarded_of_reached h).idle e (hq.free h _)
  obtain ⟨other, hmem, -⟩ := List.countP_pos_iff.mp hlive
  rw [hidle.live] at hmem
  exact Bool.eq_false_iff.mpr fun hs => absurd (hidle.empty hs ▸ hmem) List.not_mem_nil

/-- **No wake-up is lost.** When nothing goes on any more, each thread in a call is blocked; if it waits for
one event, that is not set; if it waits for several, none of those it has not obtained is set, and it has
obtained none if it waits for any, and not all if it waits for all. -/
theorem quiet_of_reached (h : Reached cfg s) (hq : Quiet cfg s) (hpc : s.threads t = some pc) :
    (∃ e ms, pc = .wait e ms .asleep ∧ (s.mem.events e).state = false) ∨
      ∃ c w, pc = .multiple c (.asleep w) ∧
        (∀ j : ℕ, j < c.count → .obtainFor (c.events + j) w j ∉ s.hist →
          (s.mem.events (c.events + j)).state = false) ∧
        (c.waitAll = false → ∀ j, .obtainFor (c.events + j) w j ∉ s.hist) ∧
        (c.waitAll = true → 0 ≤ c.count → ∃ j : ℕ, j < c.count ∧
          .obtainFor (c.events + j) w j ∉ s.hist) := by
  have hawake : ∀ {u q}, s.threads u = some q → q.sleepsOn ≠ none := fun hu hnone => by
    obtain ⟨o, ho, -⟩ := hq.sleepsOn h hu
    rw [hnone] at ho
    cases ho
  obtain ⟨o, ho, hmem⟩ := hq.sleepsOn h hpc
  cases pc with
  | wait e ms pc =>
      cases pc <;> cases ho
      refine .inl ⟨e, ms, rfl, Bool.eq_false_iff.mpr fun hset => ?_⟩
      obtain ⟨u, q, hu, hcomes⟩ := covered_of_reached h e hset (List.ne_nil_of_mem hmem)
      obtain ⟨k, hk, hmem'⟩ := hq.sleepsOn h hu
      cases q with
      | wait d ms pc =>
          cases pc <;> cases hk
          obtain ⟨rfl, -, hnot⟩ := hcomes
          exact hnot hmem'
      | multiple c pc => exact hcomes
      | _ => cases hk
  | multiple c pc =>
      obtain ⟨w, rfl, rfl⟩ : ∃ w, pc = .asleep w ∧ o = .waiter w := by
        cases pc <;> cases ho
        exact ⟨_, rfl, rfl⟩
      have hnot : c.done (s.mem.waiters w).status = false := by
        refine Bool.eq_false_iff.mpr fun hdone => ?_
        obtain ⟨u, e, i, hu⟩ := signalled_of_reached h t c w hpc hmem hdone
        exact hawake hu rfl
      obtain ⟨hwaits, -, -⟩ := (outcomes_of_reached h).stands t _ hpc c w .waiting rfl
      have hgiven : ∀ j, .obtainFor (c.events + j) w j ∉ s.hist ↔
          given s.hist (c.events + j) w j = 0 := fun j => List.count_eq_zero.symm
      have hnone : c.waitAll = false → (s.mem.waiters w).status = -1 := fun hc => by
        simpa [WaitCall.done, hc] using hnot
      refine .inr ⟨c, w, rfl, fun j hj hobtain => ?_, fun hc j => ?_, fun hc hcount => ?_⟩
      · have hstill : (s.mem.waiters w).stillWaiting = true := by
          cases hc : c.waitAll with
          | true => exact (hwaits.all hc).1
          | false => exact hwaits.still hc (hnone hc)
        have hone := hwaits.exact hstill j (by omega)
        rw [(hgiven j).mp hobtain] at hone
        have hlive : 0 < s.mem.live (c.events + j) ⟨w, j⟩ := by omega
        exact hq.unset h hlive
      · rw [hgiven]
        have hfired := hwaits.any hc
        rw [hnone hc] at hfired
        rcases hfired with ⟨-, hzero⟩ | ⟨k, hk, -⟩
        · exact hzero j
        · omega
      · by_contra hall
        have hfull : taken c w s.hist = ∑ _j ∈ range c.count.toNat, 1 := by
          refine sum_congr rfl fun j hj => ?_
          have hj' : (j : ℤ) < c.count := by
            have hlt := mem_range.mp hj
            omega
          have hpos : given s.hist (c.events + j) w j ≠ 0 := fun hzero =>
            hall ⟨j, hj', (hgiven j).mpr hzero⟩
          have honce := hwaits.once j
          omega
        rw [← card_eq_sum_ones, card_range] at hfull
        have hsum := (hwaits.all hc).2
        simp only [WaitCall.done, hc, if_true, decide_eq_false_iff_not] at hnot
        omega
  | _ => cases ho

end Wants

/-! `SetEvent` waits for the mutex of a block whose call goes on to the next event: -/

/-- A wait for both of events 0 and 1, for good. -/
def waitForBoth : WaitCall where
  events := 0
  count := 2
  waitAll := true
  milliseconds := infinite

theorem deadlockFree_of_reached_serving :
    ∃ s : State (Fin 2), Reached (anyCalls 2) s ∧ (step (anyCalls 2) s (1, .run signalled)).isNone ∧
      ∃ u, (step (anyCalls 2) s (u, .run signalled)).isSome = true := by
  obtain ⟨s, hs, hpc, hnone⟩ : ∃ s : State (Fin 2), Reached (anyCalls 2) s ∧
      s.threads 1 = some (.set 0 (.scan 0)) ∧
      (step (anyCalls 2) s (1, .run signalled)).isNone :=
    Reach.exists_of_run (calling 0 (.waitForMultipleEvents waitForBoth) 5 ++
      calling 1 (.setEvent 0) 2) (by decide +kernel)
  have hsleepers := sleepers_of_reached hs
  obtain ⟨u, -, -, hstep⟩ := deadlockFree_of_reached hs hpc (hsleepers.not_mem (by rw [hpc]; rfl))
  exact ⟨s, hs, hnone, u, hstep⟩

/-! One event has been set for a call that waits for both: -/

theorem quiet_of_reached_waitForBoth :
    ∃ s : State (Fin 2), Reached (anyCalls 2) s ∧ .obtainFor 0 0 0 ∈ s.hist ∧
      (s.mem.events 1).state = false := by
  obtain ⟨s, hs, hpc, hone, hother, hquiet⟩ : ∃ s : State (Fin 2), Reached (anyCalls 2) s ∧
      s.threads 0 = some (.multiple waitForBoth (.asleep 0)) ∧ .obtainFor 0 0 0 ∈ s.hist ∧
      .obtainFor 1 0 1 ∉ s.hist ∧ ∀ t, (step (anyCalls 2) s (t, .run signalled)).isNone = true :=
    Reach.exists_of_run (calling 0 (.waitForMultipleEvents waitForBoth) 10 ++
      calling 1 (.setEvent 0) 6 ++ runs 0 3) (by decide +kernel)
  rcases quiet_of_reached hs hquiet hpc with ⟨e, ms, hwait, -⟩ | ⟨c, w, hcall, hunset, -⟩
  · cases hwait
  · cases hcall
    exact ⟨s, hs, hone, hunset 1 (by decide) hother⟩

end AtomicMessageQueue.Pevents
