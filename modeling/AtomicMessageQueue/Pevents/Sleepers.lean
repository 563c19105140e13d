import AtomicMessageQueue.Pevents.Dealings
import AtomicMessageQueue.Pevents.Tokens

/-! # Who sleeps, and who is to wake them

The threads blocked on a condition variable are asleep at the wait that goes with it. Two invariants say
that none of them sleeps on without reason: if an event is set while threads sleep on it, one that has
been woken or a `SetEvent` that has still to wake one is on its way, and if a waiting call that sleeps has
what it waits for, the `SetEvent` that gave it the last event is about to signal it.
-/

namespace AtomicMessageQueue.Pevents

open Function Transition Mutexes

/-! ## The condition variables -/

/-- The condition variable whose wait a thread is in. -/
def Pc.sleepsOn : Pc → Option Object
  | .wait e _ .asleep => some (.event e)
  | .multiple _ (.asleep w) => some (.waiter w)
  | _ => none

/-- Blocked threads are asleep, and blocked once. -/
structure Sleepers {ι : Type*} (s : State ι) : Prop where
  asleep : ∀ o, ∀ t ∈ s.mem.cVariable o, (s.threads t).bind Pc.sleepsOn = some o
  nodup : ∀ o, (s.mem.cVariable o).Nodup

section Sleep

variable {ι : Type*} [DecidableEq ι] {t : ι} {ch : Chance} {m m' : Memory ι} {pc : Pc}
  {pc' : Option Pc} {mk : Option Mark}

/-- What a step does to the condition variables. -/
inductive Rest (t : ι) (m m' : Memory ι) (pc : Pc) (pc' : Option Pc) : Prop
  | sleep (o : Object) (hm : m'.cVariable = update m.cVariable o (t :: m.cVariable o))
      (hpc : pc.sleepsOn = none) (hpc' : pc'.bind Pc.sleepsOn = some o)
  | wake (o : Object) (hm : m'.cVariable = update m.cVariable o ((m.cVariable o).erase t))
      (hpc : pc.sleepsOn = some o) (hpc' : pc'.bind Pc.sleepsOn = none)
  | rouse (o : Object) (us : List ι) (hsub : us.Sublist (m.cVariable o))
      (hm : m'.cVariable = update m.cVariable o us) (hpc : pc.sleepsOn = none)
      (hpc' : pc'.bind Pc.sleepsOn = none)
  | keep (hm : m'.cVariable = m.cVariable) (hpc : pc.sleepsOn = none)
      (hpc' : pc'.bind Pc.sleepsOn = none)

theorem Access.rest (h : Access t ch m pc m' pc' mk) : Rest t m m' pc pc' := by
  cases h with
  | waitSleep e ms pc hpc hs => exact .sleep (.event e) rfl (by rcases hpc with rfl | rfl <;> rfl) rfl
  | sleep c w hd => exact .sleep (.waiter w) rfl rfl rfl
  | waitWake e ms r hr => exact .wake (.event e) rfl rfl rfl
  | wake c w r hr => exact .wake (.waiter w) rfl rfl rfl
  | signal e => exact .rouse (.event e) _ (List.eraseIdx_sublist _ _) rfl rfl rfl
  | notify e i w pc' hpc' =>
      refine .rouse (.waiter w) _ (List.eraseIdx_sublist _ _) rfl rfl ?_
      subst hpc'
      split <;> rfl
  | broadcast e => exact .rouse (.event e) [] (List.nil_sublist _) rfl rfl rfl
  | waitObtain e ms pc hpc hs => exact .keep rfl (by rcases hpc with rfl | rfl <;> rfl) rfl
  | loopEnd c w i hi pc' hpc' | relock c w r hfree pc' hpc' | found c w i hs pc' hpc'
  | sweepDrop c w i k info hs pc' hpc' =>
      subst hpc'
      exact .keep rfl rfl (by split <;> rfl)
  | leave c w r pc' hpc' =>
      subst hpc'
      exact .keep rfl rfl (by split <;> rfl)
  | _ => exact .keep rfl rfl rfl

/-- Other threads than the one that steps can only be taken off a condition variable. -/
theorem Rest.subset (h : Rest t m m' pc pc') {o : Object} {u : ι} (hut : u ≠ t)
    (hu : u ∈ m'.cVariable o) : u ∈ m.cVariable o := by
  have hupdate : ∀ {d : Object} {us : List ι}, m'.cVariable = update m.cVariable d us →
      (u ∈ us → u ∈ m.cVariable d) → u ∈ m.cVariable o := by
    intro d us hm himp
    rw [hm] at hu
    by_cases hod : o = d
    · subst hod
      rw [update_self] at hu
      exact himp hu
    · rwa [update_of_ne hod] at hu
  cases h with
  | sleep d hm => exact hupdate hm fun hmem => (List.mem_cons.mp hmem).resolve_left hut
  | wake d hm => exact hupdate hm List.mem_of_mem_erase
  | rouse d us hsub hm => exact hupdate hm fun hmem => hsub.subset hmem
  | keep hm => rwa [hm] at hu

variable {cfg : Config ι} {s s' : State ι} {a : ι × Choice}

omit [DecidableEq ι] in
theorem sleepers_start : Sleepers (start cfg) where
  asleep _ _ h := absurd h List.not_mem_nil
  nodup _ := List.nodup_nil

omit [DecidableEq ι] in
/-- A thread that is not in a wait is blocked nowhere. -/
theorem Sleepers.not_mem (h : Sleepers s) (hpc : (s.threads t).bind Pc.sleepsOn = none) (o : Object) :
    t ∉ s.mem.cVariable o := fun hmem => by
  rw [h.asleep o t hmem] at hpc
  cases hpc

/-- **Step lemma of the condition variables.** -/
theorem Sleepers.step (h : Sleepers s) (hs : step cfg s a = some s') : Sleepers s' := by
  obtain ⟨t, b⟩ := a
  rcases step_cases hs with ⟨c, -, hpc, -, -, rfl⟩ | ⟨ch, pc, m', pc', mk, -, hpc, haccess, rfl⟩
  · refine ⟨fun o u hu => ?_, h.nodup⟩
    have hut : u ≠ t := by
      rintro rfl
      exact h.not_mem (by rw [hpc]; rfl) o hu
    simpa [update_of_ne hut] using h.asleep o u hu
  · have hbind : (s.threads t).bind Pc.sleepsOn = pc.sleepsOn := by rw [hpc]; rfl
    have hrest := haccess.rest
    have hothers : ∀ o u, u ≠ t → u ∈ m'.cVariable o →
        (update s.threads t pc' u).bind Pc.sleepsOn = some o := fun o u hut hu => by
      rw [update_of_ne hut]
      exact h.asleep o u (hrest.subset hut hu)
    -- a list that loses threads, or is given one that was on none
    have hupdate : ∀ {d : Object} {us : List ι}, m'.cVariable = update s.mem.cVariable d us →
        us.Nodup → ∀ o, (m'.cVariable o).Nodup := by
      intro d us hm hus o
      rw [hm]
      by_cases hod : o = d
      · subst hod
        rwa [update_self]
      · rw [update_of_ne hod]
        exact h.nodup o
    have hself : ∀ o, t ∈ m'.cVariable o → (update s.threads t pc' t).bind Pc.sleepsOn = some o := by
      intro o hmem
      rw [update_self]
      cases hrest with
      | sleep d hm hpc₀ hpc' =>
          rw [hm] at hmem
          by_cases hod : o = d
          · rw [hod, hpc']
          · rw [update_of_ne hod] at hmem
            exact absurd hmem (h.not_mem (hbind.trans hpc₀) o)
      | wake d hm hpc₀ hpc' =>
          rw [hm] at hmem
          by_cases hod : o = d
          · subst hod
            rw [update_self] at hmem
            exact absurd hmem (h.nodup o).not_mem_erase
          · rw [update_of_ne hod] at hmem
            have hsame := h.asleep o t hmem
            rw [hbind, hpc₀, Option.some.injEq] at hsame
            exact absurd hsame.symm hod
      | rouse d us hsub hm hpc₀ hpc' =>
          refine absurd ?_ (h.not_mem (hbind.trans hpc₀) o)
          rw [hm] at hmem
          by_cases hod : o = d
          · subst hod
            rw [update_self] at hmem
            exact hsub.subset hmem
          · rwa [update_of_ne hod] at hmem
      | keep hm hpc₀ hpc' => exact absurd (hm ▸ hmem) (h.not_mem (hbind.trans hpc₀) o)
    refine ⟨fun o u hu => ?_, ?_⟩
    · by_cases hut : u = t
      · subst hut
        exact hself o hu
      · exact hothers o u hut hu
    · cases hrest with
      | sleep d hm hpc₀ hpc' =>
          exact hupdate hm (List.nodup_cons.mpr ⟨h.not_mem (hbind.trans hpc₀) d, h.nodup d⟩)
      | wake d hm hpc₀ hpc' => exact hupdate hm ((h.nodup d).erase t)
      | rouse d us hsub hm hpc₀ hpc' => exact hupdate hm ((h.nodup d).sublist hsub)
      | keep hm hpc₀ hpc' =>
          intro o
          rw [hm]
          exact h.nodup o

theorem sleepers_of_reached (h : Reached cfg s) : Sleepers s :=
  h.invariant sleepers_start fun _ _ _ _ hi _ hs => hi.step hs

end Sleep

/-! ## Waits for one event -/

/-- `SetEvent` has set the event and has still to give it away or wake a thread. -/
def SetPc.signals : SetPc → Bool
  | .lock | .unlock => false
  | _ => true

/-- A thread on its way to look at event `e`, if one wait consumes it, or to wake the others. -/
def Pc.Comes {ι : Type*} (m : Memory ι) (e : ℕ) (t : ι) : Pc → Prop
  | .wait d _ .asleep => d = e ∧ (m.events e).autoReset = true ∧ t ∉ m.cVariable (.event e)
  | .wait d _ (.relock r) | .wait d _ (.test r) =>
      d = e ∧ (m.events e).autoReset = true ∧ r = .ok
  | .set d pc => d = e ∧ pc.signals = true
  | _ => False

/-- If threads sleep on an event that is set, one comes for it. -/
def Covered {ι : Type*} (s : State ι) (e : ℕ) : Prop :=
  (s.mem.events e).state = true → s.mem.cVariable (.event e) ≠ [] →
    ∃ t pc, s.threads t = some pc ∧ pc.Comes s.mem e t

section Cover

variable {ι : Type*} [DecidableEq ι] {t : ι} {ch : Chance} {m m' : Memory ι} {pc : Pc}
  {pc' : Option Pc} {mk : Option Mark} {e : ℕ}

/-- Why a step leaves event `e` covered. -/
inductive Cover (t : ι) (e : ℕ) (m m' : Memory ι) (pc : Pc) (pc' : Option Pc) : Prop
  | unset (h : (m'.events e).state = false)
  | empty (h : m'.cVariable (.event e) = [])
  | comes (q : Pc) (hq : pc' = some q) (h : q.Comes m' e t)
  | keep (hpc : ¬ pc.Comes m e t) (hs : (m'.events e).state = true → (m.events e).state = true)
      (hc : ∀ u ∈ m'.cVariable (.event e), u ∈ m.cVariable (.event e))
  | signal (u : ι) (hu : u ∈ m.cVariable (.event e)) (hu' : u ∉ m'.cVariable (.event e))
      (ha : (m.events e).autoReset = true) (hpc : pc.sleepsOn = none)

omit [DecidableEq ι] in
/-- One event changes, but not its state. -/
theorem Memory.state_same (d : ℕ) (ev : PEvent) (hm : m'.events = update m.events d ev)
    (hs : ev.state = (m.events d).state) (e : ℕ) : (m'.events e).state = (m.events e).state := by
  rw [hm]
  by_cases hed : e = d
  · rw [hed, update_self, hs]
  · rw [update_of_ne hed]

/-- How a blocked thread goes on that was not blocked any more. -/
theorem Memory.wakeUp_of_not_mem {o : Object} {timed : Bool} {w : WaitEnd} {r : WaitResult}
    (h : m.wakeUp o t timed w = some r) (ht : t ∉ m.cVariable o) : r = .ok := by
  cases w <;> simp_all [Memory.wakeUp]

omit [DecidableEq ι] in
/-- A signal reaches one of the threads that are blocked. -/
theorem Memory.exists_signalled {o : Object} (hnodup : (m.cVariable o).Nodup)
    (hne : m.cVariable o ≠ []) (k : ℕ) :
    ∃ u ∈ m.cVariable o, u ∉ (m.condSignal o k).cVariable o := by
  have hlt : k % (m.cVariable o).length < (m.cVariable o).length :=
    Nat.mod_lt _ (List.length_pos_iff.mpr hne)
  refine ⟨(m.cVariable o)[k % (m.cVariable o).length], List.getElem_mem hlt, ?_⟩
  rw [Memory.condSignal_cVariable, update_self]
  intro hmem
  have hperm := List.getElem_cons_eraseIdx_perm hlt
  exact (List.nodup_cons.mp (hperm.nodup_iff.mpr hnodup)).1 hmem

theorem Access.cover (h : Access t ch m pc m' pc' mk) (hknows : pc.Knows m)
    (hnodup : ∀ o, (m.cVariable o).Nodup)
    (hsignal : ∀ d, pc = .set d .signal → (m.events d).autoReset = true) (e : ℕ) :
    Cover t e m m' pc pc' := by
  have hset : ∀ {d : ℕ} {q q' : SetPc}, pc = .set d q → q'.signals = true →
      pc' = some (.set d q') → ((m'.events e).state = true → d ≠ e → (m.events e).state = true) →
      (∀ u ∈ m'.cVariable (.event e), u ∈ m.cVariable (.event e)) → Cover t e m m' pc pc' := by
    intro d q q' hpc hq' hpc' hs hc
    by_cases hde : d = e
    · exact .comes _ hpc' ⟨hde, hq'⟩
    · subst hpc
      exact .keep (fun hcomes => hde hcomes.1) (fun hstate => hs hstate hde) hc
  cases h with
  | waitObtain d ms pc hpc hs =>
      by_cases hde : d = e
      · subst hde
        cases hauto : (m.events d).autoReset with
        | true => exact .unset (by simp [PEvent.obtain, hauto])
        | false =>
            refine .keep (fun hcomes => ?_) (fun _ => hs) fun _ hu => hu
            rcases hpc with rfl | rfl
            · exact hcomes
            · exact absurd (hauto.symm.trans hcomes.2.1) (by simp)
      · refine .keep (fun hcomes => ?_) (fun hstate => ?_) fun _ hu => hu
        · rcases hpc with rfl | rfl
          · exact hcomes
          · exact hde hcomes.1
        · simpa [update_of_ne (Ne.symm hde)] using hstate
  | waitSleep d ms pc hpc hs =>
      by_cases hde : d = e
      · exact .unset (hde ▸ hs)
      · refine .keep (fun hcomes => ?_) id fun u hu => ?_
        · rcases hpc with rfl | rfl
          · exact hcomes
          · exact hde hcomes.1
        · simpa [Ne.symm hde] using hu
  | waitWake d ms r hr =>
      by_cases hcomes : (Pc.wait d ms .asleep).Comes m e t
      · obtain ⟨rfl, hauto, ht⟩ := hcomes
        exact .comes _ rfl ⟨rfl, hauto, m.wakeUp_of_not_mem hr ht⟩
      · refine .keep hcomes id fun u hu => ?_
        by_cases hde : d = e
        · subst hde
          rw [Memory.awake_cVariable, update_self] at hu
          exact List.mem_of_mem_erase hu
        · simpa [Ne.symm hde] using hu
  | waitRelock d ms r hfree =>
      by_cases hcomes : (Pc.wait d ms (.relock r)).Comes m e t
      · exact .comes _ rfl hcomes
      · exact .keep hcomes id fun _ hu => hu
  | waitGiveUp d ms r hr => exact .keep (fun hcomes => hr hcomes.2.2) id fun _ hu => hu
  | found c w i hs pc' hpc' =>
      by_cases hde : c.events + i = e
      · refine .keep id (fun _ => hde ▸ hs) fun _ hu => hu
      · refine .keep id (fun hstate => ?_) fun _ hu => hu
        simpa [update_of_ne (Ne.symm hde)] using hstate
  | register c w i hs =>
      refine .keep id (fun hstate => ?_) fun _ hu => hu
      rwa [Memory.state_same (c.events + i) ((m.events (c.events + i)).register ⟨w, i⟩) rfl rfl]
        at hstate
  | sweepDrop c w i k info hs pc' hpc' =>
      refine .keep id (fun hstate => ?_) fun _ hu => hu
      rwa [Memory.state_same (c.events + i) ((m.events (c.events + i)).remove k) rfl rfl] at hstate
  | sleep c w hd => exact .keep id id fun u hu => by simpa using hu
  | wake c w r hr => exact .keep id id fun u hu => by simpa using hu
  | setLock d hfree =>
      exact .keep (fun hcomes => absurd hcomes.2 (by simp [SetPc.signals])) id fun _ hu => hu
  | store d =>
      refine hset rfl rfl rfl (fun hstate hde => ?_) fun _ hu => hu
      simpa [update_of_ne (Ne.symm hde)] using hstate
  | scanLock d i info hi hfree => exact hset rfl rfl rfl (fun hstate _ => hstate) fun _ hu => hu
  | scanAuto d i hi ha hs => exact hset rfl rfl rfl (fun hstate _ => hstate) fun _ hu => hu
  | scanStuck d i hi ha hs => exact absurd (hs.symm.trans hknows.1) (by simp)
  | scanManual d i hi ha =>
      refine hset rfl rfl rfl (fun hstate hde => ?_) fun _ hu => hu
      simpa [update_of_ne (Ne.symm hde)] using hstate
  | serve d i info hs =>
      refine hset rfl rfl rfl (fun hstate hde => ?_) fun _ hu => hu
      simpa [update_of_ne (Ne.symm hde)] using hstate
  | dropLast d i info hs hr =>
      refine hset rfl rfl rfl (fun hstate hde => ?_) fun _ hu => hu
      simpa [update_of_ne (Ne.symm hde)] using hstate
  | drop d i info hs hr =>
      refine hset rfl rfl rfl (fun hstate hde => ?_) fun _ hu => hu
      simpa [update_of_ne (Ne.symm hde)] using hstate
  | destroy d i w =>
      refine hset rfl rfl rfl (fun hstate hde => ?_) fun _ hu => hu
      simpa [update_of_ne (Ne.symm hde)] using hstate
  | notify d i w pc' hpc' =>
      have hc : ∀ u ∈ ((m.condSignal (.waiter w) ch.woken).setEvent d PEvent.pass).cVariable (.event e),
          u ∈ m.cVariable (.event e) := fun u hu => by simpa using hu
      cases hauto : (m.events d).autoReset with
      | true =>
          by_cases hde : d = e
          · subst hde
            refine .unset ?_
            rw [Memory.state_same d (m.events d).pass rfl (PEvent.pass_eq _).2, hknows.1, hauto]
            rfl
          · refine .keep (fun hcomes => hde hcomes.1) (fun hstate => ?_) hc
            rwa [Memory.state_same d (m.events d).pass rfl (PEvent.pass_eq _).2] at hstate
      | false =>
          have hscan : pc' = .scan (i + 1) := by simp [hpc', hauto]
          subst hscan
          refine hset rfl rfl rfl (fun hstate hde => ?_) hc
          rwa [Memory.state_same d (m.events d).pass rfl (PEvent.pass_eq _).2] at hstate
  | setUnlock d =>
      exact .keep (fun hcomes => absurd hcomes.2 (by simp [SetPc.signals])) id fun _ hu => hu
  | signal d =>
      by_cases hde : d = e
      · subst hde
        by_cases hne : m.cVariable (.event d) = []
        · exact .empty (by simp [hne])
        · obtain ⟨u, hu, hu'⟩ := m.exists_signalled (hnodup _) hne ch.woken
          exact .signal u hu hu' (hsignal d rfl) rfl
      · exact .keep (fun hcomes => hde hcomes.1) id fun u hu => by simpa [Ne.symm hde] using hu
  | broadcast d =>
      by_cases hde : d = e
      · exact .empty (by simp [hde])
      · exact .keep (fun hcomes => hde hcomes.1) id fun u hu => by simpa [Ne.symm hde] using hu
  | reset d =>
      by_cases hde : d = e
      · exact .unset (by simp [hde, PEvent.reset])
      · refine .keep id (fun hstate => ?_) fun _ hu => hu
        simpa [update_of_ne (Ne.symm hde)] using hstate
  | _ => exact .keep id id fun _ hu => hu

variable {cfg : Config ι} {s s' : State ι} {a : ι × Choice}

/-- Only an auto-reset event is signalled. -/
theorem signal_of_reached (h : Reached cfg s) :
    ∀ t d, s.threads t = some (.set d .signal) → (s.mem.events d).autoReset = true := by
  have hauto : ∀ t pc, s.threads t = some pc → ∀ d, pc = .set d .signal →
      cfg.autoReset d = true := by
    refine h.invariant (I := fun s => ∀ t pc, s.threads t = some pc → ∀ d, pc = .set d .signal →
      cfg.autoReset d = true) (fun t pc hpc => absurd hpc.symm (Option.some_ne_none pc))
      fun s a s' hr hi _ hs => ?_
    rcases step_cases hs with ⟨c, -, hpc, -, -, rfl⟩ | ⟨ch, pc, m', pc', mk, -, hpc, haccess, rfl⟩
    · refine forall_pc_update (fun u q _ hq => hi u q hq) fun q hq d hd => ?_
      cases hq
      cases c <;> cases hd
    · refine forall_pc_update (fun u q _ hq => hi u q hq) fun q hq d hd => ?_
      subst hd hq
      cases haccess with
      | scanAuto d i hreg ha hset => exact (autoReset_of_reached hr d).symm.trans ha
      | notify d i w pc' hpc' => split at hpc' <;> cases hpc'
      | leave c w r pc' hpc' => split at hpc' <;> cases hpc'
  intro t d hpc
  rw [autoReset_of_reached h]
  exact hauto t _ hpc d rfl

omit [DecidableEq ι] in
/-- Another thread that comes for an event still does after the step. -/
theorem Pc.Comes.of_subset {q : Pc} {u : ι} (h : q.Comes m e u)
    (ha : (m'.events e).autoReset = (m.events e).autoReset)
    (hc : u ∈ m'.cVariable (.event e) → u ∈ m.cVariable (.event e)) : q.Comes m' e u := by
  cases q with
  | wait d ms pc =>
      cases pc with
      | asleep => exact ⟨h.1, ha.trans h.2.1, fun hu => h.2.2 (hc hu)⟩
      | relock r | test r => exact ⟨h.1, ha.trans h.2.1, h.2.2⟩
      | _ => exact h
  | _ => exact h

/-- **Step lemma of the waits for one event.** -/
theorem Covered.step (h : Covered s e) (hr : Reached cfg s) (hs : step cfg s a = some s') :
    Covered s' e := by
  obtain ⟨t, b⟩ := a
  have hsleepers := sleepers_of_reached hr
  rcases step_cases hs with ⟨c, -, hpc, -, -, rfl⟩ | ⟨ch, pc, m', pc', mk, -, hpc, haccess, rfl⟩
  · intro hset hne
    obtain ⟨u, q, hq, hcomes⟩ := h hset hne
    have hut : u ≠ t := by
      rintro rfl
      rw [hpc] at hq
      cases hq
    exact ⟨u, q, (update_of_ne hut _ _).trans hq, hcomes⟩
  · have hknows := (guarded_of_reached hr).knows t pc hpc
    have hauto := (haccess.turn hknows).autoReset e
    intro hset hne
    rcases haccess.cover hknows hsleepers.nodup
        (fun d hd => signal_of_reached hr t d (hd ▸ hpc)) e with
      hunset | hempty | ⟨q, rfl, hcomes⟩ | ⟨hself, hstate, hsub⟩ | ⟨u, hu, hu', ha, hnone⟩
    · exact absurd (hset.symm.trans hunset) (by simp)
    · exact absurd hempty hne
    · exact ⟨t, q, update_self _ _ _, hcomes⟩
    · obtain ⟨u, hu⟩ := List.exists_mem_of_ne_nil _ hne
      obtain ⟨v, q, hq, hcomes⟩ := h (hstate hset) (List.ne_nil_of_mem (hsub u hu))
      have hvt : v ≠ t := by
        rintro rfl
        rw [hpc] at hq
        cases hq
        exact hself hcomes
      exact ⟨v, q, (update_of_ne hvt _ _).trans hq, hcomes.of_subset hauto (hsub v)⟩
    · have hasleep := hsleepers.asleep _ u hu
      have hut : u ≠ t := by
        rintro rfl
        exact hsleepers.not_mem (by rw [hpc]; exact hnone) _ hu
      obtain ⟨q, hq, hq'⟩ := Option.bind_eq_some_iff.mp hasleep
      refine ⟨u, q, (update_of_ne hut _ _).trans hq, ?_⟩
      cases q with
      | wait d ms pc =>
          cases pc <;> cases hq'
          exact ⟨rfl, hauto.trans ha, hu'⟩
      | multiple c pc => cases pc <;> cases hq'
      | _ => cases hq'

theorem covered_of_reached (h : Reached cfg s) (e : ℕ) : Covered s e :=
  h.invariant (I := fun s => Covered s e) (fun hset => absurd hset (by simp [start, createEvent]))
    fun _ _ _ hr hi _ hs => hi.step hr hs

end Cover

/-! ## Waits for several events -/

/-- A call that sleeps although it has what it waits for is about to be signalled. -/
def Signalled {ι : Type*} (s : State ι) : Prop :=
  ∀ t c w, s.threads t = some (.multiple c (.asleep w)) → t ∈ s.mem.cVariable (.waiter w) →
    c.done (s.mem.waiters w).status = true → ∃ u e i, s.threads u = some (.set e (.notify i w))

section Signalled

variable {ι : Type*} {t : ι} {m m' : Memory ι} {pc : Pc} {pc' : Option Pc} {mk : Option Mark} {w : ℕ}

/-- The status of another thread's call changes when `SetEvent` serves it. -/
theorem Dealing.status_cases (h : Dealing m m' pc pc' mk) (hown : pc.own ≠ some w)
    (hlt : w < m.allocated) :
    (m'.waiters w).status = (m.waiters w).status ∨ ∃ e i, pc' = some (.set e (.notify i w)) := by
  cases h with
  | create c hm => exact .inl (by rw [hm, Memory.new_waiters, update_of_ne hlt.ne])
  | register c v i hl hs => exact .inl (Wfmo.eq_of_standing (hs w)).1
  | found c v i hl hw =>
      have hwv : w ≠ v := fun heq => hown (by rw [heq]; rfl)
      exact .inl (by rw [hw, update_of_ne hwv])
  | serve e i info hstill hl hw =>
      by_cases hwi : w = info.waiter
      · exact .inr ⟨e, i, by rw [hwi]⟩
      · exact .inl (by rw [hw, update_of_ne hwi])
  | drop e info hstill hl hs pc pc' hphase => exact .inl (Wfmo.eq_of_standing (hs w)).1
  | leave c v r hl hw pc' hphase =>
      have hwv : w ≠ v := fun heq => hown (by rw [heq]; rfl)
      exact .inl (by rw [hw, update_of_ne hwv])
  | other hl hs pc pc' mk hphase hgiven hleft => exact .inl (Wfmo.eq_of_standing (hs w)).1

variable {cfg : Config ι} {s s' : State ι} {a : ι × Choice}

/-- Only the call itself sleeps on its condition variable, so that a signal there wakes it. -/
theorem Sleepers.condSignal (h : Sleepers s) (hr : Referenced cfg.eventCount s)
    (ht : t ∈ s.mem.cVariable (.waiter w)) (k : ℕ) :
    t ∉ (s.mem.condSignal (.waiter w) k).cVariable (.waiter w) := by
  have hown : ∀ u ∈ s.mem.cVariable (.waiter w), (s.threads u).bind Pc.own = some w := by
    intro u hu
    obtain ⟨q, hq, hq'⟩ := Option.bind_eq_some_iff.mp (h.asleep _ u hu)
    rw [hq]
    cases q with
    | multiple c pc =>
        cases pc <;> cases hq'
        rfl
    | wait e ms pc => cases pc <;> cases hq'
    | _ => cases hq'
  obtain ⟨u, hu, hu'⟩ := s.mem.exists_signalled (h.nodup _) (List.ne_nil_of_mem ht) k
  rwa [hr.own.own.unique t u w (hown t ht) (hown u hu)]

variable [DecidableEq ι]

/-- **Step lemma of the waits for several events.** -/
theorem Signalled.step (h : Signalled s) (hr : Reached cfg s) (hs : step cfg s a = some s') :
    Signalled s' := by
  obtain ⟨t, b⟩ := a
  have hrefs := referenced_of_reached hr
  have hsleepers := sleepers_of_reached hr
  rcases step_cases hs with ⟨c, -, hpc, -, -, rfl⟩ | ⟨ch, pc, m', pc', mk, -, hpc, haccess, rfl⟩
  · intro u d w hu hmem hdone
    have hut : u ≠ t := by
      rintro rfl
      have hcall := (update_self u (some c.enter) s.threads).symm.trans hu
      cases c <;> cases hcall
    obtain ⟨v, e, i, hv⟩ := h u d w ((update_of_ne hut _ _).symm.trans hu) hmem hdone
    have hvt : v ≠ t := by
      rintro rfl
      rw [hpc] at hv
      cases hv
    exact ⟨v, e, i, (update_of_ne hvt _ _).trans hv⟩
  · have hd := haccess.dealing ((guarded_of_reached hr).knows t pc hpc)
    intro u d w hu hmem hdone
    by_cases hut : u = t
    · subst hut
      -- it goes to sleep, having seen that it is not done
      obtain rfl : pc' = some (.multiple d (.asleep w)) := (update_self u pc' s.threads).symm.trans hu
      cases haccess with
      | sleep c w hnot => exact absurd (hnot.symm.trans hdone) (by simp)
      | loopEnd c v i hi pc' hpc' | relock c v r hfree pc' hpc' | found c v i hs pc' hpc'
      | sweepDrop c v i k info hs pc' hpc' => split at hpc' <;> cases hpc'
      | leave c v r pc' hpc' => split at hpc' <;> cases hpc'
    · have hold := (update_of_ne hut _ _).symm.trans hu
      have hmem' : u ∈ s.mem.cVariable (.waiter w) := haccess.rest.subset hut hmem
      have hpresent := hrefs.present hold (w := w) rfl
      have hown : pc.own ≠ some w := fun hown => hut (hrefs.own.own.unique u t w
        (by rw [hold]; rfl) (by rw [hpc]; exact hown))
      have hlt := (hrefs.alive (Memory.references_pos_of_present hpresent)).1
      rcases hd.status_cases hown hlt with hstatus | ⟨e, i, rfl⟩
      · obtain ⟨v, e, i, hv⟩ := h u d w hold hmem' (hstatus ▸ hdone)
        by_cases hvt : v = t
        · subst hvt
          obtain rfl := Option.some.inj (hpc.symm.trans hv)
          cases haccess with
          | notify e i w pc' hpc' => exact absurd hmem (hsleepers.condSignal hrefs hmem' ch.woken)
        · exact ⟨v, e, i, (update_of_ne hvt _ _).trans hv⟩
      · exact ⟨t, e, i, update_self _ _ _⟩

theorem signalled_of_reached (h : Reached cfg s) : Signalled s :=
  h.invariant (fun _ _ _ hpc => absurd hpc.symm (Option.some_ne_none _)) fun _ _ _ hr hi _ hs =>
    hi.step hr hs

end Signalled

end AtomicMessageQueue.Pevents
