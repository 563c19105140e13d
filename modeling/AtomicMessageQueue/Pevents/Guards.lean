import AtomicMessageQueue.Lib.Mutex
import AtomicMessageQueue.Pevents.Threads

/-! # What the mutexes guard

Each mutex is held by the thread whose program point says so, nobody touches the data of an event or of
a block without holding its mutex, and an event whose mutex is free is `Idle`: no registration is half
dealt with, and while it is set no call is registered with it. In between, `Pc.Knows` says what the
holder of an event's mutex has made of it.
-/

namespace AtomicMessageQueue.Pevents

open Function Transition Mutexes

/-! ## Who holds what -/

/-- The mutexes a thread holds at a program point, the latest first. -/
def Pc.held : Pc → List Object
  | .wait e _ .check | .wait e _ (.test _) => [.event e]
  | .multiple _ (.lockEvent w _) | .multiple _ (.testDone w) | .multiple _ (.leave w _) =>
      [.waiter w]
  | .multiple c (.sweep w i _) | .multiple c (.check w i) | .multiple c (.destroyExpired w i _ _) =>
      [.event (c.events + i), .waiter w]
  | .multiple c (.expired w i _ info) => [.waiter info.waiter, .event (c.events + i), .waiter w]
  | .set e .store | .set e (.scan _) | .set e (.destroy _ _) | .set e (.notify _ _)
  | .set e .unlock => [.event e]
  | .set e (.serve _ info) => [.waiter info.waiter, .event e]
  | .reset e .store => [.event e]
  | _ => []

/-- The mutexes a thread holds; outside the functions it holds none. -/
def heldAt (p : Option Pc) : List Object := p.elim [] Pc.held

@[simp]
theorem heldAt_none : heldAt none = [] := rfl

@[simp]
theorem heldAt_some (pc : Pc) : heldAt (some pc) = pc.held := rfl

/-- Of what the threads hold, a step changes what its own thread holds. -/
theorem heldAt_update {ι : Type*} [DecidableEq ι] (threads : ι → Option Pc) (t : ι) (p : Option Pc) :
    (fun u => heldAt (update threads t p u)) = update (fun u => heldAt (threads u)) t (heldAt p) := by
  funext u
  by_cases hut : u = t
  · subst hut
    rw [update_self, update_self]
  · rw [update_of_ne hut, update_of_ne hut]

/-! ## What the holder knows -/

/-- An event at rest: every registration is one to be served, and an event that is set has none. -/
structure PEvent.Idle (ev : PEvent) : Prop where
  counted : ev.counted = 0
  empty : ev.state = true → ev.registeredWaits = []

/-- What `SetEvent` knows of its event. -/
def SetPc.Knows (ev : PEvent) : SetPc → Prop
  | .store => ev.Idle
  | .scan i => ev.state = true ∧ ev.counted = i ∧ (ev.autoReset = true → i = 0)
  | .serve i info =>
      ev.state = true ∧ ev.counted = i ∧ (ev.autoReset = true → i = 0) ∧
        ev.registeredWaits[i]? = some info
  | .destroy i _ =>
      ev.state = true ∧ ev.counted = i + 1 ∧ (ev.autoReset = true → i = 0) ∧
        i < ev.registeredWaits.length
  | .notify i _ =>
      (ev.state = !ev.autoReset) ∧ ev.counted = i + 1 ∧ (ev.autoReset = true → i = 0) ∧
        i < ev.registeredWaits.length
  | .unlock => ev.state = false ∧ ev.counted = 0
  | _ => True

/-- What a thread knows of the event whose mutex it holds. -/
def Pc.Knows {ι : Type*} (m : Memory ι) : Pc → Prop
  | .wait e _ .check | .wait e _ (.test _) => (m.events e).Idle
  | .multiple c (.sweep _ i _) | .multiple c (.check _ i) | .multiple c (.destroyExpired _ i _ _) =>
      (m.events (c.events + i)).Idle
  | .multiple c (.expired w i k info) =>
      (m.events (c.events + i)).Idle ∧ info.waiter ≠ w ∧
        (m.events (c.events + i)).registeredWaits[k]? = some info
  | .set e pc => pc.Knows (m.events e)
  | .reset e .store => (m.events e).Idle
  | _ => True

@[simp]
theorem Pc.knows_set {ι : Type*} {m : Memory ι} {e : ℕ} {pc : SetPc} :
    (Pc.set e pc).Knows m ↔ pc.Knows (m.events e) := Iff.rfl

/-- What a thread knows is about the events whose mutex it holds. -/
theorem Pc.Knows.of_same {ι : Type*} {m m' : Memory ι} {pc : Pc} (h : pc.Knows m)
    (hsame : ∀ e, .event e ∈ pc.held → m'.events e = m.events e) : pc.Knows m' := by
  cases pc with
  | wait e ms pc => cases pc <;> simp_all [Pc.Knows, Pc.held]
  | multiple c pc => cases pc <;> simp_all [Pc.Knows, Pc.held]
  | set e pc => cases pc <;> simp_all [Pc.Knows, Pc.held, SetPc.Knows]
  | reset e pc => cases pc <;> simp_all [Pc.Knows, Pc.held]

section Idle

variable {ev : PEvent}

theorem PEvent.Idle.obtain (h : ev.Idle) (hs : ev.state = true) : ev.obtain.Idle :=
  ⟨h.counted, fun _ => h.empty hs⟩

theorem PEvent.Idle.remove (h : ev.Idle) (k : ℕ) : (ev.remove k).Idle :=
  ⟨h.counted, fun hs => by simp [PEvent.remove, h.empty hs]⟩

theorem PEvent.Idle.register (h : ev.Idle) (hs : ev.state = false) (info : WfmoInfo) :
    (ev.register info).Idle :=
  ⟨h.counted, fun hs' => by rw [PEvent.register, hs] at hs'; cases hs'⟩

theorem PEvent.idle_clear (ev : PEvent) : ev.clear.Idle := ⟨rfl, fun _ => rfl⟩

theorem PEvent.Idle.reset (h : ev.Idle) : ev.reset.Idle :=
  ⟨h.counted, fun hs => by cases hs⟩

/-- `SetEvent` is done with a registration it has dealt with. -/
theorem PEvent.pass_knows {i : ℕ} (hs : ev.state = true) (hc : ev.counted = i + 1)
    (ha : ev.autoReset = true → i = 0) : (SetPc.scan (ev.nextIndex i)).Knows ev.pass := by
  unfold PEvent.nextIndex PEvent.pass
  split
  next hauto => exact ⟨hs, by simp [hc], fun _ => ha hauto⟩
  next hauto => exact ⟨hs, hc, fun h => absurd h hauto⟩

theorem SetPc.Knows.give {i : ℕ} {info : WfmoInfo} (h : (SetPc.serve i info).Knows ev) (w : ℕ) :
    (SetPc.notify i w).Knows ev.give := by
  obtain ⟨hset, hcounted, ha, hi⟩ := h
  have hlt := (List.getElem?_eq_some_iff.mp hi).1
  unfold PEvent.give
  split
  next hauto => exact ⟨by simp [PEvent.countOff, PEvent.reset, hauto], by simp [hcounted,
      PEvent.countOff, PEvent.reset], fun _ => ha hauto, hlt⟩
  next hauto => exact ⟨by simp [PEvent.countOff, hauto, hset], by simp [hcounted, PEvent.countOff],
      fun h => absurd h hauto, hlt⟩

theorem SetPc.Knows.countOff {i : ℕ} {info : WfmoInfo} (h : (SetPc.serve i info).Knows ev) (w : ℕ) :
    (SetPc.destroy i w).Knows ev.countOff := by
  obtain ⟨hset, hcounted, ha, hi⟩ := h
  exact ⟨hset, by simp [PEvent.countOff, hcounted], ha, (List.getElem?_eq_some_iff.mp hi).1⟩

theorem SetPc.Knows.pass {i w : ℕ} (h : (SetPc.destroy i w).Knows ev) :
    (SetPc.scan (ev.nextIndex i)).Knows ev.pass :=
  PEvent.pass_knows h.1 h.2.1 h.2.2.1

theorem SetPc.Knows.notified {i w : ℕ} (h : (SetPc.notify i w).Knows ev) :
    (if ev.autoReset then SetPc.unlock else .scan (i + 1)).Knows ev.pass := by
  obtain ⟨hset, hcounted, ha, -⟩ := h
  unfold PEvent.pass
  by_cases hauto : ev.autoReset = true
  · rw [if_pos hauto, if_pos hauto]
    exact ⟨by simp [hset, hauto], by simp [hcounted, ha hauto]⟩
  · rw [if_neg hauto, if_neg hauto]
    exact ⟨by simp [hset, hauto], hcounted, fun h => absurd h hauto⟩

/-- Where an auto-reset event has no registration left, or the loop over those of a manual-reset event is
over, the event can be given back. -/
theorem SetPc.Knows.idle {i : ℕ} (h : (SetPc.scan i).Knows ev) (hi : ev.registeredWaits[i]? = none)
    (ha : ev.autoReset = true) : ev.Idle := by
  obtain ⟨-, hcounted, hzero⟩ := h
  rw [hzero ha] at hi hcounted
  exact ⟨hcounted, fun _ => List.eq_nil_of_length_eq_zero
    (Nat.le_zero.mp (List.getElem?_eq_none_iff.mp hi))⟩

end Idle

section Step

variable {ι : Type*} [DecidableEq ι] {t : ι} {ch : Chance} {m m' : Memory ι} {pc : Pc}
  {pc' : Option Pc} {mk : Option Mark}

/-- What a step does to the mutexes: it takes one, gives up the latest, or leaves them alone. -/
theorem Access.change (h : Access t ch m pc m' pc' mk) (hknows : pc.Knows m) :
    Change t m.mutex pc.held m'.mutex (heldAt pc') := by
  cases h with
  | waitLock e ms hfree | waitRelock e ms r hfree => exact .acquire _ hfree rfl rfl
  | setLock e hfree | resetLock e hfree => exact .acquire _ hfree rfl rfl
  | lockOwn c w hfree | lockEvent c w i hi hfree => exact .acquire _ hfree rfl rfl
  | sweepLock c w i k info hk hfree | scanLock e i info hi hfree => exact .acquire _ hfree rfl rfl
  | relock c w r hfree pc' hpc' =>
      refine .acquire _ hfree rfl ?_
      subst hpc'
      split <;> rfl
  | waitObtain e ms pc hpc hs | waitSleep e ms pc hpc hs =>
      refine .release _ rfl ?_ List.not_mem_nil
      rcases hpc with rfl | rfl <;> rfl
  | waitRefuse e ms hms hs => exact .release _ rfl rfl List.not_mem_nil
  | waitGiveUp e ms r hr => exact .release _ rfl rfl List.not_mem_nil
  | sweepKeep c w i k info hstill =>
      exact .release _ rfl rfl (by simpa [Pc.held] using hknows.2.1)
  | sweepDrop c w i k info hstill pc' hpc' =>
      have hheld : (Pc.multiple c pc').held = [.event (c.events + i), .waiter w] := by
        subst hpc'
        split <;> rfl
      refine .release (.waiter info.waiter) rfl ?_ ?_ <;> rw [heldAt_some, hheld]
      · rfl
      · simpa using hknows.2.1
  | found c w i hs pc' hpc' =>
      have hheld : (Pc.multiple c pc').held = [.waiter w] := by
        subst hpc'
        split <;> rfl
      refine .release (.event (c.events + i)) rfl ?_ ?_ <;> rw [heldAt_some, hheld]
      · rfl
      · simp
  | register c w i hs => exact .release _ rfl rfl (by simp [Pc.held])
  | sleep c w hd => exact .release _ rfl rfl List.not_mem_nil
  | leave c w r pc' hpc' =>
      have hheld : heldAt pc' = [] := by
        subst hpc'
        split <;> rfl
      refine .release (.waiter w) rfl ?_ ?_ <;> rw [hheld]
      · rfl
      · exact List.not_mem_nil
  | scanAuto e i hi ha hs | scanManual e i hi ha => exact .release _ rfl rfl List.not_mem_nil
  | scanStuck e i hi ha hs => exact absurd (hs.symm.trans hknows.1) (by simp)
  | serve e i info hs | dropLast e i info hs hr | drop e i info hs hr =>
      exact .release _ rfl rfl (by simp [Pc.held])
  | setUnlock e | reset e => exact .release _ rfl rfl List.not_mem_nil
  | loopEnd c w i hi pc' hpc' | notify e i w pc' hpc' =>
      refine .keep rfl ?_
      subst hpc'
      split <;> rfl
  | _ => exact .keep rfl rfl

/-- Only the holder of an event's mutex changes its data. -/
theorem Access.events_eq (h : Access t ch m pc m' pc' mk) {e : ℕ} (he : .event e ∉ pc.held) :
    m'.events e = m.events e := by
  cases h with
  | waitObtain e₀ ms pc hpc hs =>
      have hne : e ≠ e₀ := by
        rcases hpc with rfl | rfl <;> simpa [Pc.held] using he
      exact update_of_ne hne _ _
  | _ =>
      first
        | rfl
        | exact update_of_ne (by simpa [Pc.held] using he) _ _

/-- Only the holder of a block's mutex changes its data, once it is made. -/
theorem Access.waiters_eq (h : Access t ch m pc m' pc' mk) {w : ℕ} (hw : .waiter w ∉ pc.held)
    (hold : w < m'.allocated → w < m.allocated) : m'.waiters w = m.waiters w := by
  cases h with
  | create c =>
      refine update_of_ne ?_ _ _
      rintro rfl
      exact Nat.lt_irrefl _ (hold (Nat.lt_succ_self _))
  | _ =>
      first
        | rfl
        | exact update_of_ne (by simp_all [Pc.held]) _ _

/-- What the thread that steps knows next. -/
theorem Access.knows (h : Access t ch m pc m' pc' mk) (hknows : pc.Knows m)
    (hheld : ∀ o ∈ pc.held, m.mutex o = some t)
    (hidle : ∀ e, m.mutex (.event e) = none → (m.events e).Idle) {q : Pc} (hq : pc' = some q) :
    q.Knows m' := by
  subst hq
  cases h with
  | waitLock e ms hfree | waitRelock e ms r hfree => exact hidle e hfree
  | setLock e hfree | resetLock e hfree => exact hidle e hfree
  | lockEvent c w i hi hfree => exact hidle _ hfree
  | swept c w i k hk | sweepBusy c w i k info hk hbusy => exact hknows
  | destroyExpired c w i k u => exact hknows
  | sweepLock c w i k info hk hfree =>
      refine ⟨hknows, ?_, hk⟩
      rintro rfl
      have hmine := hheld (.waiter info.waiter) (by simp [Pc.held])
      rw [hfree] at hmine
      cases hmine
  | sweepKeep c w i k info hstill => exact hknows.1
  | sweepDrop c w i k info hstill pc' hpc' =>
      have hidle' : ((m.events (c.events + i)).remove k).Idle := hknows.1.remove k
      subst hpc'
      split <;> simpa [Pc.Knows] using hidle'
  | store e => simpa [Pc.Knows, SetPc.Knows, PEvent.raise] using hknows.counted
  | scanLock e i info hi hfree => exact ⟨hknows.1, hknows.2.1, hknows.2.2, hi⟩
  | serve e i info hs =>
      simpa using SetPc.Knows.give hknows info.waiter
  | dropLast e i info hs hr =>
      simpa using SetPc.Knows.countOff hknows info.waiter
  | drop e i info hs hr =>
      have hpass : (SetPc.scan ((m.events e).nextIndex i)).Knows (m.events e).countOff.pass :=
        (SetPc.Knows.countOff hknows info.waiter).pass
      simpa using hpass
  | destroy e i w =>
      simpa using SetPc.Knows.pass (w := w) hknows
  | notify e i w pc' hpc' =>
      subst hpc'
      simpa using SetPc.Knows.notified (w := w) hknows
  | loopEnd c w i hi pc' hpc' | relock c w r hfree pc' hpc' | found c w i hs pc' hpc' =>
      subst hpc'
      split <;> exact trivial
  | leave c w r pc' hpc' =>
      split at hpc' <;> cases hpc'
      exact trivial
  | _ => exact trivial

/-- An event whose mutex the thread gives up is at rest. -/
theorem Access.idle (h : Access t ch m pc m' pc' mk) (hknows : pc.Knows m) {e : ℕ}
    (he : .event e ∈ pc.held) (hmine : m.mutex (.event e) = some t)
    (hfree : m'.mutex (.event e) = none) : (m'.events e).Idle := by
  cases h with
  | waitObtain e₀ ms pc hpc hs =>
      obtain rfl : e = e₀ := by rcases hpc with rfl | rfl <;> simpa [Pc.held] using he
      have hidle : (m.events e).Idle := by rcases hpc with rfl | rfl <;> exact hknows
      simpa using hidle.obtain hs
  | waitSleep e₀ ms pc hpc hs =>
      obtain rfl : e = e₀ := by rcases hpc with rfl | rfl <;> simpa [Pc.held] using he
      rcases hpc with rfl | rfl <;> exact hknows
  | waitRefuse e₀ ms hms hs | waitGiveUp e₀ ms r hr =>
      obtain rfl : e = e₀ := by simpa [Pc.held] using he
      exact hknows
  | found c w i hs pc' hpc' =>
      obtain rfl : e = c.events + i := by simpa [Pc.held] using he
      simpa using PEvent.Idle.obtain hknows hs
  | register c w i hs =>
      obtain rfl : e = c.events + i := by simpa [Pc.held] using he
      simpa using PEvent.Idle.register hknows hs ⟨w, i⟩
  | scanAuto e₀ i hi ha hs =>
      obtain rfl : e = e₀ := by simpa [Pc.held] using he
      exact SetPc.Knows.idle hknows hi ha
  | scanManual e₀ i hi ha =>
      obtain rfl : e = e₀ := by simpa [Pc.held] using he
      simpa using PEvent.idle_clear _
  | setUnlock e₀ =>
      obtain rfl : e = e₀ := by simpa [Pc.held] using he
      exact ⟨hknows.2, fun hs => absurd (hknows.1.symm.trans hs) (by simp)⟩
  | reset e₀ =>
      obtain rfl : e = e₀ := by simpa [Pc.held] using he
      simpa using PEvent.Idle.reset hknows
  | _ => simp_all [Pc.held]

end Step

/-! ## The invariant -/

/-- The mutexes are held by those whose program point says so, what their holders know is the case, and
every event whose mutex is free is at rest. -/
structure Guarded {ι : Type*} (s : State ι) : Prop where
  agree : Agree s.mem.mutex fun t => heldAt (s.threads t)
  knows : ∀ t pc, s.threads t = some pc → pc.Knows s.mem
  idle : ∀ e, s.mem.mutex (.event e) = none → (s.mem.events e).Idle

section Invariant

variable {ι : Type*} {cfg : Config ι} {s s' : State ι} {a : ι × Choice}

theorem guarded_start : Guarded (start cfg) where
  agree := agree_free
  knows _ pc h := absurd h.symm (Option.some_ne_none pc)
  idle _ _ := ⟨rfl, fun _ => rfl⟩

theorem Guarded.held (h : Guarded s) {t : ι} {pc : Pc} (hpc : s.threads t = some pc) {o : Object}
    (ho : o ∈ pc.held) : s.mem.mutex o = some t := by
  refine (h.agree o t).mpr ?_
  simpa [hpc] using ho

/-- The others hold nothing the thread holds. -/
theorem Guarded.others (h : Guarded s) {t u : ι} {pc q : Pc} (hpc : s.threads t = some pc)
    (hq : s.threads u = some q) (hut : u ≠ t) {o : Object} (ho : o ∈ q.held) : o ∉ pc.held :=
  fun ho' => hut (Option.some.inj ((h.held hq ho).symm.trans (h.held hpc ho')))

/-- A call starts at a program point where nothing is held and nothing known. -/
theorem Call.enter_knows (c : Call) (m : Memory ι) : c.enter.held = [] ∧ c.enter.Knows m := by
  cases c <;> exact ⟨rfl, trivial⟩

variable [DecidableEq ι]

/-- What holds at every program point holds after one thread has moved if it holds where that thread is
now. -/
theorem forall_pc_update {threads : ι → Option Pc} {t : ι} {p : Option Pc} {P : ι → Pc → Prop}
    (hothers : ∀ u pc, u ≠ t → threads u = some pc → P u pc) (hself : ∀ pc, p = some pc → P t pc)
    (u : ι) (pc : Pc) (h : update threads t p u = some pc) : P u pc := by
  by_cases hut : u = t
  · subst hut
    rw [update_self] at h
    exact hself pc h
  · rw [update_of_ne hut] at h
    exact hothers u pc hut h

/-- **Step lemma of the mutexes.** -/
theorem Guarded.step (h : Guarded s) (hs : step cfg s a = some s') : Guarded s' := by
  obtain ⟨t, b⟩ := a
  rcases step_cases hs with ⟨c, -, hpc, -, -, rfl⟩ | ⟨ch, pc, m', pc', mk, -, hpc, haccess, rfl⟩
  · obtain ⟨hheld, hknows⟩ := c.enter_knows s.mem
    refine ⟨?_, forall_pc_update (fun u q _ hq => h.knows u q hq) fun q hq => ?_, h.idle⟩
    · rw [heldAt_update]
      refine h.agree.change (.keep rfl ?_)
      simp [hpc, hheld]
    · exact Option.some.inj hq ▸ hknows
  · have hknows := h.knows t pc hpc
    refine ⟨?_, forall_pc_update (fun u q hut hq => ?_) fun q hq => ?_, fun e he => ?_⟩
    · rw [heldAt_update]
      refine h.agree.change ?_
      simpa [hpc] using haccess.change hknows
    · exact (h.knows u q hq).of_same fun e he => haccess.events_eq (h.others hpc hq hut he)
    · exact haccess.knows hknows (fun o ho => h.held hpc ho) h.idle hq
    · by_cases hmine : .event e ∈ pc.held
      · exact haccess.idle hknows hmine (h.held hpc hmine) he
      · have hfree := (haccess.change hknows).free hmine he
        rw [haccess.events_eq hmine]
        exact h.idle e hfree

/-- Who holds what, in every state reached. -/
theorem guarded_of_reached (h : Reached cfg s) : Guarded s :=
  h.invariant guarded_start fun _ _ _ _ hi _ hs => hi.step hs

end Invariant

end AtomicMessageQueue.Pevents
