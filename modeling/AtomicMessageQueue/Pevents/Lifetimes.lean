import AtomicMessageQueue.Lib.Roles
import AtomicMessageQueue.Pevents.References

/-! # The life of a block

A block is made by a waiting call and destroyed by whoever takes the last reference off it. Two roles
carry the argument: the call under way that holds the reference of its block, and the thread that has
taken the last reference off a block and has still to destroy it.
-/

namespace AtomicMessageQueue.Pevents

open Function Transition Mutexes Finset Roles

/-! ## The invariant -/

/-- Each call under way holds the reference of a block of its own, and only such calls hold one. -/
structure OwnBlocks {ι : Type*} (s : State ι) : Prop where
  own : Sole (fun t => (s.threads t).bind Pc.own) fun w => (s.mem.waiters w).present = true
  still : ∀ w, (s.mem.waiters w).stillWaiting = true → (s.mem.waiters w).present = true
  fresh : ∀ w, s.mem.allocated ≤ w → s.mem.waiters w = noWfmo

/-- A block nobody refers to any more, and which has not been destroyed. -/
def Memory.Spent {ι : Type*} (m : Memory ι) (w : ℕ) : Prop :=
  (m.waiters w).refCount = 0 ∧ w < m.allocated ∧ m.destroyed w = false

/-- A block without references has been destroyed, or one thread is about to destroy it. -/
structure Lifetimes {ι : Type*} (s : State ι) : Prop where
  dying : Sole (fun t => (s.threads t).bind Pc.dying) s.mem.Spent
  destroyed : ∀ w, s.mem.destroyed w = true → (s.mem.waiters w).refCount = 0 ∧ w < s.mem.allocated

/-- The references of a state: to events there are, counted, and leading to blocks that live. -/
structure Referenced {ι : Type*} (n : ℕ) (s : State ι) : Prop where
  legal : ∀ t pc, s.threads t = some pc → pc.Legal n
  balanced : Balanced n s.mem
  own : OwnBlocks s
  lifetimes : Lifetimes s
  named : ∀ t pc, s.threads t = some pc → ∀ w, pc.names = some w → w < s.mem.allocated

section Invariant

variable {ι : Type*} {cfg : Config ι} {n : ℕ} {s s' : State ι} {a : ι × Choice} {t : ι}

theorem referenced_start (n : ℕ) : Referenced n (start cfg) where
  legal _ _ h := absurd h.symm (Option.some_ne_none _)
  balanced w := by
    have hzero : (start cfg).mem.registrations n w = 0 := sum_eq_zero fun e _ => rfl
    rw [Memory.references, hzero]
    rfl
  own :=
    { own := sole_none fun w h => absurd h (by simp [start, noWfmo])
      still := fun w h => absurd h (by simp [start, noWfmo])
      fresh := fun _ _ => rfl }
  lifetimes :=
    { dying := sole_none fun w h => absurd h.2.1 (Nat.not_lt_zero w)
      destroyed := fun w h => absurd h (by simp [start]) }
  named _ _ h := absurd h.symm (Option.some_ne_none _)

theorem Referenced.present (h : Referenced n s) {pc : Pc} (hpc : s.threads t = some pc) {w : ℕ}
    (hw : pc.own = some w) : (s.mem.waiters w).present = true :=
  (h.own.own.taken_iff w).mpr ⟨t, by rw [hpc]; exact hw⟩

theorem Referenced.spent (h : Referenced n s) {pc : Pc} (hpc : s.threads t = some pc) {w : ℕ}
    (hw : pc.dying = some w) : s.mem.Spent w :=
  (h.lifetimes.dying.taken_iff w).mpr ⟨t, by rw [hpc]; exact hw⟩

/-- A block that is referred to has been made and not destroyed. -/
theorem Referenced.alive (h : Referenced n s) {w : ℕ} (hpos : 0 < s.mem.references n w) :
    w < s.mem.allocated ∧ s.mem.destroyed w = false ∧ 0 < (s.mem.waiters w).refCount := by
  have hcount := h.balanced.refCount_pos hpos
  refine ⟨Nat.lt_of_not_le fun hle => ?_, Bool.eq_false_iff.mpr fun hd => ?_, hcount⟩
  · rw [h.own.fresh w hle] at hcount
    exact absurd hcount (lt_irrefl _)
  · exact hcount.ne' (h.lifetimes.destroyed w hd).1

/-- What a step other than the signal of `SetEvent` uses is referred to, or its to destroy. -/
theorem Referenced.uses (h : Referenced n s) (hg : Guarded s) {pc : Pc}
    (hpc : s.threads t = some pc) {w : ℕ} (hw : pc.uses s.mem = some w)
    (hne : ∀ e i v, pc ≠ .set e (.notify i v)) : 0 < s.mem.references n w ∨ pc.dying = some w := by
  have hl := h.legal t pc hpc
  have hknows := hg.knows t pc hpc
  have hown : pc.own = some w → 0 < s.mem.references n w := fun hown =>
    Memory.references_pos_of_present (h.present hpc hown)
  cases pc with
  | wait e ms pc => cases hw
  | reset e pc => cases hw
  | multiple c pc =>
      cases pc with
      | create | lockEvent => cases hw
      | sweep v i k =>
          obtain ⟨info, hk, rfl⟩ := Option.map_eq_some_iff.mp hw
          refine .inl (Memory.references_pos_of_live info (WaitCall.event_lt hl.1 hl.2) ?_ rfl)
          rw [PEvent.Idle.live hknows]
          exact List.mem_of_getElem? hk
      | expired v i k info => exact .inl (hknows.references_pos hl hw hne)
      | destroyExpired | destroyOwn => exact .inr hw
      | _ => exact .inl (hown hw)
  | set e pc =>
      cases pc with
      | scan i =>
          obtain ⟨info, hi, rfl⟩ := Option.map_eq_some_iff.mp hw
          obtain ⟨-, hcounted, -⟩ := hknows
          refine .inl (Memory.references_pos_of_live info hl ?_ rfl)
          rw [PEvent.live, hcounted]
          exact List.mem_of_getElem? (i := 0) (by rw [List.getElem?_drop]; exact hi)
      | serve i info => exact .inl (hknows.references_pos hl hw hne)
      | destroy i v => exact .inr hw
      | notify i v => exact absurd rfl (hne e i v)
      | _ => cases hw

/-- A block whose mutex a thread holds is referred to. -/
theorem Referenced.held_pos (h : Referenced n s) (hg : Guarded s) {pc : Pc}
    (hpc : s.threads t = some pc) {w : ℕ} (hw : .waiter w ∈ pc.held) :
    0 < (s.mem.waiters w).refCount := by
  refine h.balanced.refCount_pos ?_
  have hown : pc.own = some w → 0 < s.mem.references n w := fun hown =>
    Memory.references_pos_of_present (h.present hpc hown)
  have hnamed : pc.names = some w → (∀ e i v, pc ≠ .set e (.notify i v)) →
      0 < s.mem.references n w := fun hw hne =>
    (hg.knows t pc hpc).references_pos (h.legal t pc hpc) hw hne
  cases pc with
  | wait e ms pc => cases pc <;> simp [Pc.held] at hw
  | reset e pc => cases pc <;> simp [Pc.held] at hw
  | set e pc =>
      cases pc <;> simp [Pc.held] at hw
      exact hnamed (by rw [hw]; rfl) fun _ _ _ => by simp
  | multiple c pc =>
      cases pc <;> simp only [Pc.held, List.mem_cons, List.not_mem_nil, or_false, false_or,
        reduceCtorEq, Object.waiter.injEq] at hw
      case expired =>
        rcases hw with rfl | rfl
        · exact hnamed rfl fun _ _ _ => by simp
        · exact hown rfl
      all_goals exact hown (by rw [hw]; rfl)

section Access

variable [DecidableEq ι]

/-- Of what is read off the threads' places, a step changes what is read off its own thread's. -/
theorem bind_update {threads : ι → Option Pc} {p : Option Pc} (f : Pc → Option ℕ) (u : ι) :
    (update threads t p u).bind f = if u = t then p.bind f else (threads u).bind f := by
  by_cases hut : u = t
  · subst hut
    rw [update_self, if_pos rfl]
  · rw [update_of_ne hut, if_neg hut]

theorem bind_update_same {threads : ι → Option Pc} {p : Option Pc} {f : Pc → Option ℕ}
    (h : p.bind f = (threads t).bind f) (u : ι) : (update threads t p u).bind f = (threads u).bind f := by
  rw [bind_update]
  split
  next hut => rw [h, hut]
  next => rfl

variable {ch : Chance} {pc : Pc} {m' : Memory ι} {pc' : Option Pc} {mk : Option Mark}

/-- **Step lemma of the calls' own references.** -/
theorem OwnBlocks.step (h : Referenced n s) (hg : Guarded s) (hpc : s.threads t = some pc)
    (haccess : Access t ch s.mem pc m' pc' mk) :
    OwnBlocks { mem := m', threads := update s.threads t pc', hist := mk.toList ++ s.hist } := by
  have hbind : (s.threads t).bind Pc.own = pc.own := by rw [hpc]; rfl
  rcases haccess.own_cases with ⟨c, rfl, rfl, rfl⟩ | ⟨w, hown, hout, hw, ha⟩ | ⟨hsame, ha, hw⟩
  · have hfresh := h.own.fresh s.mem.allocated le_rfl
    refine ⟨h.own.own.take (k := s.mem.allocated) hbind (by simp [hfresh, noWfmo])
      (bind_update Pc.own) fun w => ?_, fun w hs => ?_, fun w hle => ?_⟩
    · by_cases hwa : w = s.mem.allocated
      · simp [hwa, WaitCall.wfmo]
      · simp [hwa]
    · by_cases hwa : w = s.mem.allocated
      · simp [hwa, WaitCall.wfmo]
      · simp only [Memory.new_waiters, update_of_ne hwa] at hs ⊢
        exact h.own.still w hs
    · simp only [Memory.new_allocated, Memory.new_waiters] at hle ⊢
      rw [update_of_ne (by omega)]
      exact h.own.fresh w (by omega)
  · have hp := h.present hpc hown
    refine ⟨h.own.own.drop (k := w) (hbind.trans hown) (fun u => by rw [bind_update, hout])
      fun v => ?_, fun v hs => ?_, fun v hle => ?_⟩
    · by_cases hvw : v = w
      · simp [hw, hvw, Wfmo.leave]
      · simp [hw, hvw]
    · by_cases hvw : v = w
      · simp [hw, hvw, Wfmo.leave] at hs
      · simp only [hw, update_of_ne hvw] at hs ⊢
        exact h.own.still v hs
    · simp only [hw, ha] at hle ⊢
      have hvw : v ≠ w := by
        rintro rfl
        rw [h.own.fresh v hle] at hp
        cases hp
      rw [update_of_ne hvw]
      exact h.own.fresh v hle
  · refine ⟨h.own.own.keep (bind_update_same (hsame.trans hbind.symm)) fun w => by rw [(hw w).1],
      fun w hs => ?_, fun w hle => ?_⟩
    · simp only [(hw w).1]
      exact h.own.still w ((hw w).2 hs)
    · rw [ha] at hle
      have hheld : .waiter w ∉ pc.held := fun hheld => by
        have hpos := h.held_pos hg hpc hheld
        rw [h.own.fresh w hle] at hpos
        exact absurd hpos (lt_irrefl _)
      exact (haccess.waiters_eq hheld fun hlt => ha ▸ hlt).trans (h.own.fresh w hle)

/-- **Step lemma of the blocks' lives.** -/
theorem Lifetimes.step (h : Referenced n s) (hg : Guarded s) (hpc : s.threads t = some pc)
    (haccess : Access t ch s.mem pc m' pc' mk) (hb' : Balanced n m') :
    Lifetimes { mem := m', threads := update s.threads t pc', hist := mk.toList ++ s.hist } := by
  have hbind : (s.threads t).bind Pc.dying = pc.dying := by rw [hpc]; rfl
  rcases haccess.dying_cases h.balanced hb' (hg.knows t pc hpc) (h.legal t pc hpc)
      (fun w hw => h.present hpc hw) h.own.still with
    ⟨w, hdying, hout, hd, hw, ha⟩ | ⟨w, hdying, hout, hd, ha, hzero, hpos, hsame⟩ |
    ⟨hdying, hout, hd, hsame⟩
  · obtain ⟨hzero, hlt, hdest⟩ := h.spent hpc hdying
    refine ⟨h.lifetimes.dying.drop (k := w) (hbind.trans hdying)
      (fun u => by rw [bind_update, hout]) fun v => ?_, fun v hv => ?_⟩
    · unfold Memory.Spent
      by_cases hvw : v = w
      · simp [hd, hvw]
      · simp [hw, ha, hd, hvw]
    · simp only [hw, ha, hd] at hv ⊢
      by_cases hvw : v = w
      · exact hvw ▸ ⟨hzero, hlt⟩
      · rw [update_of_ne hvw] at hv
        exact h.lifetimes.destroyed v hv
  · have hlt : w < s.mem.allocated := by
      refine Nat.lt_of_not_le fun hle => ?_
      rw [h.own.fresh w hle] at hpos
      exact absurd hpos (lt_irrefl _)
    have hdest : s.mem.destroyed w = false :=
      Bool.eq_false_iff.mpr fun hdest => hpos.ne' (h.lifetimes.destroyed w hdest).1
    refine ⟨h.lifetimes.dying.take (k := w) (hbind.trans hdying) (fun hspent => hpos.ne' hspent.1)
      (fun u => by rw [bind_update, hout]) fun v => ?_, fun v hv => ?_⟩
    · unfold Memory.Spent
      by_cases hvw : v = w
      · simp [hvw, hzero, ha, hd, hlt, hdest]
      · simp [hsame v hvw, ha, hd, hvw]
    · simp only [hd, ha] at hv ⊢
      obtain ⟨hv0, hvlt⟩ := h.lifetimes.destroyed v hv
      have hvw : v ≠ w := by
        rintro rfl
        exact hpos.ne' hv0
      rw [hsame v hvw]
      exact ⟨hv0, hvlt⟩
  · have hspent : ∀ v, (m'.waiters v).refCount = 0 ∧ v < m'.allocated ↔
        (s.mem.waiters v).refCount = 0 ∧ v < s.mem.allocated := by
      intro v
      rcases hsame v with ⟨heq, hiff⟩ | ⟨hne, hne'⟩
      · rw [heq, hiff]
      · exact ⟨fun hv => absurd hv.1 hne, fun hv => absurd hv.1 (hne' hv.2)⟩
    refine ⟨h.lifetimes.dying.keep (bind_update_same (hout.trans (hbind.trans hdying).symm))
      fun v => ?_, fun v hv => ?_⟩
    · unfold Memory.Spent
      rw [← and_assoc, hspent, and_assoc, hd]
    · rw [hd] at hv
      exact (hspent v).mpr (h.lifetimes.destroyed v hv)

end Access

theorem Referenced.references_of_destroyed (h : Referenced cfg.eventCount s) {w : ℕ}
    (hd : s.mem.destroyed w = true) : s.mem.references cfg.eventCount w = 0 := by
  have hzero := (h.lifetimes.destroyed w hd).1
  rw [h.balanced w] at hzero
  exact_mod_cast hzero

/-- A block that nothing refers to is destroyed, or a thread is about to destroy it. -/
theorem Referenced.exists_dying (h : Referenced cfg.eventCount s) {w : ℕ} (hlt : w < s.mem.allocated)
    (hzero : s.mem.references cfg.eventCount w = 0) (hd : s.mem.destroyed w = false) :
    ∃ t, (s.threads t).bind Pc.dying = some w := by
  have hcount := h.balanced w
  rw [hzero] at hcount
  exact (h.lifetimes.dying.taken_iff w).mp ⟨hcount, hlt, hd⟩

section Step

variable [DecidableEq ι]

/-- **Step lemma of the references.** -/
theorem Referenced.step (h : Referenced cfg.eventCount s) (hg : Guarded s)
    (hs : step cfg s a = some s') : Referenced cfg.eventCount s' := by
  obtain ⟨t, b⟩ := a
  rcases step_cases hs with ⟨c, -, hpc, -, hl, rfl⟩ | ⟨ch, pc, m', pc', mk, -, hpc, haccess, rfl⟩
  · have hown : (some c.enter).bind Pc.own = (s.threads t).bind Pc.own := by
      rw [hpc]
      cases c <;> rfl
    have hdying : (some c.enter).bind Pc.dying = (s.threads t).bind Pc.dying := by
      rw [hpc]
      cases c <;> rfl
    refine ⟨forall_pc_update (fun u q _ hq => h.legal u q hq) fun q hq => ?_, h.balanced,
      ⟨h.own.own.keep (bind_update_same hown) fun _ => Iff.rfl, h.own.still, h.own.fresh⟩,
      ⟨h.lifetimes.dying.keep (bind_update_same hdying) fun _ => Iff.rfl, h.lifetimes.destroyed⟩,
      forall_pc_update (fun u q _ hq => h.named u q hq) fun q hq w hw => ?_⟩
    · exact Option.some.inj hq ▸ Call.enter_legal hl
    · obtain rfl := Option.some.inj hq
      cases c <;> cases hw
  · have hb' : Balanced cfg.eventCount m' :=
      haccess.balanced h.balanced (hg.knows _ pc hpc) (h.legal _ pc hpc)
        (fun w hw => h.present hpc hw) (h.own.fresh _ le_rfl)
    refine ⟨forall_pc_update (fun u q _ hq => h.legal u q hq) fun q hq =>
        haccess.legal (h.legal _ pc hpc) hq,
      hb', OwnBlocks.step h hg hpc haccess, Lifetimes.step h hg hpc haccess hb',
      forall_pc_update (fun u q _ hq w hw => (h.named u q hq w hw).trans_le haccess.allocated_le)
        fun q hq w hw => ?_⟩
    obtain ⟨huses, hne⟩ := haccess.names_uses hq hw
    refine lt_of_lt_of_le ?_ haccess.allocated_le
    rcases h.uses hg hpc huses hne with hpos | hdying
    · exact (h.alive hpos).1
    · exact (h.spent hpc hdying).2.1

/-- The references of every state reached. -/
theorem referenced_of_reached (h : Reached cfg s) : Referenced cfg.eventCount s :=
  h.invariant (referenced_start _) fun _ _ _ hr hi _ hs => hi.step (guarded_of_reached hr) hs

/-! ## What holds of every run -/

/-- **`RefCount` is exact.** It is the number of references to the block, the one of the call that made it
and one for each registration; a destroyed block has none, and a block that has none is destroyed or
about to be, by exactly one thread. -/
theorem refCount_of_reached (h : Reached cfg s) (w : ℕ) :
    (s.mem.waiters w).refCount = s.mem.references cfg.eventCount w ∧
      (s.mem.destroyed w = true → s.mem.references cfg.eventCount w = 0) ∧
      (w < s.mem.allocated → s.mem.references cfg.eventCount w = 0 → s.mem.destroyed w = false →
        ∃ t, (s.threads t).bind Pc.dying = some w ∧
          ∀ u, (s.threads u).bind Pc.dying = some w → u = t) := by
  have hr := referenced_of_reached h
  refine ⟨hr.balanced w, hr.references_of_destroyed, fun hlt hzero hd => ?_⟩
  obtain ⟨t, ht⟩ := hr.exists_dying hlt hzero hd
  exact ⟨t, ht, fun u hu => hr.lifetimes.dying.unique u t w hu ht⟩

/-- **No block is used after it was destroyed**, the signal of `SetEvent` apart: every other step uses a
block that has been made and not destroyed. Until its last reference is gone `RefCount` is positive, so
that it is not negative where the code asserts that, after taking one off. -/
theorem uses_of_reached (h : Reached cfg s) {pc : Pc} (hpc : s.threads t = some pc) {w : ℕ}
    (hw : pc.uses s.mem = some w) (hne : ∀ e i v, pc ≠ .set e (.notify i v)) :
    w < s.mem.allocated ∧ s.mem.destroyed w = false ∧
      (pc.dying = none → 0 < (s.mem.waiters w).refCount) := by
  have hr := referenced_of_reached h
  rcases hr.uses (guarded_of_reached h) hpc hw hne with hpos | hdying
  · obtain ⟨hlt, hd, hcount⟩ := hr.alive hpos
    exact ⟨hlt, hd, fun _ => hcount⟩
  · obtain ⟨-, hlt, hd⟩ := hr.spent hpc hdying
    exact ⟨hlt, hd, fun hnone => by rw [hdying] at hnone; cases hnone⟩

/-- **The signal of `SetEvent` comes too late** exactly if the call has left by then, and nobody else
refers to its block or is still about to destroy it: its condition variable is then one of a block that
has been freed. -/
theorem notify_of_reached (h : Reached cfg s) {e i w : ℕ}
    (hpc : s.threads t = some (.set e (.notify i w))) :
    s.mem.destroyed w = true ↔
      s.mem.references cfg.eventCount w = 0 ∧ ∀ u, (s.threads u).bind Pc.dying ≠ some w := by
  have hr := referenced_of_reached h
  constructor
  · intro hd
    refine ⟨hr.references_of_destroyed hd, fun u hu => ?_⟩
    rw [((hr.lifetimes.dying.taken_iff w).mpr ⟨u, hu⟩).2.2] at hd
    cases hd
  · rintro ⟨hrefs, hnobody⟩
    by_contra hd
    obtain ⟨u, hu⟩ := hr.exists_dying (hr.named t _ hpc w rfl) hrefs (Bool.eq_false_iff.mpr hd)
    exact hnobody u hu

end Step

end Invariant

/-! A call waits for one event, `SetEvent` gives it the event and gives up the mutex of its block; before
the signal the call wakes up spuriously, sees that it is done, leaves, and frees the block: -/

/-- A wait for event 0 alone, for good. -/
def waitForOne : WaitCall where
  events := 0
  count := 1
  waitAll := false
  milliseconds := infinite

/-- Thread 0 waits for the event and wakes up spuriously while thread 1 is about to signal it. -/
def signalTooLate : List (Fin 2 × Choice) :=
  calling 0 (.waitForMultipleEvents waitForOne) 7 ++ calling 1 (.setEvent 0) 4 ++
  [(0, .run spurious)] ++ runs 0 4

theorem reached_signalTooLate : ∃ s : State (Fin 2), Reached (anyCalls 1) s ∧
    s.mem.destroyed 0 = true ∧ s.threads 1 = some (.set 0 (.notify 0 0)) :=
  Reach.exists_of_run signalTooLate (by decide +kernel)

theorem refCount_of_reached_signalTooLate :
    ∃ s : State (Fin 2), Reached (anyCalls 1) s ∧ s.mem.destroyed 0 = true ∧
      s.mem.references 1 0 = 0 := by
  obtain ⟨s, hs, hd, -⟩ := reached_signalTooLate
  exact ⟨s, hs, hd, (refCount_of_reached hs 0).2.1 hd⟩

theorem notify_of_reached_signalTooLate :
    ∃ s : State (Fin 2), Reached (anyCalls 1) s ∧ s.mem.destroyed 0 = true ∧
      s.mem.references 1 0 = 0 ∧ ∀ u, (s.threads u).bind Pc.dying ≠ some 0 := by
  obtain ⟨s, hs, hd, hpc⟩ := reached_signalTooLate
  exact ⟨s, hs, hd, (notify_of_reached hs hpc).mp hd⟩

/-! Before that, thread 1 is at its registration, with the mutexes of the event and of the block: -/

theorem uses_of_reached_serving :
    ∃ s : State (Fin 2), Reached (anyCalls 1) s ∧ s.mem.destroyed 0 = false ∧
      0 < (s.mem.waiters 0).refCount := by
  obtain ⟨s, hs, hpc⟩ : ∃ s : State (Fin 2), Reached (anyCalls 1) s ∧
      s.threads 1 = some (.set 0 (.serve 0 ⟨0, 0⟩)) :=
    Reach.exists_of_run (calling 0 (.waitForMultipleEvents waitForOne) 7 ++
      calling 1 (.setEvent 0) 3) (by decide +kernel)
  obtain ⟨-, hd, hcount⟩ := uses_of_reached hs hpc rfl fun _ _ _ => by simp
  exact ⟨s, hs, hd, hcount rfl⟩

end AtomicMessageQueue.Pevents
