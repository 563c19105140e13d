import AtomicMessageQueue.Lib.Tally
import AtomicMessageQueue.Pevents.Guards
import Mathlib.Data.List.Perm.Basic

/-! # References to the block of a waiting call

`RefCount` counts the references to a block: the one its call holds until it leaves, and one for each
registration. Registrations are spread over the lists of the events, each under a mutex of its own, and
`SetEvent` gives one up before it takes it off the list. The invariant is that the count is exact; so a
block is destroyed once, by the one thread that gave up the last reference, when nothing leads to it.
-/

namespace AtomicMessageQueue.Pevents

open Function Transition Mutexes Finset

/-! ## Registrations of one event -/

/-- The registrations `SetEvent` has not dealt with. -/
def PEvent.live (ev : PEvent) : List WfmoInfo := ev.registeredWaits.drop ev.counted

/-- How many of them satisfy `p`. -/
def PEvent.liveCount (p : WfmoInfo → Bool) (ev : PEvent) : ℕ := ev.live.countP p

section Live

variable {ev : PEvent} {info : WfmoInfo} (p : WfmoInfo → Bool)

theorem PEvent.Idle.live (h : ev.Idle) : ev.live = ev.registeredWaits := by
  rw [PEvent.live, h.counted, List.drop_zero]

theorem PEvent.liveCount_register (h : ev.Idle) :
    (ev.register info).liveCount p = ev.liveCount p + (p info).toNat := by
  unfold PEvent.liveCount
  rw [h.live, PEvent.live, PEvent.register, h.counted, List.drop_zero, List.countP_append,
    List.countP_singleton]
  cases p info <;> rfl

theorem PEvent.liveCount_remove (h : ev.Idle) {k : ℕ} (hk : ev.registeredWaits[k]? = some info) :
    (ev.remove k).liveCount p + (p info).toNat = ev.liveCount p := by
  obtain ⟨hlt, hget⟩ := List.getElem?_eq_some_iff.mp hk
  have hperm := (List.getElem_cons_eraseIdx_perm hlt).countP_eq p
  rw [hget, List.countP_cons] at hperm
  unfold PEvent.liveCount
  rw [h.live, PEvent.live, PEvent.remove, h.counted, List.drop_zero, ← hperm]
  cases p info <;> rfl

theorem PEvent.liveCount_countOff (hi : ev.registeredWaits[ev.counted]? = some info) :
    ev.countOff.liveCount p + (p info).toNat = ev.liveCount p := by
  obtain ⟨hlt, hget⟩ := List.getElem?_eq_some_iff.mp hi
  unfold PEvent.liveCount PEvent.live
  rw [List.drop_eq_getElem_cons hlt, hget, List.countP_cons]
  cases p info <;> rfl

theorem PEvent.liveCount_pass (h : ev.counted ≠ 0) : ev.pass.liveCount p = ev.liveCount p := by
  unfold PEvent.pass
  split
  next =>
    obtain ⟨n, hn⟩ := Nat.exists_eq_succ_of_ne_zero h
    unfold PEvent.liveCount PEvent.live
    simp only [hn, Nat.succ_sub_one, ← List.drop_one, List.drop_drop]
    rw [Nat.add_comm]
  next => rfl

theorem PEvent.liveCount_give : ev.give.liveCount p = ev.countOff.liveCount p := by
  unfold PEvent.give
  split <;> rfl

theorem PEvent.liveCount_clear (hi : ev.registeredWaits[ev.counted]? = none) :
    ev.clear.liveCount p = ev.liveCount p := by
  unfold PEvent.liveCount PEvent.live
  rw [List.drop_eq_nil_of_le (List.getElem?_eq_none_iff.mp hi)]
  rfl

end Live

/-! ## The references to a block -/

/-- The registration leads to block `w`. -/
def WfmoInfo.refersTo (w : ℕ) (info : WfmoInfo) : Bool := info.waiter = w

/-- How many registrations lead to block `w`, over the `n` events there are. -/
def Memory.registrations {ι : Type*} (m : Memory ι) (n w : ℕ) : ℕ :=
  ∑ e ∈ range n, (m.events e).liveCount (WfmoInfo.refersTo w)

/-- How many references to block `w` there are: that of its call, and its registrations. -/
def Memory.references {ι : Type*} (m : Memory ι) (n w : ℕ) : ℕ :=
  (m.waiters w).present.toNat + m.registrations n w

/-- Every `RefCount` is the number of references. -/
def Balanced {ι : Type*} (n : ℕ) (m : Memory ι) : Prop :=
  ∀ w, (m.waiters w).refCount = m.references n w

section Balance

variable {ι : Type*} {n : ℕ} {m m' : Memory ι} {e v w : ℕ} {ev : PEvent} {b : Wfmo}

theorem Memory.registrations_update (he : e < n) (hm : m'.events = update m.events e ev) (w : ℕ) :
    m'.registrations n w + (m.events e).liveCount (WfmoInfo.refersTo w) =
      m.registrations n w + ev.liveCount (WfmoInfo.refersTo w) := by
  have hsum := Tally.sum_update_add (range n)
    (fun k => (m.events k).liveCount (WfmoInfo.refersTo w)) (mem_range.mpr he)
    (ev.liveCount (WfmoInfo.refersTo w))
  unfold Memory.registrations
  rw [hm, ← hsum]
  congr 1
  refine sum_congr rfl fun k _ => ?_
  exact apply_update (fun _ => PEvent.liveCount (WfmoInfo.refersTo w)) m.events e ev k

/-- The registrations of one event, and the block of one call, change in ways that do not count. -/
theorem Balanced.keep (h : Balanced n m) (hm : m'.events = update m.events e ev)
    (hev : ∀ p, ev.liveCount p = (m.events e).liveCount p) (hw : m'.waiters = update m.waiters v b)
    (hr : b.refCount = (m.waiters v).refCount) (hp : b.present = (m.waiters v).present) :
    Balanced n m' := by
  intro w
  have hreg : m'.registrations n w = m.registrations n w := by
    refine sum_congr rfl fun k _ => ?_
    by_cases hke : k = e
    · rw [hm, hke, update_self, hev]
    · rw [hm, update_of_ne hke]
  have hold := h w
  unfold Memory.references at hold ⊢
  rw [hw, hreg]
  by_cases hwv : w = v
  · rw [hwv, update_self, hr, hp, ← hwv, hold]
  · rw [update_of_ne hwv, hold]

/-- The registrations of one event change in a way that does not count. -/
theorem Balanced.setEvent (h : Balanced n m) (hm : m'.events = update m.events e ev)
    (hev : ∀ p, ev.liveCount p = (m.events e).liveCount p) (hw : m'.waiters = m.waiters) :
    Balanced n m' := by
  refine h.keep (v := 0) hm hev ?_ rfl rfl
  rw [hw, update_eq_self]

/-- Registrations of one block are added or given up, and counted. -/
theorem Balanced.change (h : Balanced n m) (info : WfmoInfo) (ev : PEvent) (δ : ℤ) (he : e < n)
    (hev : ∀ p, (ev.liveCount p : ℤ) = (m.events e).liveCount p + δ * (p info).toNat)
    (hm : m'.events = update m.events e ev) (hw : m'.waiters = update m.waiters info.waiter b)
    (hr : b.refCount = (m.waiters info.waiter).refCount + δ)
    (hp : b.present = (m.waiters info.waiter).present) : Balanced n m' := by
  intro w
  have hreg := Memory.registrations_update he hm w
  have hlive := hev (WfmoInfo.refersTo w)
  have hold := h w
  unfold Memory.references at hold ⊢
  rw [hw]
  by_cases hwi : w = info.waiter
  · subst hwi
    simp only [WfmoInfo.refersTo, decide_true, Bool.toNat_true] at hlive hreg
    rw [update_self, hr, hp]
    omega
  · simp only [WfmoInfo.refersTo, Ne.symm hwi, decide_false, Bool.toNat_false] at hlive hreg
    rw [update_of_ne hwi]
    omega

/-- A call takes up or gives up the reference to its block. -/
theorem Balanced.call (h : Balanced n m) (hm : m'.events = m.events)
    (hw : m'.waiters = update m.waiters w b)
    (hr : b.refCount + (m.waiters w).present.toNat = (m.waiters w).refCount + b.present.toNat) :
    Balanced n m' := by
  intro u
  have hold := h u
  unfold Memory.references Memory.registrations at hold ⊢
  rw [hm, hw]
  by_cases huw : u = w
  · subst huw
    rw [update_self]
    omega
  · rwa [update_of_ne huw]

end Balance

/-! ## Where the references are held -/

/-- The block whose reference the waiting call holds at a program point. -/
def Pc.own : Pc → Option ℕ
  | .multiple _ (.lockOwn w) | .multiple _ (.lockEvent w _) | .multiple _ (.sweep w _ _)
  | .multiple _ (.expired w _ _ _) | .multiple _ (.destroyExpired w _ _ _) | .multiple _ (.check w _)
  | .multiple _ (.testDone w) | .multiple _ (.asleep w) | .multiple _ (.relock w _)
  | .multiple _ (.leave w _) => some w
  | _ => none

/-- The block a thread is about to destroy. -/
def Pc.dying : Pc → Option ℕ
  | .multiple _ (.destroyExpired _ _ _ u) => some u
  | .multiple _ (.destroyOwn w _ _) => some w
  | .set _ (.destroy _ w) => some w
  | _ => none

/-- The other blocks a program point names. -/
def Pc.names : Pc → Option ℕ
  | .multiple _ (.expired _ _ _ info) => some info.waiter
  | .set _ (.serve _ info) => some info.waiter
  | .set _ (.notify _ w) => some w
  | _ => none

/-- The block whose mutex, condition variable or data the next step of a thread uses. -/
def Pc.uses {ι : Type*} (m : Memory ι) : Pc → Option ℕ
  | .multiple _ (.lockOwn w) | .multiple _ (.check w _) | .multiple _ (.testDone w)
  | .multiple _ (.asleep w) | .multiple _ (.relock w _) | .multiple _ (.leave w _)
  | .multiple _ (.destroyOwn w _ _) => some w
  | .multiple c (.sweep _ i k) =>
      (m.events (c.events + i)).registeredWaits[k]?.map WfmoInfo.waiter
  | .multiple _ (.expired _ _ _ info) => some info.waiter
  | .multiple _ (.destroyExpired _ _ _ u) => some u
  | .set e (.scan i) => (m.events e).registeredWaits[i]?.map WfmoInfo.waiter
  | .set _ (.serve _ info) => some info.waiter
  | .set _ (.destroy _ w) | .set _ (.notify _ w) => some w
  | _ => none

/-- The events a program point is concerned with are among the `n` there are. -/
def Pc.Legal (n : ℕ) : Pc → Prop
  | .wait e _ _ | .set e _ | .reset e _ => e < n
  | .multiple c (.sweep _ i _) | .multiple c (.expired _ i _ _)
  | .multiple c (.destroyExpired _ i _ _) | .multiple c (.check _ i) =>
      c.events + c.count.toNat ≤ n ∧ i < c.count
  | .multiple c _ => c.events + c.count.toNat ≤ n

theorem WaitCall.event_lt {n : ℕ} {c : WaitCall} {i : ℕ} (hc : c.events + c.count.toNat ≤ n)
    (hi : i < c.count) : c.events + i < n := by
  omega

section Step

variable {ι : Type*} {t : ι} {ch : Chance} {n : ℕ} {m m' : Memory ι} {pc q : Pc} {pc' : Option Pc}
  {mk : Option Mark}

theorem Memory.references_pos_of_live {e w : ℕ} (info : WfmoInfo) (he : e < n)
    (hlive : info ∈ (m.events e).live) (hw : info.waiter = w) : 0 < m.references n w := by
  have hpos : 0 < (m.events e).liveCount (WfmoInfo.refersTo w) :=
    List.countP_pos_iff.mpr ⟨info, hlive, by simp [WfmoInfo.refersTo, hw]⟩
  have hsum := Tally.sum_update_add (range n)
    (fun k => (m.events k).liveCount (WfmoInfo.refersTo w)) (mem_range.mpr he) 0
  unfold Memory.references Memory.registrations
  omega

/-- The block of a registration that is being dealt with, or looked at, is referred to. -/
theorem Pc.Knows.references_pos (hknows : pc.Knows m) (hl : pc.Legal n) {w : ℕ}
    (hw : pc.names = some w) (hpc : ∀ e i v, pc ≠ .set e (.notify i v)) : 0 < m.references n w := by
  cases pc with
  | wait e ms pc => cases hw
  | reset e pc => cases hw
  | multiple c pc =>
      cases pc with
      | expired v i k info =>
          obtain ⟨hidle, -, hk⟩ := hknows
          refine Memory.references_pos_of_live info (WaitCall.event_lt hl.1 hl.2) ?_
            (Option.some.inj hw)
          rw [hidle.live]
          exact List.mem_of_getElem? hk
      | _ => cases hw
  | set e pc =>
      cases pc with
      | serve i info =>
          obtain ⟨-, hcounted, -, hi⟩ := hknows
          refine Memory.references_pos_of_live info hl ?_ (Option.some.inj hw)
          rw [PEvent.live, hcounted]
          exact List.mem_of_getElem? (i := 0) (by rw [List.getElem?_drop]; exact hi)
      | notify i v => exact absurd rfl (hpc e i v)
      | _ => cases hw

theorem Balanced.refCount_pos (h : Balanced n m) {w : ℕ} (hpos : 0 < m.references n w) :
    0 < (m.waiters w).refCount := by
  rw [h w]
  exact_mod_cast hpos

theorem Memory.references_pos_of_present {w : ℕ} (hp : (m.waiters w).present = true) :
    0 < m.references n w := by
  unfold Memory.references
  rw [hp]
  exact Nat.add_pos_left Nat.one_pos _

variable [DecidableEq ι]

theorem Call.enter_legal {c : Call} (h : c.legal n = true) : c.enter.Legal n := by
  cases c <;> simpa [Call.legal, Call.enter, Pc.Legal] using h

theorem Access.legal (h : Access t ch m pc m' pc' mk) (hl : pc.Legal n) (hq : pc' = some q) :
    q.Legal n := by
  subst hq
  cases h with
  | lockEvent c w i hi hfree => exact ⟨hl, hi⟩
  | sweepDrop c w i k info hs pc' hpc' =>
      subst hpc'
      split <;> exact hl
  | found c w i hs pc' hpc' =>
      subst hpc'
      split <;> exact hl.1
  | register c w i hs => exact hl.1
  | loopEnd c w i hi pc' hpc' | relock c w r hfree pc' hpc' =>
      subst hpc'
      split <;> exact hl
  | leave c w r pc' hpc' =>
      split at hpc' <;> cases hpc'
      exact hl
  | _ => exact hl

/-- **Step lemma of the counts.** -/
theorem Access.balanced (h : Access t ch m pc m' pc' mk) (hb : Balanced n m) (hknows : pc.Knows m)
    (hl : pc.Legal n) (hown : ∀ w, pc.own = some w → (m.waiters w).present = true)
    (hnew : m.waiters m.allocated = noWfmo) : Balanced n m' := by
  cases h with
  | create c =>
      refine hb.call rfl rfl ?_
      rw [hnew]
      rfl
  | leave c w r pc' hpc' =>
      refine hb.call rfl rfl ?_
      simp [hown w rfl, Wfmo.leave]
  | register c w i hs =>
      refine hb.change ⟨w, i⟩ ((m.events (c.events + i)).register ⟨w, i⟩) 1
        (WaitCall.event_lt hl.1 hl.2) (fun p => ?_) rfl rfl rfl rfl
      rw [PEvent.liveCount_register p hknows]
      omega
  | sweepDrop c w i k info hs pc' hpc' =>
      refine hb.change info ((m.events (c.events + i)).remove k) (-1)
        (WaitCall.event_lt hl.1 hl.2) (fun p => ?_) rfl rfl rfl rfl
      have hremove := PEvent.liveCount_remove p hknows.1 hknows.2.2
      omega
  | serve e i info hs =>
      refine hb.change info (m.events e).give (-1) hl (fun p => ?_) rfl rfl ?_ ?_
      · have hcount := PEvent.liveCount_countOff p (hknows.2.1 ▸ hknows.2.2.2)
        rw [PEvent.liveCount_give]
        omega
      · exact Wfmo.fire_refCount _ _
      · exact Wfmo.fire_present _ _
  | dropLast e i info hs hr =>
      refine hb.change info (m.events e).countOff (-1) hl (fun p => ?_) rfl rfl rfl rfl
      have hcount := PEvent.liveCount_countOff p (hknows.2.1 ▸ hknows.2.2.2)
      omega
  | drop e i info hs hr =>
      refine hb.change info (m.events e).countOff.pass (-1) hl (fun p => ?_) rfl rfl rfl rfl
      have hcount := PEvent.liveCount_countOff p (hknows.2.1 ▸ hknows.2.2.2)
      rw [PEvent.liveCount_pass p (Nat.succ_ne_zero _)]
      omega
  | found c w i hs pc' hpc' =>
      exact hb.keep rfl (fun _ => rfl) rfl (Wfmo.found_refCount _ _ _) (Wfmo.found_present _ _ _)
  | waitObtain e ms pc hpc hs => exact hb.setEvent rfl (fun _ => rfl) rfl
  | store e => exact hb.setEvent rfl (fun _ => rfl) rfl
  | reset e => exact hb.setEvent rfl (fun _ => rfl) rfl
  | scanManual e i hi ha =>
      exact hb.setEvent rfl (fun p => PEvent.liveCount_clear p (hknows.2.1 ▸ hi)) rfl
  | destroy e i w =>
      have hcounted : (m.events e).counted ≠ 0 := by
        rw [hknows.2.1]
        exact Nat.succ_ne_zero i
      exact hb.setEvent rfl (fun p => PEvent.liveCount_pass p hcounted) rfl
  | notify e i w pc' hpc' =>
      have hcounted : (m.events e).counted ≠ 0 := by
        rw [hknows.2.1]
        exact Nat.succ_ne_zero i
      exact hb.setEvent rfl (fun p => PEvent.liveCount_pass p hcounted) rfl
  | _ => exact hb

/-- What a step does to the reference of its call: it takes one up with the block it makes, gives it up
at the end, or keeps it. -/
theorem Access.own_cases (h : Access t ch m pc m' pc' mk) :
    (∃ c, pc = .multiple c .create ∧ pc' = some (.multiple c (.lockOwn m.allocated)) ∧
      m' = m.new c.wfmo) ∨
    (∃ w, pc.own = some w ∧ pc'.bind Pc.own = none ∧
      m'.waiters = update m.waiters w (m.waiters w).leave ∧ m'.allocated = m.allocated) ∨
    (pc'.bind Pc.own = pc.own ∧ m'.allocated = m.allocated ∧
      ∀ w, (m'.waiters w).present = (m.waiters w).present ∧
        ((m'.waiters w).stillWaiting = true → (m.waiters w).stillWaiting = true)) := by
  have hsame : ∀ {v : ℕ} {b : Wfmo}, m'.waiters = update m.waiters v b →
      b.present = (m.waiters v).present →
      (b.stillWaiting = true → (m.waiters v).stillWaiting = true) →
      ∀ w, (m'.waiters w).present = (m.waiters w).present ∧
        ((m'.waiters w).stillWaiting = true → (m.waiters w).stillWaiting = true) := by
    intro v b hm hp hs w
    rw [hm]
    by_cases hwv : w = v
    · subst hwv
      rw [update_self]
      exact ⟨hp, hs⟩
    · rw [update_of_ne hwv]
      exact ⟨rfl, id⟩
  cases h with
  | create c => exact .inl ⟨c, rfl, rfl, rfl⟩
  | leave c w r pc' hpc' =>
      refine .inr (.inl ⟨w, rfl, ?_, rfl, rfl⟩)
      subst hpc'
      split <;> rfl
  | waitObtain e ms pc hpc hs | waitSleep e ms pc hpc hs =>
      exact .inr (.inr ⟨by rcases hpc with rfl | rfl <;> rfl, rfl, fun w => ⟨rfl, id⟩⟩)
  | loopEnd c w i hi pc' hpc' | relock c w r hfree pc' hpc' =>
      refine .inr (.inr ⟨?_, rfl, fun w => ⟨rfl, id⟩⟩)
      subst hpc'
      split <;> rfl
  | sweepDrop c w i k info hs pc' hpc' =>
      refine .inr (.inr ⟨?_, rfl, hsame rfl rfl id⟩)
      subst hpc'
      split <;> rfl
  | found c w i hs pc' hpc' =>
      refine .inr (.inr ⟨?_, rfl, hsame rfl (Wfmo.found_present _ _ _) ?_⟩)
      · subst hpc'
        split <;> rfl
      · unfold Wfmo.found
        split <;> exact id
  | serve e i info hs =>
      exact .inr (.inr ⟨rfl, rfl, hsame rfl (Wfmo.fire_present _ _) fun _ => hs⟩)
  | register c w i hs => exact .inr (.inr ⟨rfl, rfl, hsame rfl rfl id⟩)
  | dropLast e i info hs hr | drop e i info hs hr =>
      exact .inr (.inr ⟨rfl, rfl, hsame rfl rfl id⟩)
  | _ => exact .inr (.inr ⟨rfl, rfl, fun w => ⟨rfl, id⟩⟩)

theorem Access.allocated_le (h : Access t ch m pc m' pc' mk) : m.allocated ≤ m'.allocated := by
  cases h with
  | create c => exact Nat.le_succ _
  | _ => exact le_rfl

/-- A program point names a block that the step before it used. -/
theorem Access.names_uses (h : Access t ch m pc m' pc' mk) (hq : pc' = some q) {w : ℕ}
    (hw : q.names = some w) : pc.uses m = some w ∧ ∀ e i v, pc ≠ .set e (.notify i v) := by
  subst hq
  cases h with
  | sweepLock c v i k info hk hfree => exact ⟨by simpa [Pc.uses, hk] using Option.some.inj hw, by simp⟩
  | scanLock e i info hi hfree => exact ⟨by simpa [Pc.uses, hi] using Option.some.inj hw, by simp⟩
  | serve e i info hs => exact ⟨hw, by simp⟩
  | loopEnd c v i hi pc' hpc' | relock c v r hfree pc' hpc' | found c v i hs pc' hpc'
  | sweepDrop c v i k info hs pc' hpc' | notify e i v pc' hpc' =>
      subst hpc'
      split at hw <;> cases hw
  | leave c v r pc' hpc' =>
      split at hpc' <;> cases hpc'
      cases hw
  | _ => cases hw

/-- What a step does to the life of a block: its thread destroys one, takes the last reference off one, or
lets every block live that was alive. -/
theorem Access.dying_cases (h : Access t ch m pc m' pc' mk) (hb : Balanced n m) (hb' : Balanced n m')
    (hknows : pc.Knows m) (hl : pc.Legal n)
    (hown : ∀ w, pc.own = some w → (m.waiters w).present = true)
    (hstill : ∀ w, (m.waiters w).stillWaiting = true → (m.waiters w).present = true) :
    (∃ w, pc.dying = some w ∧ pc'.bind Pc.dying = none ∧
      m'.destroyed = update m.destroyed w true ∧ m'.waiters = m.waiters ∧
      m'.allocated = m.allocated) ∨
    (∃ w, pc.dying = none ∧ pc'.bind Pc.dying = some w ∧ m'.destroyed = m.destroyed ∧
      m'.allocated = m.allocated ∧ (m'.waiters w).refCount = 0 ∧ 0 < (m.waiters w).refCount ∧
      ∀ u, u ≠ w → m'.waiters u = m.waiters u) ∨
    (pc.dying = none ∧ pc'.bind Pc.dying = none ∧ m'.destroyed = m.destroyed ∧
      ∀ u, ((m'.waiters u).refCount = (m.waiters u).refCount ∧
          (u < m'.allocated ↔ u < m.allocated)) ∨
        ((m'.waiters u).refCount ≠ 0 ∧ (u < m.allocated → (m.waiters u).refCount ≠ 0))) := by
  -- where the count of one block changes, it is positive before and after
  have hchange : ∀ {v : ℕ} {b : Wfmo}, m'.waiters = update m.waiters v b →
      m'.allocated = m.allocated → 0 < (m.waiters v).refCount → b.refCount ≠ 0 →
      ∀ u, ((m'.waiters u).refCount = (m.waiters u).refCount ∧
          (u < m'.allocated ↔ u < m.allocated)) ∨
        ((m'.waiters u).refCount ≠ 0 ∧ (u < m.allocated → (m.waiters u).refCount ≠ 0)) := by
    intro v b hm ha hpos hne u
    rw [hm, ha]
    by_cases huv : u = v
    · subst huv
      rw [update_self]
      exact .inr ⟨hne, fun _ => hpos.ne'⟩
    · rw [update_of_ne huv]
      exact .inl ⟨rfl, Iff.rfl⟩
  cases h with
  | destroyExpired c w i k u => exact .inl ⟨u, rfl, rfl, rfl, rfl, rfl⟩
  | destroyOwn c w r waitIndex => exact .inl ⟨w, rfl, rfl, rfl, rfl, rfl⟩
  | destroy e i w => exact .inl ⟨w, rfl, rfl, rfl, rfl, rfl⟩
  | sweepDrop c w i k info hs pc' hpc' =>
      have hpos := hb.refCount_pos (hknows.references_pos hl rfl fun _ _ _ => by simp)
      subst hpc'
      split
      next hzero =>
        refine .inr (.inl ⟨info.waiter, rfl, rfl, rfl, rfl, ?_, hpos, fun u hu => update_of_ne hu _ _⟩)
        simpa using hzero
      next hne => exact .inr (.inr ⟨rfl, rfl, rfl, hchange rfl rfl hpos hne⟩)
  | dropLast e i info hs hr =>
      have hpos := hb.refCount_pos (hknows.references_pos hl rfl fun _ _ _ => by simp)
      refine .inr (.inl ⟨info.waiter, rfl, rfl, rfl, rfl, ?_, hpos, fun u hu => update_of_ne hu _ _⟩)
      simpa using hr
  | drop e i info hs hr =>
      have hpos := hb.refCount_pos (hknows.references_pos hl rfl fun _ _ _ => by simp)
      exact .inr (.inr ⟨rfl, rfl, rfl, hchange rfl rfl hpos hr⟩)
  | serve e i info hs =>
      have hpos := hb.refCount_pos (hknows.references_pos hl rfl fun _ _ _ => by simp)
      refine .inr (.inr ⟨rfl, rfl, rfl, hchange rfl rfl hpos ?_⟩)
      have hpos' := hb'.refCount_pos (Memory.references_pos_of_present (w := info.waiter) (by
        simpa [Wfmo.dropRef] using hstill _ hs))
      simpa using hpos'.ne'
  | register c w i hs =>
      have hp := hown w rfl
      have hpos := hb.refCount_pos (Memory.references_pos_of_present hp)
      refine .inr (.inr ⟨rfl, rfl, rfl, hchange rfl rfl hpos ?_⟩)
      change (m.waiters w).refCount + 1 ≠ 0
      omega
  | leave c w r pc' hpc' =>
      have hpos := hb.refCount_pos (Memory.references_pos_of_present (hown w rfl))
      subst hpc'
      split
      next hzero =>
        refine .inr (.inl ⟨w, rfl, rfl, rfl, rfl, ?_, hpos, fun u hu => update_of_ne hu _ _⟩)
        simpa using hzero
      next hne => exact .inr (.inr ⟨rfl, rfl, rfl, hchange rfl rfl hpos hne⟩)
  | create c =>
      refine .inr (.inr ⟨rfl, rfl, rfl, fun u => ?_⟩)
      by_cases hu : u = m.allocated
      · subst hu
        exact .inr ⟨by simp [WaitCall.wfmo], fun hlt => absurd hlt (Nat.lt_irrefl _)⟩
      · refine .inl ⟨?_, ?_⟩
        · simp [update_of_ne hu]
        · simp only [Memory.new_allocated]
          omega
  | found c w i hs pc' hpc' =>
      have hpos := hb.refCount_pos (Memory.references_pos_of_present (hown w rfl))
      refine .inr (.inr ⟨rfl, ?_, rfl, hchange rfl rfl hpos ?_⟩)
      · subst hpc'
        split <;> rfl
      · rw [Wfmo.found_refCount]
        exact hpos.ne'
  | loopEnd c w i hi pc' hpc' | relock c w r hfree pc' hpc' | notify e i w pc' hpc' =>
      refine .inr (.inr ⟨rfl, ?_, rfl, fun u => .inl ⟨rfl, Iff.rfl⟩⟩)
      subst hpc'
      split <;> rfl
  | _ => exact .inr (.inr ⟨rfl, rfl, rfl, fun u => .inl ⟨rfl, Iff.rfl⟩⟩)

end Step

end AtomicMessageQueue.Pevents
