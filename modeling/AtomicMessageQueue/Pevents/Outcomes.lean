import AtomicMessageQueue.Pevents.Dealings
import Mathlib.Algebra.Order.BigOperators.Group.Finset

/-! # How waits for several events end

A call obtains each event of its array at most once: those it finds set itself, the others through their
registrations, of which `SetEvent` serves one as long as the call still waits. `Waits` keeps the two
accounts of a call under way, `Left` says what a call that has returned was given, for good.
-/

namespace AtomicMessageQueue.Pevents

open Function Transition Mutexes Finset

/-! ## The accounts of a call -/

/-- How many events the call has obtained. -/
def taken (c : WaitCall) (w : ℕ) (hist : List Mark) : ℕ :=
  ∑ j ∈ range c.count.toNat, given hist (c.events + j) w j

/-- The call has obtained no event, or the one under its status and no other. -/
def Fired (c : WaitCall) (w : ℕ) (status : ℤ) (hist : List Mark) : Prop :=
  (status = -1 ∧ ∀ j, given hist (c.events + j) w j = 0) ∨
    ∃ j : ℕ, status = j ∧ given hist (c.events + j) w j = 1 ∧
      ∀ k, k ≠ j → given hist (c.events + k) w k = 0

/-- The accounts of a call that has dealt with the events below `i` of its array. -/
structure Waits {ι : Type*} (c : WaitCall) (w i : ℕ) (m : Memory ι) (hist : List Mark) : Prop where
  le : i ≤ c.count.toNat
  waitAll : (m.waiters w).waitAll = c.waitAll
  live : ∀ e j, 0 < m.live e ⟨w, j⟩ → e = c.events + j ∧ j < i
  given : ∀ e j, 0 < given hist e w j → e = c.events + j ∧ j < i
  once : ∀ j, Pevents.given hist (c.events + j) w j + m.live (c.events + j) ⟨w, j⟩ ≤ 1
  exact : (m.waiters w).stillWaiting = true → ∀ j < i,
    Pevents.given hist (c.events + j) w j + m.live (c.events + j) ⟨w, j⟩ = 1
  all : c.waitAll = true →
    (m.waiters w).stillWaiting = true ∧ (m.waiters w).status + taken c w hist = c.count
  any : c.waitAll = false → Fired c w (m.waiters w).status hist
  still : c.waitAll = false → (m.waiters w).status = -1 → (m.waiters w).stillWaiting = true

/-- What holds of a call in each phase. -/
def Phase.Stands {ι : Type*} (c : WaitCall) (w : ℕ) (m : Memory ι) (hist : List Mark) : Phase → Prop
  | .registering i =>
      Waits c w i m hist ∧ (m.waiters w).stillWaiting = true ∧
        (c.waitAll = false → (m.waiters w).status = -1)
  | .waiting =>
      Waits c w c.count.toNat m hist ∧ c.milliseconds ≠ 0 ∧
        (c.waitAll = false → (m.waiters w).stillWaiting = true → (m.waiters w).status = -1)
  | .leaving r =>
      (∃ i, Waits c w i m hist) ∧ (r = .ok → c.done (m.waiters w).status = true) ∧
        (c.waitAll = true → c.milliseconds = 0 → r = .timedOut)

section Accounts

variable {ι : Type*} {c : WaitCall} {w i j : ℕ} {m m' : Memory ι} {hist hist' : List Mark}

theorem taken_same (hg : ∀ e j, given hist' e w j = given hist e w j) :
    taken c w hist' = taken c w hist :=
  sum_congr rfl fun _ _ => hg _ _

theorem taken_add (hj : j < c.count.toNat)
    (hg : ∀ k, given hist' (c.events + k) w k =
      given hist (c.events + k) w k + if k = j then 1 else 0) :
    taken c w hist' = taken c w hist + 1 := by
  unfold taken
  simp only [hg, sum_add_distrib, sum_ite_eq', mem_range, hj, if_true]

/-- As long as an event has not been obtained, events are left. -/
theorem taken_lt (hj : j < c.count.toNat) (hle : ∀ k, given hist (c.events + k) w k ≤ 1)
    (hnone : given hist (c.events + j) w j = 0) : taken c w hist < c.count.toNat := by
  have hlt : taken c w hist < ∑ _k ∈ range c.count.toNat, 1 :=
    sum_lt_sum (fun k _ => hle k) ⟨j, mem_range.mpr hj, by rw [hnone]; exact Nat.one_pos⟩
  rwa [← card_eq_sum_ones, card_range] at hlt

theorem Fired.of_same {status : ℤ} (h : Fired c w status hist)
    (hg : ∀ e j, given hist' e w j = given hist e w j) : Fired c w status hist' := by
  simpa only [Fired, hg] using h

/-- A call that had no event obtains one. -/
theorem Fired.fire (h : Fired c w (-1) hist)
    (hg : ∀ k, given hist' (c.events + k) w k =
      given hist (c.events + k) w k + if k = j then 1 else 0) : Fired c w j hist' := by
  rcases h with ⟨-, hnone⟩ | ⟨k, hk, -⟩
  · refine .inr ⟨j, rfl, ?_, fun k hk => ?_⟩
    · rw [hg, hnone, if_pos rfl]
    · rw [hg, hnone, if_neg hk]
  · omega

/-- A step that does not deal with the call. -/
theorem Waits.of_same (h : Waits c w i m hist) (hl : ∀ e j, m'.live e ⟨w, j⟩ = m.live e ⟨w, j⟩)
    (hg : ∀ e j, Pevents.given hist' e w j = Pevents.given hist e w j)
    (hs : (m'.waiters w).standing = (m.waiters w).standing) : Waits c w i m' hist' := by
  obtain ⟨hstatus, hall, hstill⟩ := Wfmo.eq_of_standing hs
  constructor
  · exact h.le
  · rw [hall, h.waitAll]
  · simpa only [hl] using h.live
  · simpa only [hg] using h.given
  · simpa only [hl, hg] using h.once
  · simpa only [hl, hg, hstill] using h.exact
  · rw [hstill, hstatus, taken_same hg]
    exact h.all
  · rw [hstatus]
    exact fun hc => (h.any hc).of_same hg
  · rw [hstatus, hstill]
    exact h.still

/-- Once the call does not wait any more, its registrations go. -/
theorem Waits.dropped (h : Waits c w i m hist) (hl : ∀ e j, m'.live e ⟨w, j⟩ ≤ m.live e ⟨w, j⟩)
    (hstill : (m.waiters w).stillWaiting = false)
    (hs : (m'.waiters w).standing = (m.waiters w).standing) : Waits c w i m' hist := by
  obtain ⟨hstatus, hall, hstill'⟩ := Wfmo.eq_of_standing hs
  constructor
  · exact h.le
  · rw [hall, h.waitAll]
  · exact fun e j hpos => h.live e j (hpos.trans_le (hl e j))
  · exact h.given
  · exact fun j => (Nat.add_le_add_left (hl _ j) _).trans (h.once j)
  · rw [hstill', hstill]
    simp
  · rw [hstill', hstatus]
    exact h.all
  · rw [hstatus]
    exact h.any
  · rw [hstatus, hstill']
    exact h.still

/-- The call registers with the next event. -/
theorem Waits.registered (h : Waits c w i m hist) (hi : i < c.count)
    (hl : ∀ e j, m'.live e ⟨w, j⟩ = m.live e ⟨w, j⟩ + if e = c.events + i ∧ j = i then 1 else 0)
    (hs : (m'.waiters w).standing = (m.waiters w).standing) : Waits c w (i + 1) m' hist := by
  obtain ⟨hstatus, hall, hstill⟩ := Wfmo.eq_of_standing hs
  have hnew : Pevents.given hist (c.events + i) w i = 0 ∧ m.live (c.events + i) ⟨w, i⟩ = 0 := by
    have hg := h.given (c.events + i) i
    have hlive := h.live (c.events + i) i
    omega
  constructor
  · omega
  · rw [hall, h.waitAll]
  · intro e j hpos
    have hold := h.live e j
    rw [hl] at hpos
    split at hpos
    next heq => exact ⟨by rw [heq.1, heq.2], by omega⟩
    next => exact ⟨(hold hpos).1, (hold hpos).2.trans (Nat.lt_succ_self i)⟩
  · exact fun e j hpos => ⟨(h.given e j hpos).1, (h.given e j hpos).2.trans (Nat.lt_succ_self i)⟩
  · intro j
    have hold := h.once j
    rw [hl]
    by_cases hji : j = i
    · subst hji
      simp [hnew]
    · simpa [hji] using hold
  · intro hstill' j hj
    rw [hl]
    by_cases hji : j = i
    · subst hji
      simp [hnew]
    · simpa [hji] using h.exact (hstill ▸ hstill') j (by omega)
  · rw [hstill, hstatus]
    exact h.all
  · rw [hstatus]
    exact h.any
  · rw [hstatus, hstill]
    exact h.still

/-- The call is given an event, which it found set itself (`hnew`) or was registered with. -/
theorem Waits.fired {k : ℕ} (h : Waits c w i m hist) (hik : i ≤ k) (hk : k ≤ c.count.toNat)
    (hj : j < k) (hnone : c.waitAll = false → (m.waiters w).status = -1)
    (hg : ∀ e l, Pevents.given hist' e w l =
      Pevents.given hist e w l + if e = c.events + j ∧ l = j then 1 else 0)
    (hl : ∀ e l, m'.live e ⟨w, l⟩ ≤ m.live e ⟨w, l⟩)
    (hlive : ∀ l < k, Pevents.given hist' (c.events + l) w l + m'.live (c.events + l) ⟨w, l⟩ = 1)
    (hall : (m'.waiters w).waitAll = (m.waiters w).waitAll)
    (hstatus : (m'.waiters w).status =
      if c.waitAll then (m.waiters w).status - 1 else (j : ℤ))
    (hstill : c.waitAll = true → (m'.waiters w).stillWaiting = (m.waiters w).stillWaiting) :
    Waits c w k m' hist' := by
  have hg' : ∀ l, Pevents.given hist' (c.events + l) w l =
      Pevents.given hist (c.events + l) w l + if l = j then 1 else 0 := fun l => by
    rw [hg]
    congr 1
    exact if_congr ⟨fun hl => hl.2, fun hl => ⟨by rw [hl], hl⟩⟩ rfl rfl
  constructor
  · exact hk
  · rw [hall, h.waitAll]
  · exact fun e l hpos => (h.live e l (hpos.trans_le (hl e l))).imp_right fun hlt => hlt.trans_le hik
  · intro e l hpos
    rw [hg] at hpos
    split at hpos
    next heq => exact ⟨by rw [heq.1, heq.2], by rw [heq.2]; exact hj⟩
    next => exact (h.given e l hpos).imp_right fun hlt => hlt.trans_le hik
  · intro l
    by_cases hlk : l < k
    · exact (hlive l hlk).le
    · rw [hg', if_neg (by omega)]
      exact (Nat.add_le_add_left (hl _ l) _).trans (h.once l)
  · exact fun _ => hlive
  · intro hc
    obtain ⟨hwaits, hsum⟩ := h.all hc
    rw [hstill hc, hstatus, if_pos hc, taken_add (hj.trans_le hk) hg']
    exact ⟨hwaits, by omega⟩
  · intro hc
    rw [hstatus, if_neg (by simp [hc])]
    have hfired := h.any hc
    rw [hnone hc] at hfired
    exact hfired.fire hg'
  · intro hc
    rw [hstatus, if_neg (by simp [hc])]
    intro hj
    omega

end Accounts

/-! ## A call from phase to phase -/

section Phases

variable {ι : Type*} {c : WaitCall} {w n : ℕ} {ph : Phase} {m m' : Memory ι} {hist hist' : List Mark}
  {pc : Pc} {pc' : Option Pc} {mk : Option Mark}

theorem Phase.Stands.of_same (h : ph.Stands c w m hist)
    (hl : ∀ e j, m'.live e ⟨w, j⟩ = m.live e ⟨w, j⟩)
    (hg : ∀ e j, given hist' e w j = given hist e w j)
    (hs : (m'.waiters w).standing = (m.waiters w).standing) : ph.Stands c w m' hist' := by
  obtain ⟨hstatus, -, hstill⟩ := Wfmo.eq_of_standing hs
  cases ph with
  | registering i => exact ⟨h.1.of_same hl hg hs, by rw [hstatus, hstill]; exact h.2⟩
  | waiting => exact ⟨h.1.of_same hl hg hs, h.2.1, by rw [hstatus, hstill]; exact h.2.2⟩
  | leaving r =>
      obtain ⟨⟨i, hw⟩, hdone, hms⟩ := h
      exact ⟨⟨i, hw.of_same hl hg hs⟩, hstatus ▸ hdone, hms⟩

theorem Phase.Stands.dropped (h : ph.Stands c w m hist)
    (hl : ∀ e j, m'.live e ⟨w, j⟩ ≤ m.live e ⟨w, j⟩) (hstill : (m.waiters w).stillWaiting = false)
    (hs : (m'.waiters w).standing = (m.waiters w).standing) : ph.Stands c w m' hist := by
  obtain ⟨hstatus, -, hstill'⟩ := Wfmo.eq_of_standing hs
  cases ph with
  | registering i => exact ⟨h.1.dropped hl hstill hs, by rw [hstatus, hstill']; exact h.2⟩
  | waiting => exact ⟨h.1.dropped hl hstill hs, h.2.1, by rw [hstatus, hstill']; exact h.2.2⟩
  | leaving r =>
      obtain ⟨⟨i, hw⟩, hdone, hms⟩ := h
      exact ⟨⟨i, hw.dropped hl hstill hs⟩, hstatus ▸ hdone, hms⟩

/-- `SetEvent` serves a registration of a call that waits. -/
theorem Phase.Stands.served {e j : ℕ} (h : Phase.waiting.Stands c w m hist)
    (hstill : (m.waiters w).stillWaiting = true)
    (hlive : ∀ d other, (m'.live d other + if d = e ∧ other = ⟨w, j⟩ then 1 else 0) = m.live d other)
    (hw : m'.waiters = update m.waiters w ((m.waiters w).dropRef.fire j)) :
    Phase.waiting.Stands c w m' (.obtainFor e w j :: hist) := by
  obtain ⟨hwaits, hms, hnone⟩ := h
  obtain ⟨rfl, hj⟩ := hwaits.live e j (by rw [← hlive, if_pos ⟨rfl, rfl⟩]; exact Nat.succ_pos _)
  have hg : ∀ e' l, given (.obtainFor (c.events + j) w j :: hist) e' w l =
      given hist e' w l + if e' = c.events + j ∧ l = j then 1 else 0 := fun e' l => by
    simpa using given_cons hist (c.events + j) w j e' w l
  have hlive' : ∀ e' l, (m'.live e' ⟨w, l⟩ + if e' = c.events + j ∧ l = j then 1 else 0) =
      m.live e' ⟨w, l⟩ := fun e' l => by
    rw [← hlive]
    simp
  have hself : m'.waiters w = (m.waiters w).dropRef.fire j := by rw [hw, update_self]
  have hfields : (m'.waiters w).waitAll = (m.waiters w).waitAll ∧
      ((m'.waiters w).status = if c.waitAll then (m.waiters w).status - 1 else (j : ℤ)) ∧
      (c.waitAll = true → (m'.waiters w).stillWaiting = (m.waiters w).stillWaiting) ∧
      (c.waitAll = false → (m'.waiters w).stillWaiting = false) := by
    rw [hself, ← hwaits.waitAll]
    unfold Wfmo.fire Wfmo.dropRef
    cases hall : (m.waiters w).waitAll <;> simp
  refine ⟨hwaits.fired le_rfl le_rfl hj (fun hc => hnone hc hstill) hg
    (fun e' l => by rw [← hlive' e' l]; exact Nat.le_add_right _ _) (fun l hl => ?_)
    hfields.1 hfields.2.1 hfields.2.2.1, hms, fun hc hstill' => ?_⟩
  · have hold := hwaits.exact hstill l hl
    have hsub := hlive' (c.events + l) l
    rw [hg]
    by_cases hlj : l = j
    · simp [hlj] at hsub hold ⊢
      omega
    · simp [hlj] at hsub ⊢
      omega
  · rw [hfields.2.2.2 hc] at hstill'
    cases hstill'

/-- A step of another thread, or one that leaves its call in the same phase. -/
theorem Phase.Stands.dealt (h : ph.Stands c w m hist) (hd : Dealing m m' pc pc' mk)
    (hnew : w < m.allocated) (hown : pc.own = some w → pc'.bind Pc.phase = pc.phase)
    (hheld : .waiter w ∈ pc.held → pc.own = none → ph = .registering 0 ∨ ph = .waiting) :
    ph.Stands c w m' (mk.toList ++ hist) := by
  cases hd with
  | create c' hm =>
      refine h.of_same (fun e j => by rw [hm]; rfl) (fun _ _ => rfl) ?_
      rw [hm, Memory.new_waiters, update_of_ne hnew.ne]
  | register c' v i hl hs =>
      have hwv : w ≠ v := by
        rintro rfl
        simpa [Pc.phase, MultiplePc.phase] using hown rfl
      exact h.of_same (fun e j => by rw [hl]; simp [hwv]) (fun _ _ => rfl) (hs w)
  | found c' v i hl hw =>
      have hwv : w ≠ v := by
        rintro rfl
        have hphase := hown rfl
        cases hc : c'.waitAll <;> simp [hc, Pc.phase, MultiplePc.phase] at hphase
      refine h.of_same (fun e j => hl e _) (fun e j => ?_) ?_
      · rw [given_append]
        simp [Ne.symm hwv]
      · rw [hw, update_of_ne hwv]
  | serve e i info hstill hl hw =>
      by_cases hwi : info.waiter = w
      · subst hwi
        have hlive : 0 < m.live e info := by
          rw [← hl, if_pos ⟨rfl, rfl⟩]
          exact Nat.succ_pos _
        rcases hheld (by simp [Pc.held]) rfl with rfl | rfl
        · exact absurd (h.1.live e info.waitIndex hlive).2 (Nat.not_lt_zero _)
        · exact h.served hstill hl hw
      · refine h.of_same (fun d j => ?_) (fun d j => ?_) ?_
        · rw [← hl]
          have hne : (⟨w, j⟩ : WfmoInfo) ≠ info := fun heq => hwi (by rw [← heq])
          simp [hne]
        · rw [given_append]
          simp [hwi]
        · rw [hw, update_of_ne (Ne.symm hwi)]
  | drop e info hstill hl hs pc pc' hphase =>
      by_cases hwi : info.waiter = w
      · subst hwi
        exact h.dropped (fun d j => by rw [← hl]; exact Nat.le_add_right _ _) hstill (hs _)
      · refine h.of_same (fun d j => ?_) (fun _ _ => rfl) (hs w)
        rw [← hl]
        have hne : (⟨w, j⟩ : WfmoInfo) ≠ info := fun heq => hwi (by rw [← heq])
        simp [hne]
  | leave c' v r hl hw pc' hphase =>
      have hwv : w ≠ v := by
        rintro rfl
        have hsame := hown rfl
        rw [hphase] at hsame
        cases hsame
      refine h.of_same (fun e j => hl e _) (fun e j => ?_) ?_
      · rw [given_append]
        simp
      · rw [hw, update_of_ne hwv]
  | other hl hs pc pc' mk hphase hgiven hleft =>
      refine h.of_same (fun e j => hl e _) (fun e j => ?_) (hs w)
      rw [given_append, if_neg (hgiven e w j), Nat.add_zero]

/-- A call starts with nothing. -/
theorem Phase.stands_new (c : WaitCall)
    (hnew : ∀ e j, m.live e ⟨m.allocated, j⟩ + given hist e m.allocated j = 0) :
    (Phase.registering 0).Stands c m.allocated (m.new c.wfmo) hist := by
  have hlive : ∀ e j, (m.new c.wfmo).live e ⟨m.allocated, j⟩ = 0 := fun e j =>
    (Nat.add_eq_zero_iff.mp (hnew e j)).1
  have hgiven : ∀ e j, given hist e m.allocated j = 0 := fun e j =>
    (Nat.add_eq_zero_iff.mp (hnew e j)).2
  have hself : (m.new c.wfmo).waiters m.allocated = c.wfmo := update_self _ _ _
  refine ⟨?_, by rw [hself]; rfl, fun hc => by rw [hself]; simp [WaitCall.wfmo, hc]⟩
  constructor
  · exact Nat.zero_le _
  · rw [hself]
    rfl
  · exact fun e j hpos => absurd (hlive e j) hpos.ne'
  · exact fun e j hpos => absurd (hgiven e j) hpos.ne'
  · intro j
    rw [hlive, hgiven]
    exact Nat.zero_le _
  · exact fun _ j hj => absurd hj (Nat.not_lt_zero j)
  · intro hc
    rw [hself, taken, sum_eq_zero fun j _ => hgiven _ j]
    simp [WaitCall.wfmo, hc]
  · intro hc
    rw [hself]
    exact .inl ⟨by simp [WaitCall.wfmo, hc], fun j => hgiven _ j⟩
  · intro _ _
    rw [hself]
    rfl

/-- A call finds the next event set. -/
theorem Phase.Stands.found {i : ℕ} (h : (Phase.registering i).Stands c w m hist) (hi : i < c.count)
    (hl : ∀ d info, m'.live d info = m.live d info)
    (hw : m'.waiters = update m.waiters w ((m.waiters w).found c.waitAll i)) :
    Waits c w (i + 1) m' (.obtainFor (c.events + i) w i :: hist) ∧
      (m'.waiters w).stillWaiting = true ∧ (c.waitAll = false → (m'.waiters w).status = i) := by
  obtain ⟨hwaits, hstill, hnone⟩ := h
  have hself : m'.waiters w = (m.waiters w).found c.waitAll i := by rw [hw, update_self]
  have hg : ∀ e l, given (.obtainFor (c.events + i) w i :: hist) e w l =
      given hist e w l + if e = c.events + i ∧ l = i then 1 else 0 := fun e l => by
    simpa using given_cons hist (c.events + i) w i e w l
  have hfields : (m'.waiters w).waitAll = (m.waiters w).waitAll ∧
      ((m'.waiters w).status = if c.waitAll then (m.waiters w).status - 1 else (i : ℤ)) ∧
      (m'.waiters w).stillWaiting = (m.waiters w).stillWaiting := by
    rw [hself]
    unfold Wfmo.found
    cases c.waitAll <;> simp
  refine ⟨hwaits.fired (Nat.le_succ i) (by omega) (Nat.lt_succ_self i) hnone hg
    (fun e l => (hl e _).le) (fun l hlt => ?_) hfields.1 hfields.2.1 fun _ => hfields.2.2,
    by rw [hfields.2.2, hstill], fun hc => by rw [hfields.2.1, if_neg (by simp [hc])]⟩
  rw [hg, hl]
  by_cases hli : l = i
  · subst hli
    have hgiven := hwaits.given (c.events + l) l
    have hlive := hwaits.live (c.events + l) l
    simp only [true_and, if_true]
    omega
  · simpa [hli] using hwaits.exact hstill l (by omega)

/-- **A call from one step to the next.** -/
theorem Dealing.stands (hd : Dealing m m' pc pc' mk) (hlegal : pc.Legal n)
    (h : ∀ c w ph, pc.phase = some (c, w, ph) → w < m.allocated ∧ ph.Stands c w m hist)
    (hnew : ∀ e j, m.live e ⟨m.allocated, j⟩ + given hist e m.allocated j = 0)
    (hq : pc'.bind Pc.phase = some (c, w, ph)) : ph.Stands c w m' (mk.toList ++ hist) := by
  have hsame : pc'.bind Pc.phase = pc.phase → ph.Stands c w m' (mk.toList ++ hist) := by
    intro hphase
    have hpc := hphase ▸ hq
    obtain ⟨hlt, hstands⟩ := h c w ph hpc
    refine hstands.dealt hd hlt (fun _ => hphase) fun _ hnone => ?_
    rw [Pc.own_of_phase hpc] at hnone
    cases hnone
  cases hd with
  | create c' hm =>
      cases hq
      exact hm ▸ Phase.stands_new c hnew
  | register c' v i hl hs =>
      cases hq
      obtain ⟨-, hwaits, hstill, hnone⟩ := h c w (.registering i) rfl
      obtain ⟨hstatus, -, hstill'⟩ := Wfmo.eq_of_standing (hs w)
      refine ⟨hwaits.registered hlegal.2 (fun e j => ?_) (hs w), by rw [hstill', hstill],
        by rw [hstatus]; exact hnone⟩
      rw [hl]
      simp
  | found c' v i hl hw =>
      have hstands := (h c' v (.registering i) rfl).2
      cases hall : c'.waitAll with
      | true =>
          simp only [hall] at hq
          cases hq
          obtain ⟨hwaits, hstill, -⟩ := hstands.found hlegal.2 hl hw
          exact ⟨hwaits, hstill, fun hc => absurd (hall.symm.trans hc) (by simp)⟩
      | false =>
          simp only [hall] at hq
          cases hq
          obtain ⟨hwaits, -, hstatus⟩ := hstands.found hlegal.2 hl hw
          refine ⟨⟨i + 1, hwaits⟩, fun _ => ?_, fun hc => absurd (hall.symm.trans hc) (by simp)⟩
          rw [hstatus hall, WaitCall.done, hall]
          simp
  | serve e i info hstill hl hw => cases hq
  | drop e info hstill hl hs pc pc' hphase => exact hsame hphase
  | leave c' v r hl hw pc' hphase =>
      rw [hphase] at hq
      cases hq
  | other hl hs pc pc' mk hphase hgiven hleft =>
      have hgiven' : ∀ w e j, given (mk.toList ++ hist) e w j = given hist e w j := fun w e j => by
        rw [given_append, if_neg (hgiven e w j), Nat.add_zero]
      rcases hphase with hphase | ⟨c', v, i, rfl, hi, rfl⟩ | ⟨c', v, rfl, hdone, rfl⟩ |
        ⟨c', v, r, rfl, hr, rfl⟩
      · exact hsame hphase
      · obtain ⟨-, hwaits, hstill, hnone⟩ := h c' v (.registering i) rfl
        obtain rfl : i = c'.count.toNat := le_antisymm hwaits.le (by omega)
        have hwaits' := hwaits.of_same (fun e j => hl e _) (hgiven' v) (hs v)
        obtain ⟨hstatus, -, hstill'⟩ := Wfmo.eq_of_standing (hs v)
        split at hq <;> cases hq
        · exact ⟨⟨_, hwaits'⟩, fun hok => absurd hok (by simp), fun _ _ => rfl⟩
        · exact ⟨hwaits', ‹_›, by rw [hstatus]; exact fun hc _ => hnone hc⟩
      · cases hq
        obtain ⟨-, hwaits, hms, -⟩ := h c w .waiting rfl
        have hwaits' := hwaits.of_same (fun e j => hl e _) (hgiven' w) (hs w)
        obtain ⟨hstatus, -, -⟩ := Wfmo.eq_of_standing (hs w)
        exact ⟨⟨_, hwaits'⟩, fun _ => by rw [hstatus]; exact hdone, fun _ hzero => absurd hzero hms⟩
      · cases hq
        obtain ⟨-, hwaits, hms, -⟩ := h c w .waiting rfl
        have hwaits' := hwaits.of_same (fun e j => hl e _) (hgiven' w) (hs w)
        exact ⟨⟨_, hwaits'⟩, fun hok => absurd hok hr, fun _ hzero => absurd hzero hms⟩

end Phases

/-! ## Every run -/

/-- What a call that has given up its reference was given, and what it returns. -/
structure Left (c : WaitCall) (w : ℕ) (r : WaitResult) (waitIndex : ℤ) (hist : List Mark) : Prop where
  given : ∀ e j, 0 < given hist e w j → e = c.events + j ∧ j < c.count
  once : ∀ j, Pevents.given hist (c.events + j) w j ≤ 1
  all : c.waitAll = true →
    waitIndex + taken c w hist = c.count ∧ (c.milliseconds = 0 → r = .timedOut)
  any : c.waitAll = false → Fired c w waitIndex hist
  ok : r = .ok → c.done waitIndex = true

/-- The accounts of all calls, under way and returned. -/
structure Outcomes {ι : Type*} (s : State ι) : Prop where
  stands : ∀ t pc, s.threads t = some pc → ∀ c w ph, pc.phase = some (c, w, ph) →
    ph.Stands c w s.mem s.hist
  known : ∀ e w j, 0 < s.mem.live e ⟨w, j⟩ + given s.hist e w j → w < s.mem.allocated
  left : ∀ w c r waitIndex, .leave w c r waitIndex ∈ s.hist →
    w < s.mem.allocated ∧ (s.mem.waiters w).present = false ∧ Left c w r waitIndex s.hist

section Invariant

variable {ι : Type*} {cfg : Config ι} {s s' : State ι} {a : ι × Choice} {c : WaitCall} {w : ℕ}
  {r : WaitResult} {waitIndex : ℤ}

theorem outcomes_start : Outcomes (start cfg) where
  stands _ _ h := absurd h.symm (Option.some_ne_none _)
  known _ _ _ h := absurd h (lt_irrefl 0)
  left _ _ _ _ h := absurd h List.not_mem_nil

/-- A call that leaves takes its accounts with it. -/
theorem Phase.Stands.left {m : Memory ι} {hist : List Mark}
    (h : (Phase.leaving r).Stands c w m hist) : Left c w r (m.waiters w).status hist := by
  obtain ⟨⟨i, hw⟩, hok, hms⟩ := h
  have hle := hw.le
  refine ⟨fun e j hpos => ⟨(hw.given e j hpos).1, ?_⟩, fun j => ?_, fun hc => ⟨(hw.all hc).2, hms hc⟩,
    hw.any, hok⟩
  · have hlt := (hw.given e j hpos).2
    omega
  · exact (Nat.le_add_right _ _).trans (hw.once j)

theorem Left.of_same {hist hist' : List Mark} (h : Left c w r waitIndex hist)
    (hg : ∀ e j, Pevents.given hist' e w j = Pevents.given hist e w j) :
    Left c w r waitIndex hist' where
  given := by simpa only [hg] using h.given
  once := by simpa only [hg] using h.once
  all hc := by
    rw [taken_same hg]
    exact h.all hc
  any hc := (h.any hc).of_same hg
  ok := h.ok

section Step

variable {t : ι} {pc : Pc} {pc' : Option Pc} {m' : Memory ι} {mk : Option Mark}

/-- A step gives events to a call under way only. -/
theorem Dealing.given_present (hd : Dealing s.mem m' pc pc' mk) (hr : Referenced cfg.eventCount s)
    (hpc : s.threads t = some pc) {e v j : ℕ} (hmk : mk = some (.obtainFor e v j)) :
    (s.mem.waiters v).present = true := by
  cases hd with
  | found c w i hl hw =>
      cases hmk
      exact hr.present hpc rfl
  | serve e i info hstill hl hw =>
      cases hmk
      exact hr.own.still _ hstill
  | other hl hs pc pc' mk hphase hgiven hleft => exact absurd hmk (hgiven e v j)
  | _ => cases hmk

/-- A step registers calls under way only. -/
theorem Dealing.known (hd : Dealing s.mem m' pc pc' mk) (h : Outcomes s)
    (hr : Referenced cfg.eventCount s) (hpc : s.threads t = some pc) {e v j : ℕ}
    (hpos : 0 < m'.live e ⟨v, j⟩ + given (mk.toList ++ s.hist) e v j) : v < s.mem.allocated := by
  have hlt : (s.mem.waiters v).present = true → v < s.mem.allocated := fun hp =>
    (hr.alive (Memory.references_pos_of_present hp)).1
  by_cases hmk : mk = some (.obtainFor e v j)
  · exact hlt (hd.given_present hr hpc hmk)
  · rw [given_append, if_neg hmk, Nat.add_zero] at hpos
    cases hd with
    | create c hm => exact h.known e v j (by rwa [hm] at hpos)
    | register c w i hl hs =>
        by_cases hvw : v = w
        · exact hlt (hr.present hpc (by rw [hvw]; rfl))
        · refine h.known e v j ?_
          rw [hl] at hpos
          simpa [hvw] using hpos
    | found c w i hl hw => exact h.known e v j (by rwa [hl] at hpos)
    | serve e' i info hstill hl hw =>
        refine h.known e v j (hpos.trans_le (Nat.add_le_add_right ?_ _))
        rw [← hl]
        exact Nat.le_add_right _ _
    | drop e' info hstill hl hs pc pc' hphase =>
        refine h.known e v j (hpos.trans_le (Nat.add_le_add_right ?_ _))
        rw [← hl]
        exact Nat.le_add_right _ _
    | leave c w r hl hw pc' hphase => exact h.known e v j (by rwa [hl] at hpos)
    | other hl hs pc pc' mk hphase hgiven hleft => exact h.known e v j (by rwa [hl] at hpos)

/-- A call that has left is given nothing any more. -/
theorem Dealing.given_left (hd : Dealing s.mem m' pc pc' mk) (hr : Referenced cfg.eventCount s)
    (hpc : s.threads t = some pc) (hp : (s.mem.waiters w).present = false) (e j : ℕ) :
    given (mk.toList ++ s.hist) e w j = given s.hist e w j := by
  rw [given_append, if_neg, Nat.add_zero]
  intro hmk
  rw [hd.given_present hr hpc hmk] at hp
  cases hp

/-- The marks of calls that leave. -/
theorem Dealing.left (hd : Dealing s.mem m' pc pc' mk) (h : Outcomes s) (hpc : s.threads t = some pc)
    (hmk : mk = some (.leave w c r waitIndex)) :
    pc.own = some w ∧ (m'.waiters w).present = false ∧
      Left c w r waitIndex (mk.toList ++ s.hist) := by
  cases hd with
  | leave c' v r' hl hw pc' hphase =>
      cases hmk
      refine ⟨rfl, by rw [hw, update_self]; rfl, ?_⟩
      refine ((h.stands t _ hpc c w (.leaving r) rfl).left).of_same fun e j => ?_
      rw [given_append]
      simp
  | other hl hs pc pc' mk hphase hgiven hleft => exact absurd hmk (hleft w c r waitIndex)
  | _ => cases hmk

/-- The call whose block a registration leads to, if it still waits. -/
theorem Outcomes.waits (h : Outcomes s) (hr : Referenced cfg.eventCount s)
    (hp : (s.mem.waiters w).present = true) : ∃ c i, Waits c w i s.mem s.hist := by
  obtain ⟨t, ht⟩ := (hr.own.own.taken_iff w).mp hp
  obtain ⟨pc, hpc, hown⟩ := Option.bind_eq_some_iff.mp ht
  obtain ⟨c, ph, hph⟩ := Pc.exists_phase hown
  have hstands := h.stands t pc hpc c w ph hph
  cases ph with
  | registering i => exact ⟨c, i, hstands.1⟩
  | waiting => exact ⟨c, _, hstands.1⟩
  | leaving r => exact ⟨c, hstands.1⟩

variable [DecidableEq ι] {ch : Chance}

/-- Whoever has left does not come back. -/
theorem Access.present_eq_false (h : Access t ch s.mem pc m' pc' mk) (hlt : w < s.mem.allocated)
    (hp : (s.mem.waiters w).present = false) : (m'.waiters w).present = false := by
  rcases h.own_cases with ⟨c, -, -, rfl⟩ | ⟨v, -, -, hw, -⟩ | ⟨-, -, hsame⟩
  · rwa [Memory.new_waiters, update_of_ne hlt.ne]
  · rw [hw]
    by_cases hwv : w = v
    · rw [hwv, update_self]
      rfl
    · rwa [update_of_ne hwv]
  · rw [(hsame w).1, hp]

/-- **Step lemma of the accounts.** -/
theorem Outcomes.step (h : Outcomes s) (hr : Referenced cfg.eventCount s) (hg : Guarded s)
    (hs : step cfg s a = some s') : Outcomes s' := by
  obtain ⟨t, b⟩ := a
  rcases step_cases hs with ⟨c, -, hpc, -, -, rfl⟩ | ⟨ch, pc, m', pc', mk, -, hpc, haccess, rfl⟩
  · refine ⟨forall_pc_update (fun u q _ hq => h.stands u q hq) fun q hq c' w ph hph => ?_, h.known,
      h.left⟩
    cases hq
    cases c <;> cases hph
  · have hd := haccess.dealing (hg.knows t pc hpc)
    have hlt : ∀ {u q w}, s.threads u = some q → q.own = some w → w < s.mem.allocated :=
      fun hq hown => (hr.alive (Memory.references_pos_of_present (hr.present hq hown))).1
    refine ⟨forall_pc_update (fun u q hut hq c w ph hph => ?_) fun q hq c w ph hph => ?_,
      fun e w j hpos => (hd.known h hr hpc hpos).trans_le haccess.allocated_le,
      fun w c r waitIndex hmem => ?_⟩
    · have hown := Pc.own_of_phase hph
      refine (h.stands u q hq c w ph hph).dealt hd (hlt hq hown) (fun hmine => ?_) fun hheld _ => ?_
      · refine absurd (hr.own.own.unique u t w ?_ ?_) hut
        · rw [hq]
          exact hown
        · rw [hpc]
          exact hmine
      · exact (Pc.held_of_phase hph).resolve_left fun hheld' => hg.others hpc hq hut hheld' hheld
    · refine hd.stands (n := cfg.eventCount) (hr.legal t pc hpc)
        (fun c w ph hph => ⟨hlt hpc (Pc.own_of_phase hph), h.stands t pc hpc c w ph hph⟩)
        (fun e j => ?_) (by rw [hq]; exact hph)
      by_contra hne
      exact lt_irrefl _ (h.known e _ j (Nat.pos_of_ne_zero hne))
    · rcases List.mem_append.mp hmem with hnew | hold
      · obtain ⟨hown, hp, hleft⟩ := hd.left h hpc (Option.mem_toList.mp hnew)
        exact ⟨(hlt hpc hown).trans_le haccess.allocated_le, hp, hleft⟩
      · obtain ⟨hw, hp, hleft⟩ := h.left w c r waitIndex hold
        exact ⟨hw.trans_le haccess.allocated_le, haccess.present_eq_false hw hp,
          hleft.of_same (hd.given_left hr hpc hp)⟩

/-- The accounts of every state reached. -/
theorem outcomes_of_reached (h : Reached cfg s) : Outcomes s :=
  h.invariant outcomes_start fun _ _ _ hr hi _ hs =>
    hi.step (referenced_of_reached hr) (guarded_of_reached hr) hs

/-! ## What holds of every run -/

/-- **A wait for any of several events** consumes at most one event, the one `waitIndex` names. It consumes
none exactly if `waitIndex` is -1, and then it has not succeeded; nothing is given to it later on. -/
theorem waitAny_of_reached (h : Reached cfg s) (hc : c.waitAll = false)
    (hleft : .leave w c r waitIndex ∈ s.hist) :
    (waitIndex = -1 ∧ r ≠ .ok ∧ ∀ e i, .obtainFor e w i ∉ s.hist) ∨
      ∃ i : ℕ, waitIndex = i ∧ i < c.count ∧ s.hist.count (.obtainFor (c.events + i) w i) = 1 ∧
        ∀ e j, .obtainFor e w j ∈ s.hist → e = c.events + i ∧ j = i := by
  have hl := ((outcomes_of_reached h).left w c r waitIndex hleft).2.2
  rcases hl.any hc with ⟨rfl, hnone⟩ | ⟨i, rfl, hone, hothers⟩
  · refine .inl ⟨rfl, fun hok => ?_, fun e j hmem => ?_⟩
    · have hdone := hl.ok hok
      simp [WaitCall.done, hc] at hdone
    · have hpos := List.count_pos_iff.mpr hmem
      obtain ⟨rfl, -⟩ := hl.given e j hpos
      exact hpos.ne' (hnone j)
  · have hi := (hl.given (c.events + i) i (by rw [hone]; exact Nat.one_pos)).2
    refine .inr ⟨i, rfl, hi, hone, fun e j hmem => ?_⟩
    have hpos := List.count_pos_iff.mpr hmem
    obtain ⟨rfl, -⟩ := hl.given e j hpos
    by_cases hji : j = i
    · exact ⟨by rw [hji], hji⟩
    · exact absurd (hothers j hji) hpos.ne'

/-- **A wait for all of several events** consumes each at most once, and `waitIndex` is how many it is
short of. If it succeeds it has consumed every one; with a timeout of 0 it does not succeed even then. -/
theorem waitAll_of_reached (h : Reached cfg s) (hc : c.waitAll = true)
    (hleft : .leave w c r waitIndex ∈ s.hist) :
    (∀ e j, .obtainFor e w j ∈ s.hist →
      e = c.events + j ∧ j < c.count ∧ s.hist.count (.obtainFor e w j) = 1) ∧
    waitIndex = c.count - ∑ j ∈ range c.count.toNat, s.hist.count (.obtainFor (c.events + j) w j) ∧
    (r = .ok → ∀ j : ℕ, j < c.count → s.hist.count (.obtainFor (c.events + j) w j) = 1) ∧
    (c.milliseconds = 0 → r = .timedOut) := by
  have hl := ((outcomes_of_reached h).left w c r waitIndex hleft).2.2
  obtain ⟨hsum, hms⟩ := hl.all hc
  refine ⟨fun e j hmem => ?_, ?_, fun hok j hj => ?_, hms⟩
  · have hpos := List.count_pos_iff.mpr hmem
    obtain ⟨rfl, hj⟩ := hl.given e j hpos
    exact ⟨rfl, hj, le_antisymm (hl.once j) hpos⟩
  · unfold taken given at hsum
    omega
  · have hdone := hl.ok hok
    simp only [WaitCall.done, hc, if_true, decide_eq_true_eq] at hdone
    have hfull : taken c w s.hist = ∑ _j ∈ range c.count.toNat, 1 := by
      rw [← card_eq_sum_ones, card_range]
      omega
    exact (sum_eq_sum_iff_of_le fun k _ => hl.once k).mp hfull j (mem_range.mpr (by omega))

/-- **`EventsLeft` is positive wherever one is taken off it**, by the call itself or by `SetEvent`, so that
it is not negative where the code asserts that. -/
theorem eventsLeft_of_reached (h : Reached cfg s) (hpc : s.threads t = some pc) :
    (∀ c w i, pc = .multiple c (.check w i) → c.waitAll = true → 0 < (s.mem.waiters w).status) ∧
      ∀ e i info, pc = .set e (.serve i info) → (s.mem.waiters info.waiter).stillWaiting = true →
        (s.mem.waiters info.waiter).waitAll = true → 0 < (s.mem.waiters info.waiter).status := by
  have ho := outcomes_of_reached h
  have hr := referenced_of_reached h
  constructor
  · rintro c w i rfl hc
    obtain ⟨hwaits, -, -⟩ := ho.stands t _ hpc c w (.registering i) rfl
    have hi := (hr.legal t _ hpc).2
    have hgiven := hwaits.given (c.events + i) i
    have hlt := taken_lt (j := i) (by omega)
      (fun k => (Nat.le_add_right _ _).trans (hwaits.once k)) (by omega)
    have hsum := (hwaits.all hc).2
    omega
  · rintro e i ⟨w, j⟩ rfl hstill hall
    obtain ⟨c, k, hwaits⟩ := ho.waits hr (hr.own.still w hstill)
    obtain ⟨-, hcounted, -, hi⟩ := (guarded_of_reached h).knows t _ hpc
    have hlive := Memory.live_pos hcounted hi
    obtain ⟨rfl, hj⟩ := hwaits.live e j hlive
    have honce := hwaits.once j
    have hle := hwaits.le
    have hlt := taken_lt (j := j) (by omega)
      (fun k => (Nat.le_add_right _ _).trans (hwaits.once k)) (by omega)
    have hsum := (hwaits.all (hwaits.waitAll ▸ hall)).2
    have hpos : 0 < (s.mem.waiters w).status := by omega
    exact hpos

end Step

end Invariant

/-! A wait that times out while `SetEvent` serves its registration has consumed the event: -/

/-- A wait for event 0 alone, with a timeout. -/
def waitBriefly : WaitCall := { waitForOne with milliseconds := 5 }

theorem waitAny_of_reached_timedOut :
    ∃ s : State (Fin 2), Reached (anyCalls 1) s ∧ .leave 0 waitBriefly .timedOut 0 ∈ s.hist ∧
      ∃ i : ℕ, (0 : ℤ) = i ∧ s.hist.count (.obtainFor (0 + i) 0 i) = 1 := by
  obtain ⟨s, hs, hleft⟩ : ∃ s : State (Fin 2), Reached (anyCalls 1) s ∧
      .leave 0 waitBriefly .timedOut 0 ∈ s.hist :=
    Reach.exists_of_run (calling 0 (.waitForMultipleEvents waitBriefly) 7 ++
      calling 1 (.setEvent 0) 4 ++ [(0, .run { waitEnd := .expire, woken := 0 })] ++ runs 0 2)
      (by decide +kernel)
  rcases waitAny_of_reached hs rfl hleft with ⟨hfalse, -⟩ | ⟨i, hi, -, hone, -⟩
  · exact absurd hfalse (by decide)
  · exact ⟨s, hs, hleft, i, hi, hone⟩

/-! A look at two events that are both set consumes them and reports a timeout: -/

/-- A look whether events 0 and 1 are set. -/
def tryBoth : WaitCall where
  events := 0
  count := 2
  waitAll := true
  milliseconds := 0

theorem waitAll_of_reached_tryBoth :
    ∃ s : State (Fin 2), Reached (anyCalls 2) s ∧ .leave 0 tryBoth .timedOut 0 ∈ s.hist ∧
      (0 : ℤ) = tryBoth.count - ∑ j ∈ range 2, s.hist.count (.obtainFor (0 + j) 0 j) := by
  obtain ⟨s, hs, hleft⟩ : ∃ s : State (Fin 2), Reached (anyCalls 2) s ∧
      .leave 0 tryBoth .timedOut 0 ∈ s.hist :=
    Reach.exists_of_run (calling 1 (.setEvent 0) 4 ++ calling 1 (.setEvent 1) 4 ++
      calling 0 (.waitForMultipleEvents tryBoth) 10) (by decide +kernel)
  exact ⟨s, hs, hleft, (waitAll_of_reached hs rfl hleft).2.1⟩

theorem eventsLeft_of_reached_tryBoth :
    ∃ s : State (Fin 2), Reached (anyCalls 2) s ∧ 0 < (s.mem.waiters 0).status := by
  obtain ⟨s, hs, hpc⟩ : ∃ s : State (Fin 2), Reached (anyCalls 2) s ∧
      s.threads 0 = some (.multiple tryBoth (.check 0 0)) :=
    Reach.exists_of_run (calling 0 (.waitForMultipleEvents tryBoth) 4) (by decide +kernel)
  exact ⟨s, hs, (eventsLeft_of_reached hs hpc).1 _ _ _ rfl rfl⟩

end AtomicMessageQueue.Pevents
