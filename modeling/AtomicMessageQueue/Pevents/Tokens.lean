import AtomicMessageQueue.Pevents.Guards

/-! # What becomes of a `SetEvent`

An auto-reset event lets one wait through for each time it is set. The invariant is a balance: each
`SetEvent` that found the event unset has been consumed by a wait or taken back by `ResetEvent`, or the
event is still set.
-/

namespace AtomicMessageQueue.Pevents

open Function Transition

/-- A wait, of either kind, has obtained event `e`. -/
def Mark.obtains (e : ℕ) : Mark → Bool
  | .obtain d | .obtainFor d _ _ => d = e
  | _ => false

/-- Each time the event was set it was consumed, if waits consume it, or reset, or it is set now. -/
def TokenBalance (auto : Bool) (hist : List Mark) (e : ℕ) (state : Bool) : Prop :=
  hist.count (.set e false) =
    (if auto then hist.countP (Mark.obtains e) else 0) + hist.count (.reset e true) + state.toNat

section Balance

variable {auto state : Bool} {hist : List Mark} {e : ℕ} {mk : Mark}

theorem TokenBalance.set (h : TokenBalance auto hist e state) :
    TokenBalance auto (.set e state :: hist) e true := by
  unfold TokenBalance at h ⊢
  cases state <;> simp_all [Mark.obtains]

theorem TokenBalance.reset (h : TokenBalance auto hist e state) :
    TokenBalance auto (.reset e state :: hist) e false := by
  unfold TokenBalance at h ⊢
  cases state <;> simp_all [Mark.obtains]
  omega

/-- A wait obtains an event that is set. -/
theorem TokenBalance.obtain (h : TokenBalance auto hist e true) (hmk : mk.obtains e = true) :
    TokenBalance auto (mk :: hist) e !auto := by
  unfold TokenBalance at h ⊢
  cases mk <;> simp only [Mark.obtains, Bool.false_eq_true] at hmk <;> cases auto <;>
    simp_all [Mark.obtains] <;> omega

/-- Marks of other events do not count. -/
theorem TokenBalance.other (h : TokenBalance auto hist e state) (hset : mk ≠ .set e false)
    (hreset : mk ≠ .reset e true) (hobtain : mk.obtains e = false) :
    TokenBalance auto (mk :: hist) e state := by
  unfold TokenBalance at h ⊢
  rwa [List.count_cons_of_ne hset, List.count_cons_of_ne hreset,
    List.countP_cons_of_neg (by simp [hobtain])]

end Balance

/-! ## Every run -/

section Step

variable {ι : Type*} {t : ι} {ch : Chance} {m m' : Memory ι} {pc : Pc} {pc' : Option Pc}
  {mk : Option Mark} {hist : List Mark}

/-- What a step does to the states of the events: one is set, reset or obtained, or none. -/
inductive Turn (m m' : Memory ι) (mk : Option Mark) : Prop
  | set (d : ℕ) (ev : PEvent) (hm : m'.events = update m.events d ev)
      (ha : ev.autoReset = (m.events d).autoReset) (hs : ev.state = true)
      (hmk : mk = some (.set d (m.events d).state))
  | reset (d : ℕ) (ev : PEvent) (hm : m'.events = update m.events d ev)
      (ha : ev.autoReset = (m.events d).autoReset) (hs : ev.state = false)
      (hmk : mk = some (.reset d (m.events d).state))
  | obtain (d : ℕ) (ev : PEvent) (hm : m'.events = update m.events d ev)
      (ha : ev.autoReset = (m.events d).autoReset) (hset : (m.events d).state = true)
      (hs : ev.state = !ev.autoReset) (hmk : mk = some (.obtain d) ∨ ∃ w i, mk = some (.obtainFor d w i))
  | keep (d : ℕ) (ev : PEvent) (hm : m'.events = update m.events d ev)
      (ha : ev.autoReset = (m.events d).autoReset) (hs : ev.state = (m.events d).state)
      (hmk : mk = none ∨ ∃ w c r waitIndex, mk = some (.leave w c r waitIndex))

theorem PEvent.pass_eq (ev : PEvent) : ev.pass.autoReset = ev.autoReset ∧ ev.pass.state = ev.state := by
  unfold PEvent.pass
  split <;> exact ⟨rfl, rfl⟩

theorem PEvent.give_eq {ev : PEvent} (hs : ev.state = true) :
    ev.give.autoReset = ev.autoReset ∧ ev.give.state = !ev.give.autoReset := by
  unfold PEvent.give
  split
  next hauto => simp [PEvent.reset, PEvent.countOff, hauto]
  next hauto => simp [PEvent.countOff, hauto, hs]

theorem Access.turn [DecidableEq ι] (h : Access t ch m pc m' pc' mk) (hknows : pc.Knows m) :
    Turn m m' mk := by
  have hsame : m'.events = m.events → mk = none → Turn m m' mk := fun hm hmk =>
    .keep 0 (m.events 0) (by rw [hm, update_eq_self]) rfl rfl (.inl hmk)
  cases h with
  | waitObtain e ms pc hpc hs => exact .obtain e _ rfl rfl hs rfl (.inl rfl)
  | found c w i hs pc' hpc' => exact .obtain _ _ rfl rfl hs rfl (.inr ⟨w, i, rfl⟩)
  | serve e i info hs =>
      have hgive := PEvent.give_eq hknows.1
      exact .obtain e _ rfl hgive.1 hknows.1 hgive.2 (.inr ⟨_, _, rfl⟩)
  | store e => exact .set e _ rfl rfl rfl rfl
  | reset e => exact .reset e _ rfl rfl rfl rfl
  | sweepDrop c w i k info hs pc' hpc' => exact .keep _ _ rfl rfl rfl (.inl rfl)
  | register c w i hs => exact .keep _ _ rfl rfl rfl (.inl rfl)
  | dropLast e i info hs hr => exact .keep _ _ rfl rfl rfl (.inl rfl)
  | scanManual e i hi ha => exact .keep _ _ rfl rfl rfl (.inl rfl)
  | drop e i info hs hr =>
      have hpass := (m.events e).countOff.pass_eq
      exact .keep e _ rfl hpass.1 hpass.2 (.inl rfl)
  | destroy e i w | notify e i w pc' hpc' =>
      have hpass := (m.events e).pass_eq
      exact .keep e _ rfl hpass.1 hpass.2 (.inl rfl)
  | leave c w r pc' hpc' =>
      exact .keep 0 (m.events 0) (update_eq_self _ _).symm rfl rfl (.inr ⟨w, c, r, _, rfl⟩)
  | _ => exact hsame rfl rfl

/-- Every event and the history balance. -/
def TokensBalance (m : Memory ι) (hist : List Mark) : Prop :=
  ∀ e, TokenBalance (m.events e).autoReset hist e (m.events e).state

/-- **Step lemma of the balance.** -/
theorem Turn.balance (h : Turn m m' mk) (hb : TokensBalance m hist) :
    TokensBalance m' (mk.toList ++ hist) := by
  intro e
  have hold := hb e
  cases h with
  | set d ev hm ha hs hmk =>
      subst hmk
      rw [hm]
      by_cases hed : e = d
      · subst hed
        rw [update_self, ha, hs]
        exact hold.set
      · rw [update_of_ne hed]
        exact hold.other (by simp [Ne.symm hed]) (by simp) rfl
  | reset d ev hm ha hs hmk =>
      subst hmk
      rw [hm]
      by_cases hed : e = d
      · subst hed
        rw [update_self, ha, hs]
        exact hold.reset
      · rw [update_of_ne hed]
        exact hold.other (by simp) (by simp [Ne.symm hed]) rfl
  | obtain d ev hm ha hset hs hmk =>
      rw [hm]
      have hmark : ∃ a, mk = some a ∧ (∀ f, a.obtains f = decide (d = f)) ∧
          (∀ was, a ≠ .set e was) ∧ ∀ was, a ≠ .reset e was := by
        rcases hmk with rfl | ⟨w, i, rfl⟩ <;>
          exact ⟨_, rfl, fun _ => rfl, fun _ => by simp, fun _ => by simp⟩
      obtain ⟨a, rfl, hobtains, hnset, hnreset⟩ := hmark
      by_cases hed : e = d
      · subst hed
        rw [update_self, hs, ha]
        rw [hset] at hold
        exact hold.obtain (by simp [hobtains])
      · rw [update_of_ne hed]
        exact hold.other (hnset _) (hnreset _) (by simp [hobtains, Ne.symm hed])
  | keep d ev hm ha hs hmk =>
      rw [hm]
      have hkeep : TokenBalance (m.events e).autoReset (mk.toList ++ hist) e (m.events e).state := by
        rcases hmk with rfl | ⟨w, c, r, waitIndex, rfl⟩
        · exact hold
        · exact hold.other (by simp) (by simp) rfl
      by_cases hed : e = d
      · subst hed
        rwa [update_self, ha, hs]
      · rwa [update_of_ne hed]

theorem Turn.autoReset (h : Turn m m' mk) (e : ℕ) :
    (m'.events e).autoReset = (m.events e).autoReset := by
  have hupdate : ∀ {d : ℕ} {ev : PEvent}, m'.events = update m.events d ev →
      ev.autoReset = (m.events d).autoReset → (m'.events e).autoReset = (m.events e).autoReset := by
    intro d ev hm ha
    rw [hm]
    by_cases hed : e = d
    · rw [hed, update_self, ha]
    · rw [update_of_ne hed]
  cases h with
  | set d ev hm ha | reset d ev hm ha | obtain d ev hm ha | keep d ev hm ha => exact hupdate hm ha

variable [DecidableEq ι] {cfg : Config ι} {s s' : State ι} {a : ι × Choice}

/-- An event stays what it was created as. -/
theorem autoReset_of_reached (h : Reached cfg s) (e : ℕ) :
    (s.mem.events e).autoReset = cfg.autoReset e := by
  refine h.invariant (I := fun s => (s.mem.events e).autoReset = cfg.autoReset e) rfl
    fun s a s' hr hi _ hs => ?_
  rcases step_cases hs with ⟨c, -, -, -, -, rfl⟩ | ⟨ch, pc, m', pc', mk, -, hpc, haccess, rfl⟩
  · exact hi
  · exact ((haccess.turn ((guarded_of_reached hr).knows _ pc hpc)).autoReset e).trans hi

/-- **No `SetEvent` is lost or counts twice.** Every time a `SetEvent` found the event unset has been
consumed by exactly one wait, if it is an auto-reset event, or taken back by a `ResetEvent`, or the event
is still set. -/
theorem tokens_of_reached (h : Reached cfg s) (e : ℕ) :
    s.hist.count (.set e false) =
      (if cfg.autoReset e then s.hist.countP (Mark.obtains e) else 0) +
        s.hist.count (.reset e true) + (s.mem.events e).state.toNat := by
  have hbalance : TokensBalance s.mem s.hist := by
    refine h.invariant (I := fun s => TokensBalance s.mem s.hist) (fun e => ?_)
      fun s a s' hr hi _ hs => ?_
    · unfold TokenBalance
      split <;> rfl
    · rcases step_cases hs with ⟨c, -, -, -, -, rfl⟩ | ⟨ch, pc, m', pc', mk, -, hpc, haccess, rfl⟩
      · exact hi
      · exact (haccess.turn ((guarded_of_reached hr).knows _ pc hpc)).balance hi
  rw [← autoReset_of_reached h e]
  exact hbalance e

end Step

/-! Two calls of `SetEvent` with no wait between them let one wait through: -/

theorem tokens_of_reached_twice :
    ∃ s : State (Fin 2), Reached (anyCalls 1) s ∧ s.hist.count (.set 0 true) = 1 ∧
      s.hist.countP (Mark.obtains 0) + s.hist.count (.reset 0 true) +
        (s.mem.events 0).state.toNat = 1 := by
  obtain ⟨s, hs, htwice, honce⟩ : ∃ s : State (Fin 2), Reached (anyCalls 1) s ∧
      s.hist.count (.set 0 true) = 1 ∧ s.hist.count (.set 0 false) = 1 :=
    Reach.exists_of_run (calling 0 (.setEvent 0) 4 ++ calling 0 (.setEvent 0) 4 ++
      calling 1 (.waitForEvent 0 infinite) 2) (by decide +kernel)
  exact ⟨s, hs, htwice, (tokens_of_reached hs 0).symm.trans honce⟩

end AtomicMessageQueue.Pevents
