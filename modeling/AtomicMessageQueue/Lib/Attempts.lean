import AtomicMessageQueue.Lib.Tally

/-! # Racing for a cell

Threads load a cell, think, and then try to move the cell on; that works if it still has the value they
loaded. `Race` counts how often the cell has moved, in all and since the load of each thread. An
attempt is lost only if another thread has moved the cell since the load, so that no thread loses more
attempts than the others win.
-/

namespace Attempts

open Function

variable {ι β : Type*}

/-- What a thread does about the cell. -/
inductive Attempt
  | idle
  | load
  | win
  | lose
deriving DecidableEq

/-- How many attempts it is. -/
def Attempt.tries : Attempt → ℕ
  | .win => 1
  | .lose => 1
  | _ => 0

/-- The moves of the cell, those since the last load of each thread, and the attempts each thread has
won and lost. -/
structure Race (ι : Type*) where
  moves : ℕ
  since : ι → ℕ
  won : ι → ℕ
  lost : ι → ℕ

/-- Nobody has done anything. -/
def Race.start : Race ι where
  moves := 0
  since := fun _ => 0
  won := fun _ => 0
  lost := fun _ => 0

section Apply

variable [DecidableEq ι]

/-- The race after a thread's attempt. Its own move does not count as one since its load. -/
def Race.apply (r : Race ι) (t : ι) : Attempt → Race ι
  | .idle => r
  | .load => { r with since := update r.since t 0 }
  | .win =>
      { r with moves := r.moves + 1, since := update (fun u => r.since u + 1) t 0,
               won := update r.won t (r.won t + 1) }
  | .lose => { r with since := update r.since t 0, lost := update r.lost t (r.lost t + 1) }

@[simp] theorem Race.moves_win (r : Race ι) (t : ι) : (r.apply t .win).moves = r.moves + 1 := rfl

theorem Race.tried_apply (r : Race ι) (t u : ι) (a : Attempt) :
    (r.apply t a).won u + (r.apply t a).lost u =
      r.won u + r.lost u + if u = t then a.tries else 0 := by
  by_cases hut : u = t
  · subst hut
    cases a <;> simp only [Race.apply, update_self, if_true, Attempt.tries] <;> omega
  · cases a <;> simp only [Race.apply, update_of_ne hut, if_neg hut, Nat.add_zero]

/-- A thread's attempt is a move since the load of every other thread if it succeeds. -/
theorem Race.since_of_ne (r : Race ι) {t u : ι} (h : u ≠ t) (a : Attempt) :
    (r.apply t a).since u = r.since u + if a = .win then 1 else 0 := by
  cases a with
  | win => simp only [Race.apply, update_of_ne h, if_true]
  | idle => rfl
  | _ => simp only [Race.apply, update_of_ne h]; rfl

theorem Race.moves_of_ne_win (r : Race ι) (t : ι) {a : Attempt} (h : a ≠ .win) :
    (r.apply t a).moves = r.moves := by
  cases a with
  | win => exact absurd rfl h
  | _ => rfl

end Apply

/-- Each attempt a thread has lost, and each move since its load, is a move of some other thread. -/
def Race.Paid (r : Race ι) : Prop :=
  ∀ t, r.won t + r.lost t + r.since t ≤ r.moves

/-- The threads that have loaded the cell and not yet tried to move it have seen the value it had before
the moves since. -/
def Race.Sees (r : Race ι) (value : ℕ → β) (seen : ι → Option β) : Prop :=
  ∀ t v, seen t = some v → v = value (r.moves - r.since t)

theorem Race.start_paid : (Race.start : Race ι).Paid := fun _ => le_rfl

/-- The moves of the cell are the attempts won by the threads. -/
def Race.Counted [Fintype ι] (r : Race ι) : Prop := ∑ t, r.won t = r.moves

theorem Race.start_counted [Fintype ι] : (Race.start : Race ι).Counted :=
  Finset.sum_const_zero

section Step

variable {r : Race ι} {t : ι} {a : Attempt} {value : ℕ → β} {seen seen' : ι → Option β}

theorem Race.Paid.since_le (h : r.Paid) (t : ι) : r.since t ≤ r.moves := by
  have := h t
  omega

/-- A thread that no longer sees the value of the cell has been overtaken since its load. -/
theorem Race.Sees.since_pos (h : r.Sees value seen) {v : β} (hseen : seen t = some v)
    (hne : v ≠ value r.moves) : 0 < r.since t := by
  rcases Nat.eq_zero_or_pos (r.since t) with hzero | hpos
  · refine absurd (h t v hseen) ?_
    rw [hzero, Nat.sub_zero]
    exact hne
  · exact hpos

/-- **Wrapping round.** A thread that sees a value of a cell of period `N` which the cell has now may have
been overtaken by whole rounds only. -/
theorem Race.Sees.dvd_since {N v : ℕ} {seen : ι → Option ℕ} (h : r.Sees (· % N) seen) (hpaid : r.Paid)
    (hseen : seen t = some v) (hv : v = r.moves % N) : N ∣ r.since t := by
  have hmod : r.moves % N = (r.moves - r.since t) % N := hv.symm.trans (h t v hseen)
  have hle := hpaid.since_le t
  have hdvd : N ∣ r.moves - (r.moves - r.since t) :=
    Nat.dvd_of_mod_eq_zero (Nat.sub_mod_eq_zero_of_mod_eq hmod)
  rwa [Nat.sub_sub_self hle] at hdvd

variable [DecidableEq ι]

theorem Race.Counted.apply [Fintype ι] (h : r.Counted) : (r.apply t a).Counted := by
  cases a with
  | win =>
      have hsum := Tally.sum_update_add Finset.univ r.won (Finset.mem_univ t) (r.won t + 1)
      unfold Race.Counted at h ⊢
      simp only [Race.apply]
      omega
  | _ => exact h

/-- **Who pays.** A thread loses no more attempts than the others win. -/
theorem Race.Paid.lost_le [Fintype ι] (h : r.Paid) (hcount : r.Counted) (t : ι) :
    r.lost t ≤ ∑ u ∈ Finset.univ.erase t, r.won u := by
  have ht := h t
  have hsum := Finset.add_sum_erase Finset.univ r.won (Finset.mem_univ t)
  unfold Race.Counted at hcount
  omega

/-- **Step lemma of the moves.** -/
theorem Race.Paid.apply (h : r.Paid) (hlose : a = .lose → 0 < r.since t) : (r.apply t a).Paid := by
  intro u
  have hu := h u
  cases a with
  | idle => exact hu
  | load =>
      by_cases hut : u = t
      · subst hut
        simp only [Race.apply, update_self]
        omega
      · simpa only [Race.apply, update_of_ne hut] using hu
  | win =>
      by_cases hut : u = t
      · subst hut
        simp only [Race.apply, update_self]
        omega
      · simp only [Race.apply, update_of_ne hut]
        omega
  | lose =>
      have hpos := hlose rfl
      by_cases hut : u = t
      · subst hut
        simp only [Race.apply, update_self]
        omega
      · simpa only [Race.apply, update_of_ne hut] using hu

/-- **Step lemma of the values seen.** After a load the thread sees what the cell holds, after an attempt
nothing, and otherwise what it saw before or nothing. -/
theorem Race.Sees.apply (h : r.Sees value seen) (hothers : ∀ u, u ≠ t → seen' u = seen u)
    (hload : a = .load → seen' t = some (value r.moves))
    (htried : a = .win ∨ a = .lose → seen' t = none)
    (hidle : a = .idle → seen' t = none ∨ seen' t = seen t) :
    (r.apply t a).Sees value seen' := by
  intro u v hv
  by_cases hut : u = t
  · subst hut
    cases a with
    | idle =>
        rcases hidle rfl with hnone | hsame
        · cases hnone.symm.trans hv
        · exact h u v (hsame.symm.trans hv)
    | load =>
        simp only [Race.apply, update_self, Nat.sub_zero]
        exact Option.some.inj (hv.symm.trans (hload rfl))
    | win => cases (htried (.inl rfl)).symm.trans hv
    | lose => cases (htried (.inr rfl)).symm.trans hv
  · have hold := h u v ((hothers u hut).symm.trans hv)
    cases a with
    | idle => exact hold
    | load => simpa only [Race.apply, update_of_ne hut] using hold
    | win => simpa only [Race.apply, update_of_ne hut, Nat.add_sub_add_right] using hold
    | lose => simpa only [Race.apply, update_of_ne hut] using hold

end Step

end Attempts
