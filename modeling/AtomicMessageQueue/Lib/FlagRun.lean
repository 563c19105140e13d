import AtomicMessageQueue.Lib.TicketRing
import Mathlib.Logic.Relation
import Mathlib.Order.Nat

/-! # Loops along a run of raised flags

A ring of `N` flags and a cursor. A loop without a counter looks at the flag under the cursor; while it
finds that flag up, it takes it down and moves the cursor on by one. `FlagLoop.sweep` says that such a
loop stops from every state, and after how many rounds: the cursor comes back to its first slot only
after `N` rounds, and no slot is met twice before.
-/

namespace FlagRun

open Function Relation TicketRing

variable {N c j k i : ℕ} {up : ℕ → Prop}

/-! ## The slots passed -/

/-- The cursor passes slot `i` on its way from `c` over `k` slots. -/
def Passed (N c k i : ℕ) : Prop := ∃ j < k, i = (c + j) % N

instance : Decidable (Passed N c k i) := inferInstanceAs (Decidable (∃ j < k, i = (c + j) % N))

theorem not_passed_zero : ¬ Passed N c 0 i := by
  rintro ⟨j, hj, -⟩
  exact absurd hj (Nat.not_lt_zero j)

/-- One slot further, exactly the slot under the cursor is added. -/
theorem passed_succ : Passed N c (k + 1) i ↔ Passed N c k i ∨ i = (c + k) % N :=
  Nat.exists_lt_succ_right

/-- In its first turn round the ring the cursor stands at a slot it has not passed yet. -/
theorem not_passed_cursor (hk : k < N) : ¬ Passed N c k ((c + k) % N) := by
  rintro ⟨j, hj, hmod⟩
  have heq : c + k = c + j :=
    eq_of_mod_eq (a := c) (Nat.le_add_right c k) (by omega) (Nat.le_add_right c j) (by omega) hmod
  omega

/-- After a full turn the cursor stands at the first slot it has passed. -/
theorem passed_full (hN : 0 < N) : Passed N c N ((c + N) % N) :=
  ⟨0, hN, by rw [Nat.add_mod_right, Nat.add_zero]⟩

/-- The value `a` at slot `i` when the cursor, on its way from `c` over `k` slots, has changed the values
of the slots it passed by `f`. -/
def visited {α : Type*} (f : α → α) (N c k i : ℕ) (a : α) : α := if Passed N c k i then f a else a

theorem visited_zero {α : Type*} (f : α → α) (a : α) : visited f N c 0 i a = a :=
  if_neg not_passed_zero

/-- What `f` leaves alone is left alone. -/
theorem get_visited {α β : Type*} {f : α → α} (get : α → β) (hf : ∀ a, get (f a) = get a) (a : α) :
    get (visited f N c k i a) = get a := by
  unfold visited
  split
  · exact hf a
  · rfl

/-- In its first turn round the ring the cursor changes no value twice. -/
theorem visited_succ {α : Type*} (f : α → α) (a : α) (hk : k < N) :
    visited f N c (k + 1) i a =
      if i = (c + k) % N then f (visited f N c k i a) else visited f N c k i a := by
  unfold visited
  by_cases hi : i = (c + k) % N
  · rw [if_pos hi, if_pos (passed_succ.mpr (.inr hi)), if_neg (hi ▸ not_passed_cursor hk)]
  · simp only [passed_succ, hi, or_false, if_false]

/-! ## The length of the run -/

/-- `k` is the number of slots from `c` on before the first flag that is down, `N` if none is down. -/
def IsRun (N : ℕ) (up : ℕ → Prop) (c k : ℕ) : Prop :=
  IsLeast {k | N ≤ k ∨ ¬ up ((c + k) % N)} k

theorem exists_isRun (N : ℕ) (up : ℕ → Prop) (c : ℕ) : ∃ k, IsRun N up c k := by
  classical
  exact ⟨_, Nat.isLeast_find ⟨N, .inl le_rfl⟩⟩

theorem IsRun.le (h : IsRun N up c k) : k ≤ N := h.2 (.inl le_rfl)

/-- The flags of the run are up. -/
theorem IsRun.raised (h : IsRun N up c k) (hj : j < k) : up ((c + j) % N) := by
  by_contra hdown
  exact absurd (h.2 (.inr hdown)) (Nat.not_le_of_lt hj)

/-- A run is recognised by its flags and its end. -/
theorem isRun_of_flags (hk : k ≤ N) (hup : ∀ j < k, up ((c + j) % N))
    (hstop : N ≤ k ∨ ¬ up ((c + k) % N)) : IsRun N up c k := by
  refine ⟨hstop, ?_⟩
  rintro j (hj | hdown)
  · exact hk.trans hj
  · exact Nat.le_of_not_lt fun hlt => hdown (hup j hlt)

/-- The run ends at a flag that is down or has been passed. -/
theorem IsRun.stop (hN : 0 < N) (h : IsRun N up c k) :
    ¬ up ((c + k) % N) ∨ Passed N c k ((c + k) % N) := by
  rcases h.1 with hge | hdown
  · obtain rfl : k = N := le_antisymm h.le hge
    exact .inr (passed_full hN)
  · exact .inl hdown

/-! ## The loop -/

/-- A loop over a ring of `N` flags, in the states that are `Ok`: its cursor, its flags and one round of
it, which takes down the flag under the cursor and moves the cursor on. -/
structure FlagLoop (N : ℕ) (σ : Type*) where
  Ok : σ → Prop
  pos : σ → ℕ
  up : σ → ℕ → Prop
  round : σ → σ
  pos_lt : ∀ s, Ok s → pos s < N
  ok_round : ∀ s, Ok s → Ok (round s)
  pos_round : ∀ s, Ok s → pos (round s) = (pos s + 1) % N
  up_round : ∀ s, Ok s → ∀ i, up (round s) i ↔ up s i ∧ i ≠ pos s

namespace FlagLoop

variable {σ : Type*} (L : FlagLoop N σ) {s : σ}

/-- The loop goes one round. -/
def Round (s s' : σ) : Prop := L.up s (L.pos s) ∧ s' = L.round s

theorem ok_iterate (hs : L.Ok s) (j : ℕ) : L.Ok (L.round^[j] s) := by
  induction j with
  | zero => exact hs
  | succ j ih =>
      rw [iterate_succ_apply']
      exact L.ok_round _ ih

theorem pos_iterate (hs : L.Ok s) (j : ℕ) : L.pos (L.round^[j] s) = (L.pos s + j) % N := by
  induction j with
  | zero => exact (Nat.mod_eq_of_lt (L.pos_lt s hs)).symm
  | succ j ih =>
      rw [iterate_succ_apply', L.pos_round _ (L.ok_iterate hs j), ih, succ_mod, Nat.add_assoc]

/-- `j` rounds take down the flags they pass. -/
theorem up_iterate (hs : L.Ok s) (j i : ℕ) :
    L.up (L.round^[j] s) i ↔ L.up s i ∧ ¬ Passed N (L.pos s) j i := by
  induction j with
  | zero => exact ⟨fun hup => ⟨hup, not_passed_zero⟩, And.left⟩
  | succ j ih =>
      rw [iterate_succ_apply', L.up_round _ (L.ok_iterate hs j), ih, L.pos_iterate hs, passed_succ,
        not_or, and_assoc]

/-- `j` rounds are made if the `j` flags from the cursor on are up: none of them is met twice. -/
theorem rounds (hs : L.Ok s) (hj : j ≤ N) (hup : ∀ i < j, L.up s ((L.pos s + i) % N)) :
    ReflTransGen L.Round s (L.round^[j] s) := by
  induction j with
  | zero => exact .refl
  | succ j ih =>
      have hpath := ih (Nat.le_of_succ_le hj) fun i hi => hup i (Nat.lt_succ_of_lt hi)
      have hnext : L.up (L.round^[j] s) (L.pos (L.round^[j] s)) := by
        rw [L.up_iterate hs, L.pos_iterate hs]
        exact ⟨hup j (Nat.lt_succ_self j), not_passed_cursor hj⟩
      rw [iterate_succ_apply']
      exact hpath.tail ⟨hnext, rfl⟩

/-- **The loop stops** after as many rounds as there are raised flags from its cursor on. -/
theorem sweep (hs : L.Ok s) (hk : IsRun N (L.up s) (L.pos s) k) :
    ReflTransGen L.Round s (L.round^[k] s) ∧
      ¬ L.up (L.round^[k] s) (L.pos (L.round^[k] s)) := by
  refine ⟨L.rounds hs hk.le fun i hi => hk.raised hi, ?_⟩
  rw [L.up_iterate hs, L.pos_iterate hs, not_and_not_right]
  intro hup
  rcases hk.stop (Nat.zero_lt_of_lt (L.pos_lt s hs)) with hdown | hpassed
  · exact absurd hup hdown
  · exact hpassed

end FlagLoop

end FlagRun
