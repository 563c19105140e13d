import Mathlib.Logic.Function.Basic
import Mathlib.Order.Basic

/-! # Mutexes and their holders

A family of mutexes, as the map from each to the thread that holds it, beside the list of those each
thread holds by its program point, the latest first. `Agree` says that the two are the same. A step takes
one free mutex, gives up the one taken last, or leaves them alone (`Change`), and keeps that agreement.
The last section is the argument from an order: threads that wait only for mutexes above all they hold do
not wait for one another in a circle.
-/

namespace Mutexes

open Function

variable {ι κ : Type*}

/-- The mutexes are held by those whose program point says so. -/
def Agree (mutex : κ → Option ι) (held : ι → List κ) : Prop :=
  ∀ k t, mutex k = some t ↔ k ∈ held t

/-- No thread holds anything. -/
theorem agree_free : Agree (fun _ : κ => (none : Option ι)) fun _ => [] :=
  fun _ t => ⟨fun hk => absurd hk.symm (Option.some_ne_none t), fun hk => absurd hk List.not_mem_nil⟩

/-- Two holders of one mutex are the same thread. -/
theorem Agree.unique {mutex : κ → Option ι} {held : ι → List κ} (h : Agree mutex held) {k : κ}
    {t u : ι} (ht : k ∈ held t) (hu : k ∈ held u) : t = u :=
  Option.some.inj (((h k t).mpr ht).symm.trans ((h k u).mpr hu))

/-- What a step of thread `t` does to the mutexes, and to those it holds. -/
inductive Change [DecidableEq κ] (t : ι) (mutex : κ → Option ι) (held : List κ)
    (mutex' : κ → Option ι) (held' : List κ) : Prop
  | keep (hm : mutex' = mutex) (hh : held' = held)
  | acquire (k : κ) (free : mutex k = none) (hm : mutex' = update mutex k (some t))
      (hh : held' = k :: held)
  | release (k : κ) (hm : mutex' = update mutex k none) (hh : held = k :: held')
      (once : k ∉ held')

section Step

variable [DecidableEq ι] [DecidableEq κ] {mutex mutex' : κ → Option ι} {held : ι → List κ} {t : ι}
  {held' : List κ}

/-- **Step lemma.** A thread that takes a free mutex or gives up its own keeps the agreement. -/
theorem Agree.change (h : Agree mutex held) (hc : Change t mutex (held t) mutex' held') :
    Agree mutex' (update held t held') := by
  intro j u
  have hothers : u ≠ t → (j ∈ update held t held' u ↔ mutex j = some u) := fun hut => by
    rw [update_of_ne hut, h j u]
  cases hc with
  | keep hm hh =>
      subst hm hh
      rw [update_eq_self, h j u]
  | acquire k free hm hh =>
      subst hm hh
      by_cases hut : u = t
      · subst hut
        rw [update_self, List.mem_cons, ← h j u]
        by_cases hjk : j = k
        · subst hjk
          simp
        · rw [update_of_ne hjk]
          simp [hjk]
      · rw [hothers hut]
        by_cases hjk : j = k
        · subst hjk
          simp [free, Ne.symm hut]
        · rw [update_of_ne hjk]
  | release k hm hh once =>
      subst hm
      by_cases hut : u = t
      · subst hut
        rw [update_self]
        by_cases hjk : j = k
        · subst hjk
          simp [once]
        · rw [update_of_ne hjk, h j u, hh]
          simp [hjk]
      · rw [hothers hut]
        by_cases hjk : j = k
        · subst hjk
          have hmine : mutex j = some t := (h j t).mpr (by rw [hh]; exact List.mem_cons_self)
          simp [hmine, Ne.symm hut]
        · rw [update_of_ne hjk]

omit [DecidableEq ι] in
/-- A mutex that is free after the step and was not held by its thread was free before. -/
theorem Change.free {held : List κ} (hc : Change t mutex held mutex' held') {j : κ} (hj : j ∉ held)
    (hfree : mutex' j = none) : mutex j = none := by
  cases hc with
  | keep hm hh => rwa [hm] at hfree
  | acquire k free hm hh =>
      rw [hm] at hfree
      by_cases hjk : j = k
      · rwa [hjk]
      · rwa [update_of_ne hjk] at hfree
  | release k hm hh once =>
      have hjk : j ≠ k := by
        rintro rfl
        exact hj (by rw [hh]; exact List.mem_cons_self)
      rwa [hm, update_of_ne hjk] at hfree

end Step

/-! ## No circular wait -/

/-- **Somebody can go on.** If every thread that waits for a mutex waits for one above all those it holds,
then among the threads that wait or hold, one waits for a free mutex, or holds one and waits for none. -/
theorem Agree.exists_unblocked {mutex : κ → Option ι} {held : ι → List κ} (h : Agree mutex held)
    (wants : ι → κ → Prop) (rank : κ → ℕ) (top : ℕ) (htop : ∀ t k, wants t k → rank k ≤ top)
    (hrank : ∀ t k k', k ∈ held t → wants t k' → rank k < rank k') {t : ι} {k : κ}
    (hk : wants t k) :
    ∃ u, (∃ j, wants u j ∧ mutex j = none) ∨ held u ≠ [] ∧ ∀ j, ¬ wants u j := by
  induction hn : top - rank k using Nat.strongRecOn generalizing t k with
  | _ n ih =>
    cases hmutex : mutex k with
    | none => exact ⟨t, .inl ⟨k, hk, hmutex⟩⟩
    | some u =>
        have hheld : k ∈ held u := (h k u).mp hmutex
        by_cases hwaits : ∃ j, wants u j
        · obtain ⟨j, hj⟩ := hwaits
          have hlt := hrank u k j hheld hj
          have hle := htop u j hj
          exact ih (top - rank j) (by omega) hj rfl
        · exact ⟨u, .inr ⟨List.ne_nil_of_mem hheld, fun j hj => hwaits ⟨j, hj⟩⟩⟩

end Mutexes
