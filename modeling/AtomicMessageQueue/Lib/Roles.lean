import Mathlib.Logic.Basic

/-! # Roles that one thread at a time plays

A role is what a thread's program point says it is to do with some object, and `Sole` says that exactly
the objects that are `taken` have a thread in that role, and only one. A step puts its thread into the
role for an object that is not taken, lets it out again, or changes neither.
-/

namespace Roles

variable {ι κ : Type*}

/-- The objects that are taken are those for which some thread is in the role, and it is one thread. -/
structure Sole (role : ι → Option κ) (taken : κ → Prop) : Prop where
  taken_iff : ∀ k, taken k ↔ ∃ t, role t = some k
  unique : ∀ t u k, role t = some k → role u = some k → t = u

/-- Nobody is in the role. -/
theorem sole_none {taken : κ → Prop} (h : ∀ k, ¬ taken k) : Sole (fun _ : ι => none) taken where
  taken_iff k := ⟨fun hk => absurd hk (h k), fun ⟨_, ht⟩ => absurd ht.symm (Option.some_ne_none k)⟩
  unique _ _ k ht := absurd ht.symm (Option.some_ne_none k)

section Step

variable {role role' : ι → Option κ} {taken taken' : κ → Prop} {t : ι} {k : κ}

theorem Sole.keep (h : Sole role taken) (hrole : ∀ u, role' u = role u)
    (htaken : ∀ j, taken' j ↔ taken j) : Sole role' taken' where
  taken_iff j := by
    rw [htaken, h.taken_iff]
    simp only [hrole]
  unique u v j hu hv := h.unique u v j (by rwa [← hrole]) (by rwa [← hrole])

variable [DecidableEq ι]

/-- A thread enters the role for an object that is not taken. -/
theorem Sole.take (h : Sole role taken) (hout : role t = none) (hfree : ¬ taken k)
    (hrole : ∀ u, role' u = if u = t then some k else role u)
    (htaken : ∀ j, taken' j ↔ j = k ∨ taken j) : Sole role' taken' where
  taken_iff j := by
    rw [htaken, h.taken_iff]
    simp only [hrole]
    constructor
    · rintro (rfl | ⟨u, hu⟩)
      · exact ⟨t, if_pos rfl⟩
      · have hut : u ≠ t := by
          rintro rfl
          exact absurd (hu.symm.trans hout) (Option.some_ne_none j)
        exact ⟨u, by rwa [if_neg hut]⟩
    · rintro ⟨u, hu⟩
      split at hu
      next => exact .inl (Option.some.inj hu).symm
      next => exact .inr ⟨u, hu⟩
  unique u v j hu hv := by
    have hnobody : ∀ w, role w ≠ some k := fun w hw => hfree ((h.taken_iff k).mpr ⟨w, hw⟩)
    rw [hrole] at hu hv
    split at hu <;> split at hv
    next hut hvt => exact hut.trans hvt.symm
    next => exact absurd (hv.trans hu.symm) (hnobody v)
    next => exact absurd (hu.trans hv.symm) (hnobody u)
    next => exact h.unique u v j hu hv

/-- A thread leaves the role. -/
theorem Sole.drop (h : Sole role taken) (hin : role t = some k)
    (hrole : ∀ u, role' u = if u = t then none else role u)
    (htaken : ∀ j, taken' j ↔ j ≠ k ∧ taken j) : Sole role' taken' where
  taken_iff j := by
    rw [htaken, h.taken_iff]
    simp only [hrole]
    constructor
    · rintro ⟨hjk, u, hu⟩
      have hut : u ≠ t := by
        rintro rfl
        exact hjk (Option.some.inj (hu.symm.trans hin))
      exact ⟨u, by rwa [if_neg hut]⟩
    · rintro ⟨u, hu⟩
      split at hu
      next => exact absurd hu.symm (Option.some_ne_none j)
      next hut =>
        refine ⟨?_, u, hu⟩
        rintro rfl
        exact hut (h.unique u t j hu hin)
  unique u v j hu hv := by
    rw [hrole] at hu hv
    split at hu
    next => exact absurd hu.symm (Option.some_ne_none j)
    next =>
      split at hv
      next => exact absurd hv.symm (Option.some_ne_none j)
      next => exact h.unique u v j hu hv

end Step

end Roles
