import AtomicMessageQueue.Lib.Simulation
import Mathlib.Data.Nat.Basic
import Mathlib.Logic.Function.Basic

/-! # Named objects

Clients open objects by name, make requests on the object they have opened, and leave it. Opening a name
that nothing has makes a new object; taking a name away leaves the object to those that have it open. What
the objects are is left open: a simulation between two kinds of objects is one between the directories of
the two.
-/

namespace NamedObjects

open Function Simulation

variable {π κ α δ ε : Type*}

/-- What a client has open. -/
inductive Handle
  | unopened
  | attached (i : ℕ)
  | detached
deriving DecidableEq, Repr

/-- The objects made so far, those beyond them blank, with the names and the clients. -/
structure Directory (π κ δ : Type*) where
  named : π → Option ℕ
  objects : ℕ → δ
  count : ℕ
  handles : κ → Handle

/-- What clients do. -/
inductive Request (π κ α : Type*)
  | attach (k : κ) (path : π)
  | call (k : κ) (a : α)
  | unlink (path : π)

/-- A kind of objects: what opening one does to it, also to a blank one, what a call does, and after which
calls the client has left. -/
structure Kind (α δ : Type*) where
  blank : δ
  attach : δ → δ → Prop
  step : δ → α → δ → Prop
  leaves : α → Bool

/-- Nothing has been made. -/
def Kind.empty (K : Kind α δ) : Directory π κ δ where
  named := fun _ => none
  objects := fun _ => K.blank
  count := 0
  handles := fun _ => .unopened

/-- The object a name stands for once it has been opened. -/
def Directory.target (s : Directory π κ δ) (path : π) : ℕ := (s.named path).getD s.count

/-! ## Related directories -/

/-- The objects of two directories that have been made are related one by one. -/
structure Related (K : Kind α δ) (L : Kind α ε) (R : δ → ε → Prop) (s : Directory π κ δ)
    (t : Directory π κ ε) : Prop where
  named : s.named = t.named
  count : s.count = t.count
  handles : s.handles = t.handles
  named_lt : ∀ path i, s.named path = some i → i < s.count
  attached_lt : ∀ k i, s.handles k = .attached i → i < s.count
  objects : ∀ i, i < s.count → R (s.objects i) (t.objects i)
  blank : ∀ i, s.count ≤ i → s.objects i = K.blank ∧ t.objects i = L.blank

/-- A simulation between two kinds of objects. -/
structure Mirrors (K : Kind α δ) (L : Kind α ε) (R : δ → ε → Prop) : Prop where
  blank : ∀ d, K.attach K.blank d → ∃ e, L.attach L.blank e ∧ R d e
  attach : ∀ d e d', R d e → K.attach d d' → ∃ e', L.attach e e' ∧ R d' e'
  step : Forward K.step L.step R
  leaves : K.leaves = L.leaves

variable {K : Kind α δ} {L : Kind α ε} {R : δ → ε → Prop} {s : Directory π κ δ}
  {t : Directory π κ ε}

theorem related_empty : Related K L R (K.empty : Directory π κ δ) L.empty where
  named := rfl
  count := rfl
  handles := rfl
  named_lt := nofun
  attached_lt := nofun
  objects := fun _ h => absurd h (Nat.not_lt_zero _)
  blank := fun _ _ => ⟨rfl, rfl⟩

theorem Related.target_eq (h : Related K L R s t) (path : π) : s.target path = t.target path := by
  rw [Directory.target, Directory.target, h.named, h.count]

/-- A name stands for an object that has been made, or the next one. -/
theorem Related.target_cases (h : Related K L R s t) (path : π) :
    s.target path < s.count ∨ s.target path = s.count := by
  unfold Directory.target
  cases hpath : s.named path with
  | none => exact .inr rfl
  | some i => exact .inl (h.named_lt path i hpath)

/-- The directory after a call that has made `d` of the object. -/
def Directory.called [DecidableEq κ] (s : Directory π κ δ) (k : κ) (i : ℕ) (d : δ) (leaves : Bool) :
    Directory π κ δ where
  named := s.named
  objects := update s.objects i d
  count := s.count
  handles := if leaves then update s.handles k .detached else s.handles

/-- A client makes a call on its object. -/
theorem Related.called [DecidableEq κ] (h : Related K L R s t) {k : κ} {i : ℕ} (hk : s.handles k = .attached i)
    {d : δ} {e : ε} (hR : R d e) (leaves : Bool) :
    Related K L R (s.called k i d leaves) (t.called k i e leaves) := by
  have hi := h.attached_lt k i hk
  refine ⟨h.named, h.count, ?_, h.named_lt, fun u j hu => ?_, fun j hj => ?_, fun j hj => ?_⟩
  · simp only [Directory.called, h.handles]
  · cases leaves with
    | false => exact h.attached_lt u j hu
    | true =>
        by_cases huk : u = k
        · subst huk
          simp only [Directory.called, if_true, update_self] at hu
          cases hu
        · simp only [Directory.called, if_true, update_of_ne huk] at hu
          exact h.attached_lt u j hu
  · by_cases hji : j = i
    · subst hji
      simp only [Directory.called, update_self]
      exact hR
    · simp only [Directory.called, update_of_ne hji]
      exact h.objects j hj
  · have hne : j ≠ i := by
      rintro rfl
      exact absurd hi (not_lt.mpr hj)
    simp only [Directory.called, update_of_ne hne]
    exact h.blank j hj

/-- A name is taken away. -/
theorem Related.unlinked [DecidableEq π] (h : Related K L R s t) (path : π) :
    Related K L R { s with named := update s.named path none }
      { t with named := update t.named path none } where
  named := by simp only [h.named]
  count := h.count
  handles := h.handles
  named_lt := by
    intro p i hp
    by_cases hpath : p = path
    · subst hpath
      simp only [update_self] at hp
      cases hp
    · simp only [update_of_ne hpath] at hp
      exact h.named_lt p i hp
  attached_lt := h.attached_lt
  objects := h.objects
  blank := h.blank

/-! ## Steps -/

section Steps

variable [DecidableEq π] [DecidableEq κ]

/-- The directory after a client has opened a name, and its object has become `d`. -/
def Directory.opened (s : Directory π κ δ) (k : κ) (path : π) (d : δ) : Directory π κ δ where
  named := update s.named path (some (s.target path))
  objects := update s.objects (s.target path) d
  count := max s.count (s.target path + 1)
  handles := update s.handles k (.attached (s.target path))

/-- The steps of a directory. -/
def Kind.Step (K : Kind α δ) (s : Directory π κ δ) : Request π κ α → Directory π κ δ → Prop
  | .attach k path, s' => s.handles k = .unopened ∧
      ∃ d, K.attach (s.objects (s.target path)) d ∧ s' = s.opened k path d
  | .call k a, s' => ∃ i d, s.handles k = .attached i ∧ K.step (s.objects i) a d ∧
      s' = s.called k i d (K.leaves a)
  | .unlink path, s' => s' = { s with named := update s.named path none }

/-- A client opens a name. -/
theorem Related.opened (h : Related K L R s t) (k : κ) (path : π) {d : δ} {e : ε} (hR : R d e) :
    Related K L R (s.opened k path d) (t.opened k path e) := by
  have htarget := h.target_eq path
  have hmax : s.target path < max s.count (s.target path + 1) := by omega
  refine ⟨?_, ?_, ?_, fun p i hp => ?_, fun u i hu => ?_, fun i hi => ?_, fun i hi => ?_⟩
  · simp only [Directory.opened, h.named, htarget]
  · simp only [Directory.opened, h.count, htarget]
  · simp only [Directory.opened, h.handles, htarget]
  · by_cases hpath : p = path
    · subst hpath
      simp only [Directory.opened, update_self] at hp ⊢
      cases hp
      exact hmax
    · simp only [Directory.opened, update_of_ne hpath] at hp ⊢
      exact (h.named_lt p i hp).trans_le (le_max_left _ _)
  · by_cases huk : u = k
    · subst huk
      simp only [Directory.opened, update_self] at hu ⊢
      cases hu
      exact hmax
    · simp only [Directory.opened, update_of_ne huk] at hu ⊢
      exact (h.attached_lt u i hu).trans_le (le_max_left _ _)
  · simp only [Directory.opened, ← htarget] at hi ⊢
    by_cases htgt : i = s.target path
    · subst htgt
      simp only [update_self]
      exact hR
    · simp only [update_of_ne htgt]
      rcases h.target_cases path with hlt | heq
      · exact h.objects i (by omega)
      · exact h.objects i (by omega)
  · simp only [Directory.opened, ← htarget] at hi ⊢
    have hne : i ≠ s.target path := by omega
    simp only [update_of_ne hne]
    exact h.blank i (by omega)

/-- **Directories.** A simulation between two kinds of objects is one between their directories. -/
theorem Mirrors.forward (h : Mirrors K L R) :
    Forward (K.Step : Directory π κ δ → Request π κ α → Directory π κ δ → Prop) L.Step
      (Related K L R) := by
  rintro s t (⟨k, path⟩ | ⟨k, a⟩ | path) s' hrel hstep
  · obtain ⟨hk, d, hattach, rfl⟩ := hstep
    obtain ⟨e, hattach', hR⟩ : ∃ e, L.attach (t.objects (t.target path)) e ∧ R d e := by
      rcases hrel.target_cases path with hlt | heq
      · rw [← hrel.target_eq path]
        exact h.attach _ _ _ (hrel.objects _ hlt) hattach
      · obtain ⟨hblank, hblank'⟩ := hrel.blank _ heq.ge
        rw [hblank] at hattach
        rw [← hrel.target_eq path, hblank']
        exact h.blank d hattach
    exact ⟨_, ⟨hrel.handles ▸ hk, e, hattach', rfl⟩, hrel.opened k path hR⟩
  · obtain ⟨i, d, hk, hcall, rfl⟩ := hstep
    obtain ⟨e, hcall', hR⟩ := h.step _ _ _ _ (hrel.objects i (hrel.attached_lt k i hk)) hcall
    exact ⟨_, ⟨i, e, hrel.handles ▸ hk, hcall', rfl⟩, h.leaves ▸ hrel.called hk hR _⟩
  · obtain rfl : s' = _ := hstep
    exact ⟨_, rfl, hrel.unlinked path⟩

/-- Where each kind of objects simulates the other, the two directories show the same requests. -/
theorem Mirrors.trace_iff (h : Mirrors K L R) (h' : Mirrors L K fun e d => R d e)
    (requests : List (Request π κ α)) :
    (∃ s, Trace K.Step K.empty requests s) ↔ ∃ t, Trace L.Step L.empty requests t := by
  constructor
  · rintro ⟨s, hs⟩
    obtain ⟨t, ht, -⟩ := hs.simulate h.forward related_empty
    exact ⟨t, ht⟩
  · rintro ⟨t, ht⟩
    obtain ⟨s, hs, -⟩ := ht.simulate h'.forward related_empty
    exact ⟨s, hs⟩

end Steps

end NamedObjects
