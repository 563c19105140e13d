import AtomicMessageQueue.Lib.TicketRing
import AtomicMessageQueue.Lib.Simulation
import Mathlib.Data.Finset.Card
import Mathlib.Logic.Relation
import Mathlib.Order.Interval.Finset.Nat

/-! # A ticket queue

The object a ring of blocks stands for when its operations do not overlap. Tickets are numbered in
the order of their creation. A ticket is posted with a content, taken with that content once it and
all before it have been posted, and retires once it and all before it have been returned; at most
`capacity` tickets are unretired. The second part is the window of open tickets through which one side
of a ring of flags implements this.
-/

namespace TicketQueue

open Function Simulation

/-- The tickets: how many have been created and taken, the contents of those posted, and those
returned. -/
structure Tickets (κ : Type*) where
  created : ℕ
  posted : ℕ → Option κ
  taken : ℕ
  returned : ℕ → Bool

/-- What a client of the queue sees of a call. -/
inductive Event (κ : Type*)
  /-- a request for a ticket, granted or refused -/
  | create (granted : Bool)
  /-- the holder of ticket `q` changes what it will post -/
  | fill (q : ℕ)
  | post (q : ℕ) (content : κ)
  /-- a request for the next posted ticket, with the content found -/
  | take (content : Option κ)
  | giveBack (q : ℕ)

variable {κ : Type*}

namespace Tickets

/-- No tickets yet. -/
def empty : Tickets κ :=
  { created := 0, posted := fun _ => none, taken := 0, returned := fun _ => false }

/-- Ticket `q` and all before it have been returned. -/
def Retired (t : Tickets κ) (q : ℕ) : Prop := ∀ p, p ≤ q → t.returned p = true

instance (t : Tickets κ) (q : ℕ) : Decidable (t.Retired q) :=
  decidable_of_iff (∀ p, p < q + 1 → t.returned p = true)
    (forall_congr' fun _ => by rw [Nat.lt_succ_iff])

/-- How many tickets have not retired. -/
def unretired (t : Tickets κ) : ℕ := ((Finset.range t.created).filter fun q => ¬ t.Retired q).card

/-- The oldest untaken ticket and all before it have been posted. -/
def Ready (t : Tickets κ) : Prop := ∀ p, p ≤ t.taken → (t.posted p).isSome

/-- The queue's steps. -/
inductive Step (capacity : ℕ) (t : Tickets κ) : Event κ → Tickets κ → Prop
  | granted (h : t.unretired < capacity) :
      Step capacity t (.create true) { t with created := t.created + 1 }
  | refused (h : ¬ t.unretired < capacity) : Step capacity t (.create false) t
  | fill (q : ℕ) (hq : q < t.created) (h : t.posted q = none) : Step capacity t (.fill q) t
  | post (q : ℕ) (content : κ) (hq : q < t.created) (h : t.posted q = none) :
      Step capacity t (.post q content) { t with posted := update t.posted q (some content) }
  | took (content : κ) (h : t.Ready) (hc : t.posted t.taken = some content) :
      Step capacity t (.take (some content)) { t with taken := t.taken + 1 }
  | nothing (h : ¬ t.Ready) : Step capacity t (.take none) t
  | giveBack (q : ℕ) (hq : q < t.taken) (h : t.returned q = false) :
      Step capacity t (.giveBack q) { t with returned := update t.returned q true }

/-- When the returned tickets below `retired` are exactly an initial segment, those unretired are the
ones from there on. -/
theorem unretired_eq {t : Tickets κ} {retired : ℕ} (hlt : ∀ q, q < retired → t.returned q = true)
    (hne : t.returned retired = false) : t.unretired = t.created - retired := by
  have hiff : ∀ q, ¬ t.Retired q ↔ retired ≤ q := by
    intro q
    constructor
    · intro hq
      by_contra hlt'
      exact hq fun p hp => hlt p (by omega)
    · intro hle hret
      rw [hret retired hle] at hne
      cases hne
  have hfilter : ((Finset.range t.created).filter fun q => ¬ t.Retired q) =
      Finset.Ico retired t.created := by
    ext q
    simp only [Finset.mem_filter, Finset.mem_range, hiff, Finset.mem_Ico]
    omega
  rw [unretired, hfilter, Nat.card_Ico]

/-- When the posted tickets below `published` are exactly an initial segment, a ticket is ready if it
lies below. -/
theorem ready_iff {t : Tickets κ} {published : ℕ} (hlt : ∀ q, q < published → (t.posted q).isSome)
    (hne : t.posted published = none) : t.Ready ↔ t.taken < published := by
  constructor
  · intro h
    by_contra hle
    have hsome := h published (by omega)
    rw [hne] at hsome
    cases hsome
  · exact fun h p hp => hlt p (by omega)

end Tickets

end TicketQueue

namespace TicketRing

open Relation

/-- One side of the ring while no helper is at work: from `fin` on the flags show which tickets are
finished. -/
structure Window (N start fin : ℕ) (done flag : ℕ → Prop) : Prop where
  fin_le : fin ≤ start
  lt : start < fin + N
  done_lt : ∀ q, done q → q < start
  done_of_lt : ∀ q, q < fin → done q
  flag_iff : ∀ q, fin ≤ q → q < fin + N → (flag (q % N) ↔ done q)

variable {N start fin : ℕ} {done flag : ℕ → Prop}

namespace Window

theorem grant (h : Window N start fin done flag) (hroom : start + 1 < fin + N) :
    Window N (start + 1) fin done flag where
  fin_le := h.fin_le.trans (Nat.le_succ _)
  lt := hroom
  done_lt q hq := Nat.lt_succ_of_lt (h.done_lt q hq)
  done_of_lt := h.done_of_lt
  flag_iff := h.flag_iff

/-- The holder of an open ticket finishes it and raises its flag. -/
theorem finish (h : Window N start fin done flag) {q : ℕ} (hq : q < start) (hopen : ¬ done q)
    {flag' : ℕ → Prop} (hflag : ∀ i, flag' i ↔ i = q % N ∨ flag i) :
    Window N start fin (fun p => p = q ∨ done p) flag' where
  fin_le := h.fin_le
  lt := h.lt
  done_lt p hp := by
    rcases hp with rfl | hp
    · exact hq
    · exact h.done_lt p hp
  done_of_lt p hp := .inr (h.done_of_lt p hp)
  flag_iff p hp hpN := by
    have hfin : fin ≤ q := by
      by_contra hlt
      exact hopen (h.done_of_lt q (by omega))
    rw [hflag, h.flag_iff p hp hpN]
    refine or_congr ⟨fun hmod => ?_, fun heq => by rw [heq]⟩ Iff.rfl
    exact eq_of_mod_eq hp hpN hfin (hq.trans h.lt) hmod

/-- A flag up at the trailing position stands for a finished ticket. -/
theorem done_of_flag (h : Window N start fin done flag) (hup : flag (fin % N)) : done fin :=
  (h.flag_iff fin le_rfl (by have := h.fin_le; have := h.lt; omega)).mp hup

/-- A finished ticket at the trailing position has its flag up. -/
theorem flag_of_done (h : Window N start fin done flag) (hd : done fin) : flag (fin % N) :=
  (h.flag_iff fin le_rfl (by have := h.fin_le; have := h.lt; omega)).mpr hd

/-- The trailing position passes a finished ticket and takes its flag down. -/
theorem advance (h : Window N start fin done flag) (hup : flag (fin % N))
    {flag' : ℕ → Prop} (hflag : ∀ i, flag' i ↔ i ≠ fin % N ∧ flag i) :
    Window N start (fin + 1) done flag' where
  fin_le := h.done_lt fin (h.done_of_flag hup)
  lt := by have := h.lt; omega
  done_lt := h.done_lt
  done_of_lt q hq := by
    rcases Nat.lt_succ_iff_lt_or_eq.mp hq with hlt | rfl
    · exact h.done_of_lt q hlt
    · exact h.done_of_flag hup
  flag_iff q hq hqN := by
    rw [hflag]
    by_cases hlast : q = fin + N
    · -- the slot just passed is free for the ticket one round later, which is not created yet
      have hnot : ¬ done q := fun hd => absurd (h.done_lt q hd) (by have := h.lt; omega)
      have hslot : q % N = fin % N := by rw [hlast, Nat.add_mod_right]
      exact ⟨fun hf => absurd hslot hf.1, fun hd => absurd hd hnot⟩
    · rw [h.flag_iff q (by omega) (by omega)]
      refine and_iff_right fun hmod => ?_
      have := eq_of_mod_eq (a := fin) (by omega) (by omega) le_rfl (by omega) hmod
      omega

end Window

/-- A loop that passes a finished ticket in each of its rounds comes to the first ticket that is not
finished. -/
theorem rounds_to_open {σ : Type*} {R : σ → σ → Prop} {I : ℕ → σ → Prop}
    (hdone : ∀ q, done q → q < start)
    (hround : ∀ q s, I q s → done q → ∃ s', R s s' ∧ I (q + 1) s') {q : ℕ} {s : σ} (h : I q s) :
    ∃ q' s', q ≤ q' ∧ ReflTransGen R s s' ∧ I q' s' ∧ ¬ done q' := by
  -- on the tickets the loop can still pass
  generalize hn : start - q = n
  induction n generalizing q s with
  | zero =>
      refine ⟨q, s, le_rfl, .refl, h, fun hd => ?_⟩
      have hlt := hdone q hd
      omega
  | succ n ih =>
      by_cases hd : done q
      · obtain ⟨s₁, hfirst, h₁⟩ := hround q s h hd
        obtain ⟨q', s', hle, hrest, h', hopen⟩ := ih h₁ (by omega)
        exact ⟨q', s', Nat.le_of_succ_le hle, .head hfirst hrest, h', hopen⟩
      · exact ⟨q, s, le_rfl, .refl, h, hd⟩

end TicketRing
