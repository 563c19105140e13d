import Mathlib.Data.Nat.ModEq
import Mathlib.Data.List.Nodup
import Mathlib.Logic.Function.Basic
import Mathlib.Tactic.ByContra

/-! # Tickets around a ring, retired by helpers

One side of a ring buffer of `N` slots, told in unbounded ticket numbers. A holder is granted the
ticket `start` together with slot `start % N`; it finishes by raising the slot's flag. The trailing
position `fin` is moved by helpers: a helper looks at `fin`, takes the flag of the slot it saw, and
then tries to move `fin` past that slot. `Inv` is the safety invariant of this protocol for any
number of helpers at stale slots, as long as fewer than `N` tickets are open; `Progress` adds that a
finished ticket never waits unattended, as long as no move misses.
-/

namespace TicketRing

open Function

/-- Two numbers in one window of length `N` with the same remainder are equal. -/
theorem eq_of_mod_eq {N a p q : ℕ} (hap : a ≤ p) (hpN : p < a + N) (haq : a ≤ q) (hqN : q < a + N)
    (h : p % N = q % N) : p = q := by
  have hpq : p ≡ q [MOD N] := h
  rcases Nat.le_total p q with hle | hle
  · have hdvd : N ∣ q - p := (Nat.modEq_iff_dvd' hle).mp hpq
    have hzero : q - p = 0 := Nat.eq_zero_of_dvd_of_lt hdvd (by omega)
    omega
  · have hdvd : N ∣ p - q := (Nat.modEq_iff_dvd' hle).mp hpq.symm
    have hzero : p - q = 0 := Nat.eq_zero_of_dvd_of_lt hdvd (by omega)
    omega

/-- The slot after `p % N` is the slot of `p + 1`. -/
theorem succ_mod (N p : ℕ) : (p % N + 1) % N = (p + 1) % N := by
  rw [Nat.mod_add_mod]

/-- The slot before `(p + 1) % N` is the slot of `p`. -/
theorem pred_mod {N : ℕ} (hN : 0 < N) (p : ℕ) : ((p + 1) % N + N - 1) % N = p % N := by
  rw [Nat.add_sub_assoc hN, Nat.mod_add_mod, show p + 1 + (N - 1) = p + N by omega,
    Nat.add_mod_right]

/-- The slot before `p` is `w` exactly when the slot after `w` is `p`. -/
theorem pred_eq_iff {N p w : ℕ} (hp : p < N) (hw : w < N) :
    (p + N - 1) % N = w ↔ (w + 1) % N = p := by
  have hN : 0 < N := Nat.zero_lt_of_lt hp
  constructor
  · rintro rfl
    rw [succ_mod, Nat.sub_add_cancel (by omega), Nat.add_mod_right, Nat.mod_eq_of_lt hp]
  · rintro rfl
    rw [pred_mod hN, Nat.mod_eq_of_lt hw]

/-- Where a helper is in its attempt to move the trailing position. -/
inductive Helper
  | out
  | look
  | take (slot : ℕ)
  | move (slot : ℕ)

/-- One side of the ring: the positions, the latest ticket of each slot, the finished tickets, the
raised flags, and for each thread the slots it holds and its place as a helper. -/
@[ext]
structure Side (ι : Type*) where
  start : ℕ
  fin : ℕ
  ticket : ℕ → ℕ
  done : ℕ → Prop
  flag : ℕ → Prop
  held : ι → List ℕ
  helper : ι → Helper

/-- What a step of a thread does to one side of the ring. -/
inductive Act
  | idle
  | grant (slot : ℕ)
  | finish (slot : ℕ)
  | look
  | take (slot : ℕ)
  | leave (slot : ℕ)
  | move (slot : ℕ)
  | miss (slot : ℕ)
deriving DecidableEq

/-- The slot an act grants. -/
def Act.granted : Act → Option ℕ
  | .grant slot => some slot
  | _ => none

theorem Act.mem_granted {a : Act} {i : ℕ} : i ∈ a.granted ↔ a = .grant i := by
  cases a <;> simp [Act.granted, Option.mem_def]

/-- A condition on the slot an act grants is decided by looking at the act. -/
instance Act.decidableForallGrant (a : Act) (p : ℕ → Prop) [DecidablePred p] :
    Decidable (∀ i, a = .grant i → p i) :=
  decidable_of_iff (∀ i ∈ a.granted, p i) (by simp only [Act.mem_granted])

/-- The slot an act misses. -/
def Act.missed : Act → Option ℕ
  | .miss slot => some slot
  | _ => none

theorem Act.missed_eq_none {a : Act} : a.missed = none ↔ ∀ i, a ≠ .miss i := by
  cases a <;> simp [Act.missed]

instance Act.decidableNoMiss (a : Act) : Decidable (∀ i, a ≠ .miss i) :=
  decidable_of_iff (a.missed = none) Act.missed_eq_none

variable {ι : Type*}

namespace Side

/-- When thread `t` can do `a`. -/
def Enabled (N : ℕ) (s : Side ι) (t : ι) : Act → Prop
  | .idle => True
  | .grant b => b = s.start % N
  | .finish b => b ∈ s.held t ∧ s.helper t = .out
  | .look => s.helper t = .look
  | .take i => s.helper t = .take i ∧ s.flag i
  | .leave i => s.helper t = .take i ∧ ¬ s.flag i
  | .move i => s.helper t = .move i ∧ s.fin % N = i
  | .miss i => s.helper t = .move i ∧ s.fin % N ≠ i

/-- The safety invariant of one side. Open tickets are those from `fin` on; a raised flag or a
helper about to move stands for exactly one of them that is finished. -/
structure Inv (N : ℕ) (s : Side ι) : Prop where
  fin_le : s.fin ≤ s.start
  window : s.start < s.fin + N
  done_lt : ∀ q, s.done q → q < s.start
  done_of_lt : ∀ q, q < s.fin → s.done q
  held_fin : ∀ t b, b ∈ s.held t → s.fin ≤ s.ticket b
  held_start : ∀ t b, b ∈ s.held t → s.ticket b < s.start
  held_slot : ∀ t b, b ∈ s.held t → s.ticket b % N = b
  held_open : ∀ t b, b ∈ s.held t → ¬ s.done (s.ticket b)
  held_nodup : ∀ t, (s.held t).Nodup
  held_unique : ∀ t t' b, b ∈ s.held t → b ∈ s.held t' → t = t'
  flag_done : ∀ i, s.flag i → ∃ q, s.fin ≤ q ∧ s.done q ∧ q % N = i
  move_done : ∀ t i, s.helper t = .move i → ∃ q, s.fin ≤ q ∧ s.done q ∧ q % N = i
  move_flag : ∀ t i, s.helper t = .move i → ¬ s.flag i
  move_unique : ∀ t t' i, s.helper t = .move i → s.helper t' = .move i → t = t'

variable {N : ℕ} {s : Side ι} {t : ι}

/-- Open tickets with the same slot are the same ticket. -/
theorem Inv.eq_of_slot (h : Inv N s) {p q : ℕ} (hp : s.fin ≤ p) (hp' : p < s.start)
    (hq : s.fin ≤ q) (hq' : q < s.start) (hpq : p % N = q % N) : p = q :=
  eq_of_mod_eq hp (hp'.trans h.window) hq (hq'.trans h.window) hpq

/-- The next slot to grant is held by nobody. -/
theorem Inv.start_not_held (h : Inv N s) (t : ι) : s.start % N ∉ s.held t := by
  intro hb
  have hslot := h.held_slot t _ hb
  have hlt := h.held_start t _ hb
  have hfin := h.held_fin t _ hb
  have heq : s.ticket (s.start % N) = s.start :=
    eq_of_mod_eq hfin (hlt.trans h.window) h.fin_le h.window hslot
  omega

/-- No helper is about to move past a held slot. -/
theorem Inv.held_move (h : Inv N s) {b : ℕ} (hb : b ∈ s.held t) (t' : ι) :
    s.helper t' ≠ .move b := by
  intro hm
  obtain ⟨q, hq, hdone, hslot⟩ := h.move_done t' b hm
  have heq : q = s.ticket b :=
    h.eq_of_slot hq (h.done_lt q hdone) (h.held_fin t b hb) (h.held_start t b hb)
      (hslot.trans (h.held_slot t b hb).symm)
  exact h.held_open t b hb (heq ▸ hdone)

/-- A helper whose move succeeds moves past a finished ticket. -/
theorem Inv.move_fin (h : Inv N s) (hm : s.helper t = .move (s.fin % N)) : s.done s.fin := by
  obtain ⟨q, hq, hdone, hslot⟩ := h.move_done t _ hm
  have hlt := h.done_lt q hdone
  have heq : q = s.fin := h.eq_of_slot hq hlt le_rfl (by omega) hslot
  exact heq ▸ hdone

/-- A side on which nothing has happened yet. -/
structure Fresh (s : Side ι) : Prop where
  start : s.start = 0
  fin : s.fin = 0
  done : ∀ q, ¬ s.done q
  flag : ∀ i, ¬ s.flag i
  held : ∀ t, s.held t = []
  helper : ∀ t, s.helper t = .out

theorem Inv.of_fresh (hN : 0 < N) (h : s.Fresh) : Inv N s := by
  have hheld : ∀ t b, b ∉ s.held t := fun t b => by simp [h.held t]
  have hmove : ∀ t i, s.helper t ≠ .move i := fun t i => by simp [h.helper t]
  exact
    { fin_le := by rw [h.start, h.fin]
      window := by rw [h.start, h.fin]; omega
      done_lt := fun q hq => absurd hq (h.done q)
      done_of_lt := fun q hq => absurd hq (by rw [h.fin]; exact Nat.not_lt_zero q)
      held_fin := fun t b hb => absurd hb (hheld t b)
      held_start := fun t b hb => absurd hb (hheld t b)
      held_slot := fun t b hb => absurd hb (hheld t b)
      held_open := fun t b hb => absurd hb (hheld t b)
      held_nodup := fun t => by rw [h.held t]; exact List.nodup_nil
      held_unique := fun t t' b hb => absurd hb (hheld t b)
      flag_done := fun i hi => absurd hi (h.flag i)
      move_done := fun t i hm => absurd hm (hmove t i)
      move_flag := fun t i hm => absurd hm (hmove t i)
      move_unique := fun t t' i hm => absurd hm (hmove t i) }

/-! ## Steps -/

section Steps

variable [DecidableEq ι]

/-- The side after thread `t` has done `a`. -/
def apply (N : ℕ) (s : Side ι) (t : ι) : Act → Side ι
  | .idle => s
  | .grant b =>
      { s with
        start := s.start + 1
        ticket := update s.ticket b s.start
        held := update s.held t (b :: s.held t) }
  | .finish b =>
      { s with
        done := fun q => q = s.ticket b ∨ s.done q
        flag := update s.flag b True
        held := update s.held t ((s.held t).erase b)
        helper := update s.helper t .look }
  | .look => { s with helper := update s.helper t (.take (s.fin % N)) }
  | .take i =>
      { s with flag := update s.flag i False, helper := update s.helper t (.move i) }
  | .leave _ => { s with helper := update s.helper t .out }
  | .move _ => { s with fin := s.fin + 1, helper := update s.helper t .look }
  | .miss _ => { s with helper := update s.helper t .look }

theorem Inv.grant (h : Inv N s) (hroom : s.start + 1 < s.fin + N) :
    Inv N (s.apply N t (.grant (s.start % N))) := by
  -- the slot granted is free, so the new ticket overwrites none that is held
  have hold : ∀ u b, b ∈ s.held u → b ≠ s.start % N := by
    rintro u b hb rfl
    exact h.start_not_held u hb
  have hmem : ∀ u b, b ∈ update s.held t (s.start % N :: s.held t) u →
      (u = t ∧ b = s.start % N) ∨ b ∈ s.held u := by
    intro u b hb
    by_cases hu : u = t
    · subst hu
      simpa using hb
    · rw [update_of_ne hu] at hb
      exact .inr hb
  have hstart : ¬ s.done s.start := fun hd => absurd (h.done_lt _ hd) (lt_irrefl _)
  constructor <;> simp only [apply]
  · have := h.fin_le; omega
  · exact hroom
  · intro q hq
    have := h.done_lt q hq; omega
  · exact h.done_of_lt
  · intro u b hb
    rcases hmem u b hb with ⟨-, rfl⟩ | hb
    · simpa using h.fin_le
    · rw [update_of_ne (hold u b hb)]; exact h.held_fin u b hb
  · intro u b hb
    rcases hmem u b hb with ⟨-, rfl⟩ | hb
    · simp
    · rw [update_of_ne (hold u b hb)]
      have := h.held_start u b hb; omega
  · intro u b hb
    rcases hmem u b hb with ⟨-, rfl⟩ | hb
    · simp
    · rw [update_of_ne (hold u b hb)]; exact h.held_slot u b hb
  · intro u b hb
    rcases hmem u b hb with ⟨-, rfl⟩ | hb
    · simpa using hstart
    · rw [update_of_ne (hold u b hb)]; exact h.held_open u b hb
  · intro u
    by_cases hu : u = t
    · subst hu
      rw [update_self]
      exact List.nodup_cons.mpr ⟨h.start_not_held u, h.held_nodup u⟩
    · rw [update_of_ne hu]; exact h.held_nodup u
  · intro u u' b hb hb'
    rcases hmem u b hb with ⟨hu, rfl⟩ | hb1 <;> rcases hmem u' _ hb' with ⟨hu', hb2⟩ | hb2
    · exact hu.trans hu'.symm
    · exact absurd rfl (hold u' _ hb2)
    · exact absurd hb2 (hold u _ hb1)
    · exact h.held_unique u u' b hb1 hb2
  · exact h.flag_done
  · exact h.move_done
  · exact h.move_flag
  · exact h.move_unique

theorem Inv.finish (h : Inv N s) {b : ℕ} (hb : b ∈ s.held t) (hout : s.helper t = .out) :
    Inv N (s.apply N t (.finish b)) := by
  have hmem : ∀ u c, c ∈ update s.held t ((s.held t).erase b) u → c ∈ s.held u ∧ c ≠ b := by
    intro u c hc
    by_cases hu : u = t
    · subst hu
      rw [update_self] at hc
      have := (h.held_nodup u).mem_erase_iff.mp hc
      exact ⟨this.2, this.1⟩
    · rw [update_of_ne hu] at hc
      refine ⟨hc, ?_⟩
      rintro rfl
      exact hu (h.held_unique u t _ hc hb)
  have hmove : ∀ u i, update s.helper t .look u = .move i → s.helper u = .move i ∧ i ≠ b := by
    intro u i hm
    by_cases hu : u = t
    · subst hu; simp at hm
    · rw [update_of_ne hu] at hm
      exact ⟨hm, fun hib => h.held_move hb u (hib ▸ hm)⟩
  -- held slots carry different tickets: finishing one leaves the others open
  have hticket : ∀ u c, c ∈ s.held u → c ≠ b → s.ticket c ≠ s.ticket b := by
    intro u c hc hne heq
    exact hne (by rw [← h.held_slot u c hc, heq, h.held_slot t b hb])
  constructor <;> simp only [apply]
  · exact h.fin_le
  · exact h.window
  · rintro q (rfl | hq)
    · exact h.held_start t b hb
    · exact h.done_lt q hq
  · intro q hq
    exact .inr (h.done_of_lt q hq)
  · intro u c hc
    exact h.held_fin u c (hmem u c hc).1
  · intro u c hc
    exact h.held_start u c (hmem u c hc).1
  · intro u c hc
    exact h.held_slot u c (hmem u c hc).1
  · intro u c hc hd
    obtain ⟨hc', hne⟩ := hmem u c hc
    rcases hd with hd | hd
    · exact hticket u c hc' hne hd
    · exact h.held_open u c hc' hd
  · intro u
    by_cases hu : u = t
    · subst hu
      rw [update_self]
      exact (h.held_nodup u).erase b
    · rw [update_of_ne hu]; exact h.held_nodup u
  · intro u u' c hc hc'
    exact h.held_unique u u' c (hmem u c hc).1 (hmem u' c hc').1
  · intro i hi
    by_cases hib : i = b
    · subst hib
      exact ⟨s.ticket i, h.held_fin t i hb, .inl rfl, h.held_slot t i hb⟩
    · rw [update_of_ne hib] at hi
      obtain ⟨q, hq, hdone, hslot⟩ := h.flag_done i hi
      exact ⟨q, hq, .inr hdone, hslot⟩
  · intro u i hm
    obtain ⟨q, hq, hdone, hslot⟩ := h.move_done u i (hmove u i hm).1
    exact ⟨q, hq, .inr hdone, hslot⟩
  · intro u i hm
    obtain ⟨hm', hne⟩ := hmove u i hm
    rw [update_of_ne hne]
    exact h.move_flag u i hm'
  · intro u u' i hm hm'
    exact h.move_unique u u' i (hmove u i hm).1 (hmove u' i hm').1

/-- A step that changes one helper to a place other than `move` keeps the invariant. -/
theorem Inv.of_helper (h : Inv N s) {p : Helper} (hp : ∀ i, p ≠ .move i) :
    Inv N { s with helper := update s.helper t p } := by
  have hmove : ∀ u i, update s.helper t p u = .move i → s.helper u = .move i := by
    intro u i hm
    by_cases hu : u = t
    · subst hu
      rw [update_self] at hm
      exact absurd hm (hp i)
    · rwa [update_of_ne hu] at hm
  exact
    { h with
      move_done := fun u i hm => h.move_done u i (hmove u i hm)
      move_flag := fun u i hm => h.move_flag u i (hmove u i hm)
      move_unique := fun u u' i hm hm' => h.move_unique u u' i (hmove u i hm) (hmove u' i hm') }

theorem Inv.take (h : Inv N s) {i : ℕ} (hflag : s.flag i) : Inv N (s.apply N t (.take i)) := by
  -- the finished ticket's token goes from the flag to the helper, which is then the only one
  have hnone : ∀ u, s.helper u ≠ .move i := fun u hm => h.move_flag u i hm hflag
  have hsub : ∀ j, update s.flag i False j → s.flag j ∧ j ≠ i := by
    intro j hj
    by_cases hji : j = i
    · subst hji; simp at hj
    · rw [update_of_ne hji] at hj
      exact ⟨hj, hji⟩
  have hmove : ∀ u j, update s.helper t (.move i) u = .move j →
      (u = t ∧ j = i) ∨ (s.helper u = .move j ∧ j ≠ i) := by
    intro u j hm
    by_cases hu : u = t
    · subst hu
      rw [update_self] at hm
      exact .inl ⟨rfl, (Helper.move.inj hm).symm⟩
    · rw [update_of_ne hu] at hm
      exact .inr ⟨hm, fun hji => hnone u (hji ▸ hm)⟩
  exact
    { h with
      flag_done := fun j hj => h.flag_done j (hsub j hj).1
      move_done := by
        intro u j hm
        rcases hmove u j hm with ⟨-, rfl⟩ | ⟨hm, -⟩
        · exact h.flag_done j hflag
        · exact h.move_done u j hm
      move_flag := by
        intro u j hm hj
        rcases hmove u j hm with ⟨-, rfl⟩ | ⟨hm, -⟩
        · exact (hsub j hj).2 rfl
        · exact h.move_flag u j hm (hsub j hj).1
      move_unique := by
        intro u u' j hm hm'
        rcases hmove u j hm with ⟨hu, rfl⟩ | ⟨hm1, hne⟩ <;>
          rcases hmove u' _ hm' with ⟨hu', hj⟩ | ⟨hm2, hne'⟩
        · exact hu.trans hu'.symm
        · exact absurd rfl hne'
        · exact absurd hj hne
        · exact h.move_unique u u' j hm1 hm2 }

theorem Inv.move (h : Inv N s) (hm : s.helper t = .move (s.fin % N)) :
    Inv N (s.apply N t (.move (s.fin % N))) := by
  have hdone : s.done s.fin := h.move_fin hm
  have hlt : s.fin < s.start := h.done_lt _ hdone
  -- a token of the retired ticket would have to sit in the slot this helper already emptied
  have hnext : ∀ i q, i ≠ s.fin % N → s.fin ≤ q → q % N = i → s.fin + 1 ≤ q := by
    rintro i q hne hq rfl
    have : q ≠ s.fin := fun heq => hne (by rw [heq])
    omega
  have hmove : ∀ u i, update s.helper t .look u = .move i →
      s.helper u = .move i ∧ i ≠ s.fin % N := by
    intro u i hu
    by_cases hut : u = t
    · subst hut; simp at hu
    · rw [update_of_ne hut] at hu
      exact ⟨hu, fun hi => hut (h.move_unique u t _ hu (hi ▸ hm))⟩
  constructor <;> simp only [apply]
  · omega
  · have := h.window; omega
  · exact h.done_lt
  · intro q hq
    rcases Nat.lt_succ_iff_lt_or_eq.mp hq with hq | rfl
    · exact h.done_of_lt q hq
    · exact hdone
  · intro u b hb
    have hfin := h.held_fin u b hb
    have hne : s.ticket b ≠ s.fin := fun heq => h.held_open u b hb (heq ▸ hdone)
    omega
  · exact h.held_start
  · exact h.held_slot
  · exact h.held_open
  · exact h.held_nodup
  · exact h.held_unique
  · intro i hi
    obtain ⟨q, hq, hq', hslot⟩ := h.flag_done i hi
    have hne : i ≠ s.fin % N := fun heq => h.move_flag t _ hm (heq ▸ hi)
    exact ⟨q, hnext i q hne hq hslot, hq', hslot⟩
  · intro u i hu
    obtain ⟨hu', hne⟩ := hmove u i hu
    obtain ⟨q, hq, hq', hslot⟩ := h.move_done u i hu'
    exact ⟨q, hnext i q hne hq hslot, hq', hslot⟩
  · intro u i hu
    exact h.move_flag u i (hmove u i hu).1
  · intro u u' i hu hu'
    exact h.move_unique u u' i (hmove u i hu).1 (hmove u' i hu').1

/-- **Step lemma.** Every enabled act keeps the invariant, a grant provided there is room. -/
theorem Inv.apply (h : Inv N s) {a : Act} (ha : s.Enabled N t a)
    (hroom : ∀ b, a = .grant b → s.start + 1 < s.fin + N) : Inv N (s.apply N t a) := by
  cases a with
  | idle => exact h
  | grant b =>
      obtain rfl : b = s.start % N := ha
      exact h.grant (hroom _ rfl)
  | finish b => exact h.finish ha.1 ha.2
  | look => exact h.of_helper (by simp)
  | take i => exact h.take ha.2
  | leave i => exact h.of_helper (by simp)
  | move i =>
      obtain ⟨hm, rfl⟩ := ha
      exact h.move hm
  | miss i => exact h.of_helper (by simp)

end Steps

/-! ## Helping

`Progress` is what makes helping work: a finished ticket keeps a token, in its flag or with a helper
about to move, and the finished ticket at `fin` is always being attended to. It is lost only by a
helper that has taken a flag and then misses its move.
-/

/-- A finished open ticket still has its token, and the one at `fin` is attended to. -/
structure Progress (N : ℕ) (s : Side ι) : Prop where
  token : ∀ q, s.fin ≤ q → s.done q → s.flag (q % N) ∨ ∃ t, s.helper t = .move (q % N)
  attended : s.done s.fin → s.flag (s.fin % N) →
    ∃ t, s.helper t = .look ∨ s.helper t = .take (s.fin % N)

/-- With every helper gone, the ticket at `fin` is not finished. -/
theorem Progress.not_done (h : Progress N s) (hout : ∀ t, s.helper t = .out) :
    ¬ s.done s.fin := by
  intro hdone
  rcases h.token s.fin le_rfl hdone with hflag | ⟨t, hm⟩
  · obtain ⟨t, ht | ht⟩ := h.attended hdone hflag <;> simp [hout t] at ht
  · simp [hout t] at hm

/-- A side on which nothing has happened yet makes progress trivially. -/
theorem Progress.of_fresh (h : s.Fresh) : Progress N s :=
  ⟨fun q _ hq => absurd hq (h.done q), fun hq => absurd hq (h.done _)⟩

section HelpingSteps

variable [DecidableEq ι]

/-- A witness helper that the step of `t` does not touch is still there. -/
theorem attended_of_ne {f : ι → Helper} {p : Helper} {u : ι} {i : ℕ} (hu : u ≠ t)
    (h : f u = .look ∨ f u = .take i) :
    ∃ v, update f t p v = .look ∨ update f t p v = .take i :=
  ⟨u, by rwa [update_of_ne hu]⟩

theorem Progress.grant (h : Progress N s) {b : ℕ} :
    Progress N (s.apply N t (.grant b)) :=
  ⟨h.token, h.attended⟩

theorem Progress.finish (h : Progress N s) (hi : Inv N s) {b : ℕ} (hb : b ∈ s.held t)
    (hout : s.helper t = .out) : Progress N (s.apply N t (.finish b)) := by
  have hslot := hi.held_slot t b hb
  constructor <;> simp only [apply]
  · rintro q hq (rfl | hdone)
    · rw [hslot]; simp
    · rcases h.token q hq hdone with hflag | ⟨u, hm⟩
      · left
        by_cases hqb : q % N = b
        · rw [hqb]; simp
        · rwa [update_of_ne hqb]
      · right
        have hu : u ≠ t := by rintro rfl; simp [hout] at hm
        exact ⟨u, by rwa [update_of_ne hu]⟩
  · rintro - -
    exact ⟨t, by simp⟩

/-- A helper that looks at the trailing position attends to it. -/
theorem Progress.look (h : Progress N s) (ht : s.helper t = .look) :
    Progress N (s.apply N t .look) := by
  constructor <;> simp only [apply]
  · intro q hq hdone
    rcases h.token q hq hdone with hflag | ⟨u, hm⟩
    · exact .inl hflag
    · right
      have hu : u ≠ t := by rintro rfl; simp [ht] at hm
      exact ⟨u, by rwa [update_of_ne hu]⟩
  · rintro - -
    exact ⟨t, by simp⟩

theorem Progress.take (h : Progress N s) {i : ℕ} (ht : s.helper t = .take i) :
    Progress N (s.apply N t (.take i)) := by
  constructor <;> simp only [apply]
  · intro q hq hdone
    by_cases hqi : q % N = i
    · exact .inr ⟨t, by simp [hqi]⟩
    · rw [update_of_ne hqi]
      rcases h.token q hq hdone with hflag | ⟨u, hm⟩
      · exact .inl hflag
      · right
        have hu : u ≠ t := by rintro rfl; simp [ht] at hm
        exact ⟨u, by rwa [update_of_ne hu]⟩
  · intro hdone hflag
    have hne : s.fin % N ≠ i := by
      intro heq
      rw [heq, update_self] at hflag
      exact hflag
    rw [update_of_ne hne] at hflag
    obtain ⟨u, hu⟩ := h.attended hdone hflag
    have hut : u ≠ t := by
      rintro rfl
      rcases hu with hu | hu
      · simp [ht] at hu
      · rw [ht] at hu
        exact hne (Helper.take.inj hu).symm
    exact attended_of_ne hut hu

/-- A helper leaves only when the flag it saw is down, so it was not the one attending. -/
theorem Progress.leave (h : Progress N s) {i : ℕ} (ht : s.helper t = .take i)
    (hflag : ¬ s.flag i) : Progress N (s.apply N t (.leave i)) := by
  constructor <;> simp only [apply]
  · intro q hq hdone
    rcases h.token q hq hdone with hf | ⟨u, hm⟩
    · exact .inl hf
    · right
      have hu : u ≠ t := by rintro rfl; simp [ht] at hm
      exact ⟨u, by rwa [update_of_ne hu]⟩
  · intro hdone hf
    obtain ⟨u, hu⟩ := h.attended hdone hf
    have hut : u ≠ t := by
      rintro rfl
      rcases hu with hu | hu
      · simp [ht] at hu
      · rw [ht] at hu
        exact hflag (Helper.take.inj hu ▸ hf)
    exact attended_of_ne hut hu

/-- The helper that moved goes on to look at the next ticket, so that one is attended to. -/
theorem Progress.move (h : Progress N s) (hi : Inv N s) (hm : s.helper t = .move (s.fin % N)) :
    Progress N (s.apply N t (.move (s.fin % N))) := by
  have hlt : s.fin < s.start := hi.done_lt _ (hi.move_fin hm)
  constructor <;> simp only [apply]
  · intro q hq hdone
    rcases h.token q (by omega) hdone with hflag | ⟨u, hmu⟩
    · exact .inl hflag
    · right
      have hu : u ≠ t := by
        rintro rfl
        have heq : s.fin = q := by
          refine hi.eq_of_slot le_rfl hlt (by omega) (hi.done_lt q hdone) ?_
          exact Helper.move.inj (hm.symm.trans hmu)
        omega
      exact ⟨u, by rwa [update_of_ne hu]⟩
  · rintro - -
    exact ⟨t, by simp⟩

/-- **Step lemma of helping.** Every enabled act other than a miss keeps the progress invariant. -/
theorem Progress.apply (h : Progress N s) (hi : Inv N s) {a : Act} (ha : s.Enabled N t a)
    (hmiss : ∀ i, a ≠ .miss i) : Progress N (s.apply N t a) := by
  cases a with
  | idle => exact h
  | grant b => exact h.grant
  | finish b => exact h.finish hi ha.1 ha.2
  | look => exact h.look ha
  | take i => exact h.take ha.1
  | leave i => exact h.leave ha.1 ha.2
  | move i =>
      obtain ⟨hm, rfl⟩ := ha
      exact h.move hi hm
  | miss i => exact absurd rfl (hmiss i)

end HelpingSteps

end Side

end TicketRing
