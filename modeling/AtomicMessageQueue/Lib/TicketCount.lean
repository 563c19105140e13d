import AtomicMessageQueue.Lib.Tally
import AtomicMessageQueue.Lib.TicketRing

/-! # Counting the acts on one side of the ring

However stale the slots are that the helpers work on, a flag that was raised once is taken down once,
and a flag that was taken down moves the trailing position once. Nothing here needs the safety
invariant `Side.Inv`, so the counts hold in runs that break it as well.
-/

namespace TicketRing

open Function Tally

/-- How many flags an act raises. -/
def Act.finishes : Act → ℕ
  | .finish _ => 1
  | _ => 0

/-- How many flags an act takes down. -/
def Act.takes : Act → ℕ
  | .take _ => 1
  | _ => 0

/-- How many flags a helper has taken down and not yet used for a move. -/
def Helper.moving : Helper → ℕ
  | .move _ => 1
  | _ => 0

namespace Side

variable {ι : Type*}

open Classical in
/-- The books of one side after `finishes` flags have been raised and `takes` taken down: each move
has used up one taken flag, each taken flag one raised flag, and each raised flag one grant. -/
structure Booked (s : Side ι) (finishes takes : ℕ) : Prop where
  moves : Fits (fun t => (s.helper t).moving) s.fin takes
  flags : Fits (fun i => if s.flag i then 1 else 0) takes finishes
  grants : Fits (fun t => (s.held t).length) finishes s.start

variable {N : ℕ} {s : Side ι} {t : ι} {finishes takes : ℕ}

theorem Booked.of_fresh (h : s.Fresh) : Booked s 0 0 where
  moves := .of_zero (fun t => by rw [h.helper t]; rfl) (by rw [h.fin])
  flags := .of_zero (fun i => if_neg (h.flag i)) le_rfl
  grants := .of_zero (fun t => by rw [h.held t]; rfl) (Nat.zero_le _)

/-- The trailing position has not moved more often than flags were raised. -/
theorem Booked.fin_le (h : Booked s finishes takes) : s.fin ≤ finishes :=
  h.moves.le.trans h.flags.le

/-- No more flags were raised than slots granted. -/
theorem Booked.finishes_le (h : Booked s finishes takes) : finishes ≤ s.start :=
  h.grants.le

variable [DecidableEq ι]

/-- A helper goes to another place with the flags as they are; a flag it had taken down may be used for
a move. -/
theorem Booked.relocate (h : Booked s finishes takes) {p q : Helper} (hp : s.helper t = p) {fin' : ℕ}
    (hle : fin' + q.moving ≤ s.fin + p.moving) :
    Booked { s with helper := update s.helper t q, fin := fin' } finishes takes := by
  have hfits : fin' + q.moving + takes ≤ s.fin + (s.helper t).moving + takes := by
    rw [hp]
    omega
  exact ⟨h.moves.put Helper.moving t q hfits, h.flags, h.grants⟩

open Classical in
/-- **Step lemma of the books.** Every enabled act keeps them. -/
theorem Booked.apply (h : Booked s finishes takes) {a : Act} (hen : s.Enabled N t a) :
    Booked (s.apply N t a) (finishes + a.finishes) (takes + a.takes) := by
  cases a with
  | idle => exact h
  | grant b =>
      refine ⟨h.moves, h.flags, h.grants.put List.length t _ ?_⟩
      simp only [Side.apply, Act.finishes, List.length_cons]
      omega
  | finish b =>
      obtain ⟨hheld, hout⟩ := hen
      have hlen := List.length_erase_of_mem hheld
      have hpos := List.length_pos_of_mem hheld
      refine ⟨h.moves.put Helper.moving t _ ?_,
        h.flags.put (fun q : Prop => if q then 1 else 0) b True ?_, h.grants.put List.length t _ ?_⟩
      · rw [hout]
        simp only [Side.apply, Act.takes, Helper.moving]
        omega
      · simp only [Act.takes, Act.finishes, if_true]
        omega
      · simp only [Side.apply, Act.finishes, hlen]
        omega
  | take i =>
      obtain ⟨htake, hflag⟩ := hen
      refine ⟨h.moves.put Helper.moving t _ ?_,
        h.flags.put (fun q : Prop => if q then 1 else 0) i False ?_, h.grants⟩
      · rw [htake]
        simp only [Side.apply, Act.takes, Helper.moving]
        omega
      · simp only [Act.takes, Act.finishes, if_false, if_pos hflag]
        omega
  | look => exact h.relocate hen le_rfl
  | leave i => exact h.relocate hen.1 le_rfl
  | move i => exact h.relocate hen.1 le_rfl
  | miss i => exact h.relocate hen.1 (Nat.le_succ _)

end Side

end TicketRing
