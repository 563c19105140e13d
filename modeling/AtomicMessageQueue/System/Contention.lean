import AtomicMessageQueue.Lib.Annotation
import AtomicMessageQueue.Lib.Attempts
import AtomicMessageQueue.System.Exclusion
import Mathlib.Data.Fintype.Basic

/-! # Threads racing for the leading cursors

`get_block_write` and `get_block_read` load a leading cursor, test it against the other side and try to
move it on by a CAS. A CAS fails only because another thread's has succeeded in the meantime, so that
failures never outnumber the successes of the others. A CAS that succeeds on a test that no longer
holds has been overtaken by whole rounds of the ring: as long as no thread is that late, any number of
writers and readers use the ring safely.
-/

namespace AtomicMessageQueue

open Function Transition TicketRing Attempts

variable {ι : Type*}

/-! ## The leading cursors -/

/-- A leading cursor: how often it has moved, its value, the value a thread has loaded and not yet tried
to move on, and what an access does about it. -/
structure Gate where
  moves : List Mark → ℕ
  cursor : MemBuff → ℕ
  seen : Option Pc → Option ℕ
  attempt : MemBuff → Pc → Attempt

/-- The value of `m_writeStart` a thread in `get_block_write` works with. -/
def writeSeen : Option Pc → Option ℕ
  | some (.getBlockWrite _ (.test i)) => some i
  | some (.getBlockWrite _ (.cas i)) => some i
  | _ => none

/-- The value of `m_readStart` a thread in `get_block_read` works with. -/
def readSeen : Option Pc → Option ℕ
  | some (.getBlockRead _ (.test i)) => some i
  | some (.getBlockRead _ (.cas i)) => some i
  | _ => none

/-- What the access at a program point does about `m_writeStart`. -/
def writeAttempt (m : MemBuff) : Pc → Attempt
  | .getBlockWrite _ .load => .load
  | .getBlockWrite _ (.cas i) => if m.writeStart = i then .win else .lose
  | _ => .idle

/-- What the access at a program point does about `m_readStart`. -/
def readAttempt (m : MemBuff) : Pc → Attempt
  | .getBlockRead _ .load => .load
  | .getBlockRead _ (.cas i) => if m.readStart = i then .win else .lose
  | _ => .idle

/-- `m_writeStart`. -/
def writeGate : Gate where
  moves := claims
  cursor := MemBuff.writeStart
  seen := writeSeen
  attempt := writeAttempt

/-- `m_readStart`. -/
def readGate : Gate where
  moves := takes
  cursor := MemBuff.readStart
  seen := readSeen
  attempt := readAttempt

/-- What a scheduled thread does about a cursor. -/
def Gate.attemptOf (g : Gate) (s : State ι) : ι × Choice → Attempt
  | (_, .call _) => .idle
  | (t, .run _) =>
      match (s.threads t).pc with
      | none => .idle
      | some pc => g.attempt s.mem pc

/-- What the accesses of the code do about a cursor. -/
structure Gate.Lawful (g : Gate) : Prop where
  enter : ∀ c : Call, g.seen (some c.enter) = none
  moves : ∀ {blockSize wait w m pc m' o mk}, CodeStep blockSize wait w m pc m' o mk → ∀ hist,
    g.moves (mk.toList ++ hist) = g.moves hist + if g.attempt m pc = .win then 1 else 0
  load : ∀ {blockSize wait w m pc m' o mk}, CodeStep blockSize wait w m pc m' o mk →
    g.attempt m pc = .load → g.seen o.pc = some (g.cursor m)
  tried : ∀ {blockSize wait w m pc m' o mk}, CodeStep blockSize wait w m pc m' o mk →
    g.attempt m pc = .win ∨ g.attempt m pc = .lose → g.seen o.pc = none
  idle : ∀ {blockSize wait w m pc m' o mk}, CodeStep blockSize wait w m pc m' o mk →
    g.attempt m pc = .idle → g.seen o.pc = none ∨ g.seen o.pc = g.seen (some pc)
  lose : ∀ {m pc}, g.attempt m pc = .lose → ∃ v, g.seen (some pc) = some v ∧ v ≠ g.cursor m

/-- No other access than those of `get_block_write` has to do with `m_writeStart`. -/
theorem writeGate_lawful : writeGate.Lawful where
  enter c := by cases c <;> rfl
  moves h hist := by
    cases h with
    | claim k i hi => simp only [writeGate, writeAttempt, if_pos hi, if_true]; rfl
    | claimLost k i hi => simp only [writeGate, writeAttempt, if_neg hi]; rfl
    | _ => rfl
  load h hload := by
    cases h with
    | loadWriteStart k => rfl
    | claim k i hi => simp only [writeGate, writeAttempt, if_pos hi] at hload; cases hload
    | claimLost k i hi => simp only [writeGate, writeAttempt, if_neg hi] at hload; cases hload
    | _ => cases hload
  tried h htried := by
    cases h with
    | claim k i hi => cases k <;> rfl
    | claimLost k i hi => rfl
    | _ => rcases htried with htried | htried <;> cases htried
  idle h hidle := by
    cases h with
    | loadWriteStart k => cases hidle
    | room k i hi => exact .inr rfl
    | timeoutWrite k => cases k <;> exact .inl rfl
    | claim k i hi => cases k <;> exact .inl rfl
    | leavePost k => cases k <;> exact .inl rfl
    | emptyReturn k => cases k <;> exact .inl rfl
    | timeoutRead k => cases k <;> exact .inl rfl
    | take k => cases k <;> exact .inl rfl
    | leaveReturn k => cases k <;> exact .inl rfl
    | _ => exact .inl rfl
  lose {m pc} hlose := by
    simp only [writeGate, writeAttempt] at hlose
    split at hlose
    next => cases hlose
    next i =>
      split at hlose
      next => cases hlose
      next hi => exact ⟨i, rfl, fun heq => hi heq.symm⟩
    next => cases hlose

/-- No other access than those of `get_block_read` has to do with `m_readStart`. -/
theorem readGate_lawful : readGate.Lawful where
  enter c := by cases c <;> rfl
  moves h hist := by
    cases h with
    | take k i hi => simp only [readGate, readAttempt, if_pos hi, if_true]; rfl
    | takeLost k i hi => simp only [readGate, readAttempt, if_neg hi]; rfl
    | _ => rfl
  load h hload := by
    cases h with
    | loadReadStart k => rfl
    | take k i hi => simp only [readGate, readAttempt, if_pos hi] at hload; cases hload
    | takeLost k i hi => simp only [readGate, readAttempt, if_neg hi] at hload; cases hload
    | _ => cases hload
  tried h htried := by
    cases h with
    | take k i hi => cases k <;> rfl
    | takeLost k i hi => rfl
    | _ => rcases htried with htried | htried <;> cases htried
  idle h hidle := by
    cases h with
    | loadReadStart k => cases hidle
    | message k i hi => exact .inr rfl
    | timeoutWrite k => cases k <;> exact .inl rfl
    | claim k => cases k <;> exact .inl rfl
    | leavePost k => cases k <;> exact .inl rfl
    | emptyReturn k => cases k <;> exact .inl rfl
    | timeoutRead k => cases k <;> exact .inl rfl
    | take k i hi => cases k <;> exact .inl rfl
    | leaveReturn k => cases k <;> exact .inl rfl
    | _ => exact .inl rfl
  lose {m pc} hlose := by
    simp only [readGate, readAttempt] at hlose
    split at hlose
    next => cases hlose
    next i =>
      split at hlose
      next => cases hlose
      next hi => exact ⟨i, rfl, fun heq => hi heq.symm⟩
    next => cases hlose

/-! ## Notes -/

/-- What a step is to the thread that makes it. -/
inductive Kind
  /-- it enters a method -/
  | call
  /-- an access inside `WaitForEvent` -/
  | wait
  /-- it copies a byte -/
  | byte
  /-- a CAS on `m_writeStart` or `m_readStart` -/
  | attempt
  /-- a CAS that takes a done flag down, with which a round of helping starts -/
  | round
  /-- any other access -/
  | plain
deriving DecidableEq

/-- The kind of the access at a program point. -/
def Pc.kind (m : MemBuff) : Pc → Kind
  | .getBlockWrite _ (.wait _) => .wait
  | .getBlockWrite _ (.cas _) => .attempt
  | .copyIn _ dwAmount _ done => if done < dwAmount then .byte else .plain
  | .postBlock _ (.casDone i) => if (m.blocks i).doneWrite = 1 then .round else .plain
  | .getBlockRead _ (.wait _) => .wait
  | .getBlockRead _ (.cas _) => .attempt
  | .copyOut _ dwAmount _ bytes => if bytes.length < dwAmount then .byte else .plain
  | .returnBlock _ (.casDone i) => if (m.blocks i).doneRead = 1 then .round else .plain
  | _ => .plain

/-- The kind of a scheduled step. -/
def State.kindOf (s : State ι) : ι × Choice → Kind
  | (_, .call _) => .call
  | (t, .run _) =>
      match (s.threads t).pc with
      | none => .plain
      | some pc => pc.kind s.mem

/-- What is noted of a run: the races for both leading cursors, and how many steps of each kind each
thread has made. -/
structure Notes (ι : Type*) where
  write : Race ι
  read : Race ι
  steps : ι → Kind → ℕ

/-- Nothing has been noted. -/
def Notes.start : Notes ι where
  write := .start
  read := .start
  steps := fun _ _ => 0

section Runs

variable [DecidableEq ι]

/-- What is noted of a step. -/
def note (s : State ι) (a : ι × Choice) (n : Notes ι) : Notes ι where
  write := n.write.apply a.1 (writeGate.attemptOf s a)
  read := n.read.apply a.1 (readGate.attemptOf s a)
  steps := update n.steps a.1 (update (n.steps a.1) (s.kindOf a) (n.steps a.1 (s.kindOf a) + 1))

/-- The states reached, with what is noted of the run. -/
abbrev Noted (cfg : Config ι) (ok : State ι × Notes ι → ι × Choice → Prop) :
    State ι × Notes ι → Prop :=
  Reach (noted (step cfg) note) ok (start cfg, .start)

/-- A race is that for a cursor of the state. -/
structure Gate.Raced (g : Gate) (N : ℕ) (s : State ι) (r : Race ι) : Prop where
  moves : r.moves = g.moves s.hist
  paid : r.Paid
  sees : r.Sees (· % N) fun t => g.seen (s.threads t).pc

variable {cfg : Config ι} {ok : State ι × Notes ι → ι × Choice → Prop} {p : State ι × Notes ι}
  {s s' : State ι} {a : ι × Choice} {r : Race ι} {g : Gate}

/-- A cursor moves when a thread wins. -/
theorem Gate.Lawful.moves_step (hg : g.Lawful) (hs : step cfg s a = some s') :
    g.moves s'.hist = g.moves s.hist + if g.attemptOf s a = .win then 1 else 0 := by
  obtain ⟨t, ch⟩ := a
  rcases step_cases hs with ⟨c, rfl, -, -, -, rfl⟩ | ⟨w, pc, m', o, mk, rfl, hpc, hcode, rfl⟩
  · rfl
  · have hattempt : g.attemptOf s (t, .run w) = g.attempt s.mem pc := by
      simp only [Gate.attemptOf, hpc]
    rw [hattempt]
    exact hg.moves hcode s.hist

/-- **Step lemma of a race.** -/
theorem Gate.Raced.step {N : ℕ} (h : g.Raced N s r) (hg : g.Lawful)
    (hcur : g.cursor s.mem = g.moves s.hist % N) (hs : step cfg s a = some s') :
    g.Raced N s' (r.apply a.1 (g.attemptOf s a)) := by
  have hmoves := hg.moves_step hs
  obtain ⟨t, ch⟩ := a
  have hvalue : r.moves % N = g.cursor s.mem := by rw [h.moves, hcur]
  rcases step_cases hs with ⟨c, rfl, -, -, -, rfl⟩ | ⟨w, pc, m', o, mk, rfl, hpc, hcode, rfl⟩
  · refine ⟨h.moves, h.paid.apply nofun, ?_⟩
    refine h.sees.apply (fun u hu => ?_) nofun (by rintro (heq | heq) <;> cases heq) fun _ => .inl ?_
    · simp only [update_of_ne hu]
    · simp only [update_self]
      exact hg.enter c
  · have hattempt : g.attemptOf s (t, .run w) = g.attempt s.mem pc := by
      simp only [Gate.attemptOf, hpc]
    rw [hattempt] at hmoves ⊢
    refine ⟨?_, h.paid.apply fun hlose => ?_, ?_⟩
    · rw [hmoves]
      split
      next hwin => rw [hwin, Race.moves_win, h.moves]
      next hwin => rw [r.moves_of_ne_win t hwin, h.moves, Nat.add_zero]
    · obtain ⟨v, hv, hne⟩ := hg.lose hlose
      exact h.sees.since_pos (by rw [hpc]; exact hv) (by rw [hvalue]; exact hne)
    · refine h.sees.apply (fun u hu => ?_) (fun hload => ?_) (fun htried => ?_) fun hidle => ?_
      · simp only [update_of_ne hu]
      · simp only [update_self, hvalue]
        exact hg.load hcode hload
      · simp only [update_self]
        exact hg.tried hcode htried
      · simp only [update_self]
        rw [hpc]
        exact hg.idle hcode hidle

/-- **Run lemma of the races.** -/
theorem raced_of_noted (hN : 2 ≤ cfg.blockCount) (h : Noted cfg ok p) :
    writeGate.Raced cfg.blockCount p.1 p.2.write ∧ readGate.Raced cfg.blockCount p.1 p.2.read := by
  refine h.invariant (I := fun p => writeGate.Raced cfg.blockCount p.1 p.2.write ∧
    readGate.Raced cfg.blockCount p.1 p.2.read) ⟨⟨rfl, Race.start_paid, fun _ _ h => ?_⟩,
      ⟨rfl, Race.start_paid, fun _ _ h => ?_⟩⟩ ?_
  · cases h
  · cases h
  rintro p a p' hreach ⟨hwrite, hread⟩ - hs
  obtain ⟨hstep, hnote⟩ := noted_eq_some.mp hs
  have hplain : Reached cfg anyStep p.1 := hreach.forget fun _ _ _ => trivial
  have hcur := cursors_of_reached hN hplain
  rw [hnote]
  exact ⟨hwrite.step writeGate_lawful hcur.writeStart hstep,
    hread.step readGate_lawful hcur.readStart hstep⟩

theorem counted_of_noted [Fintype ι] (h : Noted cfg ok p) :
    p.2.write.Counted ∧ p.2.read.Counted := by
  refine h.invariant (I := fun p => p.2.write.Counted ∧ p.2.read.Counted)
    ⟨Race.start_counted, Race.start_counted⟩ ?_
  rintro p a p' - ⟨hwrite, hread⟩ - hs
  rw [(noted_eq_some.mp hs).2]
  exact ⟨hwrite.apply, hread.apply⟩

/-- **No CAS is lost for nothing.** The CASes on a leading cursor that a thread has lost are no more than
those that the other threads have won. -/
theorem lost_of_noted [Fintype ι] (hN : 2 ≤ cfg.blockCount) (h : Noted cfg ok p) (t : ι) :
    p.2.write.lost t ≤ ∑ u ∈ Finset.univ.erase t, p.2.write.won u ∧
      p.2.read.lost t ≤ ∑ u ∈ Finset.univ.erase t, p.2.read.won u := by
  obtain ⟨hwrite, hread⟩ := raced_of_noted hN h
  obtain ⟨hwon, hwon'⟩ := counted_of_noted h
  exact ⟨hwrite.paid.lost_le hwon t, hread.paid.lost_le hwon' t⟩

end Runs

/-- Threads 0 and 1 load `m_writeStart` and thread 1 claims block 0; then the CAS of thread 0 fails. -/
def raceForBlock : List (Fin 3 × Choice) :=
  during 0 .getBlockWrite 2 ++ during 1 .getBlockWrite 3 ++ runs 0 1

theorem lost_of_noted_raceForBlock :
    ∃ p, Noted (holders 3 3 2) anyStep p ∧ p.2.write.lost 0 = 1 ∧
      1 ≤ ∑ u ∈ Finset.univ.erase 0, p.2.write.won u := by
  obtain ⟨p, hp, hlost⟩ : ∃ p, Noted (holders 3 3 2) anyStep p ∧ p.2.write.lost 0 = 1 :=
    Reach.exists_of_run raceForBlock (by decide +kernel)
  exact ⟨p, hp, hlost, hlost ▸ (lost_of_noted (by decide) hp 0).1⟩

end AtomicMessageQueue
