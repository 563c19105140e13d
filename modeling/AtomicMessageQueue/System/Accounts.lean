import AtomicMessageQueue.Lib.TicketCount
import AtomicMessageQueue.System.Exclusion

/-! # The books of the ring

What the four cursors and the two done flags owe each other in any run, fresh tests or not. A cursor
is moved by a CAS on its own value only, so the blocks are handed out in ring order. A done flag is
raised by the one holder of a block and taken down by one helper, who moves the trailing cursor at
most once.
-/

namespace AtomicMessageQueue

open Function Transition TicketRing

variable {ι : Type*}

/-! ## Reading the history -/

/-- The blocks `get_block_write` handed out, in the order of their CASes. -/
def claimed : List Mark → List ℕ
  | [] => []
  | .claim b :: h => claimed h ++ [b]
  | _ :: h => claimed h

/-- The blocks `get_block_read` handed out, in the order of their CASes. -/
def handedOut : List Mark → List ℕ
  | [] => []
  | .take b _ :: h => handedOut h ++ [b]
  | _ :: h => handedOut h

/-- How often `post_block` has set a `doneWrite` flag. -/
def writesDone : List Mark → ℕ
  | [] => 0
  | .setDoneWrite _ :: h => writesDone h + 1
  | _ :: h => writesDone h

/-- How often a helper in `post_block` has taken a `doneWrite` flag down. -/
def writesTaken : List Mark → ℕ
  | [] => 0
  | .takeDoneWrite _ :: h => writesTaken h + 1
  | _ :: h => writesTaken h

/-- How often `return_block` has set a `doneRead` flag. -/
def readsDone : List Mark → ℕ
  | [] => 0
  | .setDoneRead _ :: h => readsDone h + 1
  | _ :: h => readsDone h

/-- How often a helper in `return_block` has taken a `doneRead` flag down. -/
def readsTaken : List Mark → ℕ
  | [] => 0
  | .takeDoneRead _ :: h => readsTaken h + 1
  | _ :: h => readsTaken h

/-- The first `n` blocks in ring order. -/
def ringOrder (N n : ℕ) : List ℕ := (List.range n).map (· % N)

theorem ringOrder_succ (N n : ℕ) : ringOrder N (n + 1) = ringOrder N n ++ [n % N] := by
  rw [ringOrder, List.range_succ, List.map_append, List.map_singleton, ringOrder]

/-! ## Steps -/

section Code

variable {blockSize : ℕ} {wait : WaitStep} {w : WaitEnd} {m m' : MemBuff} {pc : Pc}
  {o : Out Pc Ret} {mk : Option Mark}

/-- The marks count the flags that the acts of the write side raise and take down. -/
theorem CodeStep.writeBooks (h : CodeStep blockSize wait w m pc m' o mk) (hist : List Mark) :
    writesDone (mk.toList ++ hist) = writesDone hist + (writeAct m pc).finishes ∧
      writesTaken (mk.toList ++ hist) = writesTaken hist + (writeAct m pc).takes := by
  cases h with
  | takeDoneWrite k i hi => simp only [writeAct, if_pos hi]; exact ⟨rfl, rfl⟩
  | leavePost k i hi => simp only [writeAct, if_neg hi]; exact ⟨rfl, rfl⟩
  | claim k i hi => simp only [writeAct, if_pos hi]; exact ⟨rfl, rfl⟩
  | claimLost k i hi => simp only [writeAct, if_neg hi]; exact ⟨rfl, rfl⟩
  | publish k i hi => simp only [writeAct, if_pos hi]; exact ⟨rfl, rfl⟩
  | publishMissed k i hi => simp only [writeAct, if_neg hi]; exact ⟨rfl, rfl⟩
  | _ => exact ⟨rfl, rfl⟩

/-- The marks count the flags that the acts of the read side raise and take down. -/
theorem CodeStep.readBooks (h : CodeStep blockSize wait w m pc m' o mk) (hist : List Mark) :
    readsDone (mk.toList ++ hist) = readsDone hist + (readAct m pc).finishes ∧
      readsTaken (mk.toList ++ hist) = readsTaken hist + (readAct m pc).takes := by
  cases h with
  | takeDoneRead k i hi => simp only [readAct, if_pos hi]; exact ⟨rfl, rfl⟩
  | leaveReturn k i hi => simp only [readAct, if_neg hi]; exact ⟨rfl, rfl⟩
  | take k i hi => simp only [readAct, if_pos hi]; exact ⟨rfl, rfl⟩
  | takeLost k i hi => simp only [readAct, if_neg hi]; exact ⟨rfl, rfl⟩
  | retire k i hi => simp only [readAct, if_pos hi]; exact ⟨rfl, rfl⟩
  | retireMissed k i hi => simp only [readAct, if_neg hi]; exact ⟨rfl, rfl⟩
  | _ => exact ⟨rfl, rfl⟩

end Code

/-- The books of both sides, and the order in which blocks were handed out. -/
structure Booked (N : ℕ) (s : State ι) : Prop where
  wf : ∀ t, (s.threads t).Wf
  write : (writeView.side s).Booked (writesDone s.hist) (writesTaken s.hist)
  read : (readView.side s).Booked (readsDone s.hist) (readsTaken s.hist)
  claimed_eq : claimed s.hist = ringOrder N (claims s.hist)
  handedOut_eq : handedOut s.hist = ringOrder N (takes s.hist)

theorem booked_start {cfg : Config ι} (hN : 2 ≤ cfg.blockCount) :
    Booked cfg.blockCount (start cfg) :=
  ⟨fun _ => ⟨nofun, nofun⟩, .of_fresh (writeSide_fresh hN), .of_fresh (readSide_fresh hN), rfl, rfl⟩

section Run

variable [DecidableEq ι] {cfg : Config ι} {s s' : State ι} {a : ι × Choice}

/-- A step adds its block to the blocks handed out. -/
theorem handedOut_step (hcur : Cursors cfg.blockCount s) (hs : step cfg s a = some s')
    (hclaimed : claimed s.hist = ringOrder cfg.blockCount (claims s.hist))
    (htaken : handedOut s.hist = ringOrder cfg.blockCount (takes s.hist)) :
    claimed s'.hist = ringOrder cfg.blockCount (claims s'.hist) ∧
      handedOut s'.hist = ringOrder cfg.blockCount (takes s'.hist) := by
  obtain ⟨t, ch⟩ := a
  rcases step_cases hs with ⟨c, -, -, -, -, rfl⟩ | ⟨w, pc, m', o, mk, -, -, hcode, rfl⟩
  · exact ⟨hclaimed, htaken⟩
  · cases hcode with
    | claim k i hi =>
        refine ⟨?_, htaken⟩
        show claimed s.hist ++ [i] = ringOrder cfg.blockCount (claims s.hist + 1)
        rw [ringOrder_succ, hclaimed, ← hi, hcur.writeStart]
    | take k i hi =>
        refine ⟨hclaimed, ?_⟩
        show handedOut s.hist ++ [i] = ringOrder cfg.blockCount (takes s.hist + 1)
        rw [ringOrder_succ, htaken, ← hi, hcur.readStart]
    | _ => exact ⟨hclaimed, htaken⟩

/-- **Step lemma of the books.** Every step keeps them, whatever the tests it acts on. -/
theorem Booked.step (h : Booked cfg.blockCount s) (hcur : Cursors cfg.blockCount s)
    (hs : step cfg s a = some s') : Booked cfg.blockCount s' := by
  obtain ⟨t, ch⟩ := a
  have hwf := wf_step h.wf hs
  obtain ⟨henw, heqw⟩ := writeSide_step hcur (h.wf t) hs
  obtain ⟨henr, heqr⟩ := readSide_step hcur (h.wf t) hs
  have hwrite := h.write.apply henw
  have hread := h.read.apply henr
  obtain ⟨hclaimed, htaken⟩ := handedOut_step hcur hs h.claimed_eq h.handedOut_eq
  rw [← heqw] at hwrite
  rw [← heqr] at hread
  refine ⟨hwf, ?_, ?_, hclaimed, htaken⟩ <;>
    rcases step_cases hs with ⟨c, rfl, -, -, -, rfl⟩ | ⟨w, pc, m', o, mk, rfl, hpc, hcode, rfl⟩
  · exact hwrite
  · have hact : writeView.actOf s (t, .run w) = writeAct s.mem pc := by
      simp only [View.actOf, hpc]; rfl
    rw [hact, ← (hcode.writeBooks s.hist).1, ← (hcode.writeBooks s.hist).2] at hwrite
    exact hwrite
  · exact hread
  · have hact : readView.actOf s (t, .run w) = readAct s.mem pc := by
      simp only [View.actOf, hpc]; rfl
    rw [hact, ← (hcode.readBooks s.hist).1, ← (hcode.readBooks s.hist).2] at hread
    exact hread

/-- **Run lemma of the books.** -/
theorem booked_of_reached (hN : 2 ≤ cfg.blockCount) {ok : State ι → ι × Choice → Prop}
    (h : Reached cfg ok s) : Booked cfg.blockCount s :=
  h.invariant (booked_start hN) fun _ _ _ hreach hi _ hs => hi.step (cursors_of_reached hN hreach) hs

/-- **Blocks in ring order, flags used once.** In every run the blocks are handed out round the ring
on both sides, no trailing cursor moves more often than flags were raised for it, no flag is raised
without a grant, and every cursor is the number of its moves modulo the ring size. -/
theorem handsOut_ringOrder (hN : 2 ≤ cfg.blockCount) (h : Reached cfg anyStep s) :
    (claimed s.hist = ringOrder cfg.blockCount (claims s.hist) ∧
      handedOut s.hist = ringOrder cfg.blockCount (takes s.hist)) ∧
    (publishes s.hist ≤ writesDone s.hist ∧ writesDone s.hist ≤ claims s.hist) ∧
    (retires s.hist ≤ readsDone s.hist ∧ readsDone s.hist ≤ takes s.hist) ∧
    s.mem.writeStart = claims s.hist % cfg.blockCount ∧
    s.mem.writeEnd = publishes s.hist % cfg.blockCount ∧
    s.mem.readStart = takes s.hist % cfg.blockCount ∧
    s.mem.readEnd = retires s.hist % cfg.blockCount := by
  have hbooks := booked_of_reached hN h
  have hcur := cursors_of_reached hN h
  exact ⟨⟨hbooks.claimed_eq, hbooks.handedOut_eq⟩, ⟨hbooks.write.fin_le, hbooks.write.finishes_le⟩,
    ⟨hbooks.read.fin_le, hbooks.read.finishes_le⟩, hcur.writeStart, hcur.writeEnd, hcur.readStart,
    hcur.readEnd⟩

end Run

/-- In the run in which `m_writeStart` laps `m_readEnd`, three claims have handed out blocks 0, 1 and
0 again. -/
theorem handsOut_ringOrder_lapped :
    ∃ s, Reached (holders 3 2 2) anyStep s ∧ claims s.hist = 3 ∧ claimed s.hist = [0, 1, 0] ∧
      publishes s.hist ≤ writesDone s.hist ∧ writesDone s.hist ≤ 3 := by
  obtain ⟨s, hs, hclaims⟩ : ∃ s, Reached (holders 3 2 2) anyStep s ∧ claims s.hist = 3 :=
    Reach.exists_of_run lap (by decide +kernel)
  obtain ⟨⟨hclaimed, -⟩, ⟨hpublishes, hdone⟩, -⟩ := handsOut_ringOrder (by decide) hs
  rw [hclaims] at hclaimed hdone
  exact ⟨s, hs, hclaims, hclaimed, hpublishes, hdone⟩

end AtomicMessageQueue
