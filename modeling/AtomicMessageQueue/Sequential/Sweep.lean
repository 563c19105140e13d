import AtomicMessageQueue.Lib.FlagRun
import AtomicMessageQueue.Sequential.GiveBack

/-! # What `post_block` and `return_block` leave

The loop in each of the two calls has no counter; it follows the `Next` links while flags are up. With
the links of `create` it is a `FlagLoop`, whatever the flags and the cursors, so that it stops in every
such buffer, reached or not. `postSwept` and `returnSwept` are the buffers it leaves.
-/

namespace AtomicMessageQueue

open Function Relation FlagRun TicketRing

variable {N k : ℕ} {m : MemBuff}

/-! ## The two loops -/

/-- A flag that has become 0 at the cursor and kept its value elsewhere is up where it was, except at
the cursor. -/
theorem taken_down_iff {flag flag' i cursor : ℕ} (h : flag' = if i = cursor then 0 else flag) :
    flag' = 1 ↔ flag = 1 ∧ i ≠ cursor := by
  rw [h]
  split
  next hi => exact ⟨fun h => absurd h Nat.zero_ne_one, fun h => absurd hi h.2⟩
  next hi => exact ⟨fun h => ⟨h, hi⟩, And.left⟩

/-- The flags that `post_block` raises. -/
def MemBuff.doneWrite (m : MemBuff) (i : ℕ) : ℕ := (m.blocks i).doneWrite

/-- The flags that `return_block` raises. -/
def MemBuff.doneRead (m : MemBuff) (i : ℕ) : ℕ := (m.blocks i).doneRead

/-- The loop in `post_block`, on a ring with the links of `create`. -/
def postLoop (N : ℕ) : FlagLoop N MemBuff where
  Ok m := Linked N m ∧ m.writeEnd < N
  pos m := m.writeEnd
  up m i := m.doneWrite i = 1
  round := postRound
  pos_lt _ h := h.2
  ok_round := by
    rintro m ⟨hl, hcur⟩
    refine ⟨hl.of_links (postRound_links m), ?_⟩
    rw [postRound_eq, hl.next _ hcur]
    exact Nat.mod_lt _ (Nat.zero_lt_of_lt hcur)
  pos_round := by
    rintro m ⟨hl, hcur⟩
    rw [postRound_eq, hl.next _ hcur]
  up_round := by
    rintro m - i
    have hflag := flag_postRound m (.post i)
    simp only [Give.flag, Give.post.injEq] at hflag
    exact taken_down_iff hflag

/-- The loop in `return_block`. -/
def returnLoop (N : ℕ) : FlagLoop N MemBuff where
  Ok m := Linked N m ∧ m.readEnd < N
  pos m := m.readEnd
  up m i := m.doneRead i = 1
  round := returnRound
  pos_lt _ h := h.2
  ok_round := by
    rintro m ⟨hl, hcur⟩
    refine ⟨hl.of_links (returnRound_links m), ?_⟩
    rw [returnRound_eq, hl.next _ hcur]
    exact Nat.mod_lt _ (Nat.zero_lt_of_lt hcur)
  pos_round := by
    rintro m ⟨hl, hcur⟩
    rw [returnRound_eq, hl.next _ hcur]
  up_round := by
    rintro m - i
    have hflag := flag_returnRound m (.giveBack i)
    simp only [Give.flag, Give.giveBack.injEq] at hflag
    exact taken_down_iff hflag

/-! ## The buffers they leave -/

/-- `SetEvent` with no access of another thread in between. -/
def EventT.setEvent (e : EventT) : EventT := e.setState.broadcast

/-- The buffer after `k` rounds of the loop in `post_block`. -/
def postSwept (N k : ℕ) (m : MemBuff) : MemBuff :=
  { m with
    blocks := fun i => visited Block.writeTaken N m.writeEnd k i (m.blocks i)
    writeEnd := (m.writeEnd + k) % N
    signal := visited EventT.setEvent N m.writeEnd k m.readStart m.signal }

/-- The buffer after `k` rounds of the loop in `return_block`. The slot whose `Prev` is `m_writeStart`
is the one after it. -/
def returnSwept (N k : ℕ) (m : MemBuff) : MemBuff :=
  { m with
    blocks := fun i => visited Block.readTaken N m.readEnd k i (m.blocks i)
    readEnd := (m.readEnd + k) % N
    avail := visited EventT.setEvent N m.readEnd k ((m.writeStart + 1) % N) m.avail }

theorem postSwept_zero (hcur : m.writeEnd < N) : postSwept N 0 m = m := by
  simp only [postSwept, visited_zero, Nat.add_zero, Nat.mod_eq_of_lt hcur]

theorem returnSwept_zero (hcur : m.readEnd < N) : returnSwept N 0 m = m := by
  simp only [returnSwept, visited_zero, Nat.add_zero, Nat.mod_eq_of_lt hcur]

/-- One more round passes one more slot. -/
theorem postRound_postSwept (hl : Linked N m) (hk : k < N) :
    postRound (postSwept N k m) = postSwept N (k + 1) m := by
  obtain ⟨p, hp⟩ : ∃ p, (m.writeEnd + k) % N = p := ⟨_, rfl⟩
  have hpN : p < N := hp ▸ Nat.mod_lt _ (Nat.zero_lt_of_lt hk)
  have hnext : ((postSwept N k m).blocks p).next = (m.writeEnd + (k + 1)) % N := by
    calc ((postSwept N k m).blocks p).next
        = (m.blocks p).next := get_visited (f := Block.writeTaken) Block.next (fun _ => rfl) _
      _ = (m.writeEnd + (k + 1)) % N := by rw [hl.next p hpN, ← hp, succ_mod, Nat.add_assoc]
  have hblocks : ((postSwept N k m).setBlock p Block.writeTaken).blocks =
      (postSwept N (k + 1) m).blocks := by
    funext i
    rw [MemBuff.setBlock_blocks, ← hp]
    exact (visited_succ Block.writeTaken (m.blocks i) hk).symm
  have hsignal : (if p = m.readStart then (postSwept N k m).signal.setEvent
        else (postSwept N k m).signal) = (postSwept N (k + 1) m).signal := by
    simp only [← hp, eq_comm (b := m.readStart)]
    exact (visited_succ EventT.setEvent m.signal hk).symm
  calc postRound (postSwept N k m)
      = { m with
          blocks := ((postSwept N k m).setBlock p Block.writeTaken).blocks
          writeEnd := ((postSwept N k m).blocks p).next
          signal := if p = m.readStart then (postSwept N k m).signal.setEvent
            else (postSwept N k m).signal } := by rw [← hp]; exact postRound_eq _
    _ = postSwept N (k + 1) m := by
        rw [hblocks, hnext, hsignal]
        rfl

theorem returnRound_returnSwept (hl : Linked N m) (hstart : m.writeStart < N) (hk : k < N) :
    returnRound (returnSwept N k m) = returnSwept N (k + 1) m := by
  obtain ⟨p, hp⟩ : ∃ p, (m.readEnd + k) % N = p := ⟨_, rfl⟩
  have hpN : p < N := hp ▸ Nat.mod_lt _ (Nat.zero_lt_of_lt hk)
  have hnext : ((returnSwept N k m).blocks p).next = (m.readEnd + (k + 1)) % N := by
    calc ((returnSwept N k m).blocks p).next
        = (m.blocks p).next := get_visited (f := Block.readTaken) Block.next (fun _ => rfl) _
      _ = (m.readEnd + (k + 1)) % N := by rw [hl.next p hpN, ← hp, succ_mod, Nat.add_assoc]
  have hblocks : ((returnSwept N k m).setBlock p Block.readTaken).blocks =
      (returnSwept N (k + 1) m).blocks := by
    funext i
    rw [MemBuff.setBlock_blocks, ← hp]
    exact (visited_succ Block.readTaken (m.blocks i) hk).symm
  -- `Prev` of the slot under the cursor is `m_writeStart`: it is the slot after `m_writeStart`
  have htest : ((returnSwept N k m).blocks p).prev = m.writeStart ↔ (m.writeStart + 1) % N = p := by
    have hprev : ((returnSwept N k m).blocks p).prev = (m.blocks p).prev :=
      get_visited (f := Block.readTaken) Block.prev (fun _ => rfl) _
    rw [hprev, hl.prev p hpN, pred_eq_iff hpN hstart]
  have havail : (if (m.writeStart + 1) % N = p then (returnSwept N k m).avail.setEvent
        else (returnSwept N k m).avail) = (returnSwept N (k + 1) m).avail := by
    rw [← hp]
    exact (visited_succ EventT.setEvent m.avail hk).symm
  calc returnRound (returnSwept N k m)
      = { m with
          blocks := ((returnSwept N k m).setBlock p Block.readTaken).blocks
          readEnd := ((returnSwept N k m).blocks p).next
          avail := if ((returnSwept N k m).blocks p).prev = m.writeStart then
              (returnSwept N k m).avail.setEvent
            else (returnSwept N k m).avail } := by rw [← hp]; exact returnRound_eq _
    _ = returnSwept N (k + 1) m := by
        simp only [hblocks, hnext, htest, havail]
        rfl

theorem postRound_iterate (hl : Linked N m) (hcur : m.writeEnd < N) (hk : k ≤ N) :
    postRound^[k] m = postSwept N k m := by
  induction k with
  | zero => exact (postSwept_zero hcur).symm
  | succ k ih => rw [iterate_succ_apply', ih (Nat.le_of_succ_le hk), postRound_postSwept hl hk]

theorem returnRound_iterate (hl : Linked N m) (hstart : m.writeStart < N) (hcur : m.readEnd < N)
    (hk : k ≤ N) : returnRound^[k] m = returnSwept N k m := by
  induction k with
  | zero => exact (returnSwept_zero hcur).symm
  | succ k ih =>
      rw [iterate_succ_apply', ih (Nat.le_of_succ_le hk), returnRound_returnSwept hl hstart hk]

/-! ## The calls -/

/-- The loop in `post_block` runs to its end. -/
theorem Runs.post_sweep (blockSize : ℕ) (hl : Linked N m) (hcur : m.writeEnd < N)
    (hk : IsRun N (fun i => m.doneWrite i = 1) m.writeEnd k) (caller : PostCaller) :
    Runs blockSize m (.next (.postBlock caller .load)) (postSwept N k m) caller.resume := by
  obtain ⟨hrounds, hdown⟩ := (postLoop N).sweep ⟨hl, hcur⟩ hk
  have hend : (postLoop N).round^[k] m = postSwept N k m :=
    postRound_iterate hl hcur hk.le
  rw [hend] at hrounds hdown
  exact .post_rounds blockSize hrounds hdown caller

/-- The loop in `return_block` runs to its end. -/
theorem Runs.return_sweep (blockSize : ℕ) (hl : Linked N m) (hstart : m.writeStart < N)
    (hcur : m.readEnd < N) (hk : IsRun N (fun i => m.doneRead i = 1) m.readEnd k)
    (caller : ReturnCaller) :
    Runs blockSize m (.next (.returnBlock caller .load)) (returnSwept N k m) caller.resume := by
  obtain ⟨hrounds, hdown⟩ := (returnLoop N).sweep ⟨hl, hcur⟩ hk
  have hend : (returnLoop N).round^[k] m = returnSwept N k m :=
    returnRound_iterate hl hstart hcur hk.le
  rw [hend] at hrounds hdown
  exact .return_rounds blockSize hrounds hdown caller

/-- The call's own store raises its flag. -/
theorem setBlock_doneWrite (m : MemBuff) (b : ℕ) :
    (m.setBlock b fun blk => { blk with doneWrite := 1 }).doneWrite = update m.doneWrite b 1 := by
  funext i
  rw [MemBuff.doneWrite, MemBuff.setBlock_blocks, update_apply]
  split <;> rfl

theorem setBlock_doneRead (m : MemBuff) (b : ℕ) :
    (m.setBlock b fun blk => { blk with doneRead := 1, amount := 0 }).doneRead =
      update m.doneRead b 1 := by
  funext i
  rw [MemBuff.doneRead, MemBuff.setBlock_blocks, update_apply]
  split <;> rfl

/-- **`post_block` and `return_block` terminate in every buffer** with the links of `create`, whatever
its flags and cursors. Once its own flag is up, each goes along the run of raised flags from its end
cursor on, and leaves the flags of the run down, the cursor at its end, the event set if the run passes
the slot that is watched, and all else as it was. -/
theorem postBlock_returnBlock_sweep (blockSize b : ℕ) (hl : Linked N m) (hws : m.writeStart < N)
    (hwe : m.writeEnd < N) (hre : m.readEnd < N) :
    (∃ k, IsRun N (fun i => update m.doneWrite b 1 i = 1) m.writeEnd k ∧
      ∀ caller : PostCaller, Runs blockSize m (.next (.postBlock caller (.set b)))
        (postSwept N k (m.setBlock b fun blk => { blk with doneWrite := 1 })) caller.resume) ∧
    ∃ k, IsRun N (fun i => update m.doneRead b 1 i = 1) m.readEnd k ∧
      ∀ caller : ReturnCaller, Runs blockSize m (.next (.returnBlock caller (.set b)))
        (returnSwept N k (m.setBlock b fun blk => { blk with doneRead := 1, amount := 0 }))
        caller.resume := by
  constructor
  · obtain ⟨k, hk⟩ := exists_isRun N (fun i => update m.doneWrite b 1 i = 1) m.writeEnd
    have hl' := hl.setBlock b (f := fun blk => { blk with doneWrite := 1 }) fun _ => ⟨rfl, rfl⟩
    refine ⟨k, hk, fun caller => .step (.setDoneWrite caller b) ?_⟩
    exact .post_sweep blockSize hl' hwe (by rw [setBlock_doneWrite]; exact hk) caller
  · obtain ⟨k, hk⟩ := exists_isRun N (fun i => update m.doneRead b 1 i = 1) m.readEnd
    have hl' := hl.setBlock b (f := fun blk => { blk with doneRead := 1, amount := 0 })
      fun _ => ⟨rfl, rfl⟩
    refine ⟨k, hk, fun caller => .step (.setDoneRead caller b) (.step (.clearAmount caller b) ?_)⟩
    rw [MemBuff.setBlock_setBlock]
    exact .return_sweep blockSize hl' hws hre (by rw [setBlock_doneRead]; exact hk) caller

/-- Three blocks; posting block 1 completes a full ring of `doneWrite` flags, returning block 2 a run
of two `doneRead` flags. -/
def flagged : MemBuff :=
  { create 3 with
    blocks := fun i => match i with
      | 0 => { (create 3).blocks 0 with doneWrite := 1 }
      | 1 => { (create 3).blocks 1 with doneRead := 1 }
      | 2 => { (create 3).blocks 2 with doneWrite := 1 }
      | i => (create 3).blocks i
    writeEnd := 2
    readEnd := 1 }

theorem postBlock_returnBlock_sweep_flagged :
    Completes 4 flagged (.postBlock 1)
      (postSwept 3 3 (flagged.setBlock 1 fun blk => { blk with doneWrite := 1 })) .unit ∧
    Completes 4 flagged (.returnBlock 2)
      (returnSwept 3 2 (flagged.setBlock 2 fun blk => { blk with doneRead := 1, amount := 0 }))
      .unit := by
  have hl : Linked 3 flagged := ⟨by decide, by decide⟩
  obtain ⟨⟨k, hk, hpost⟩, -⟩ := postBlock_returnBlock_sweep 4 1 hl (by decide) (by decide) (by decide)
  obtain ⟨-, j, hj, hreturn⟩ := postBlock_returnBlock_sweep 4 2 hl (by decide) (by decide) (by decide)
  have hk3 : IsRun 3 (fun i => update flagged.doneWrite 1 1 i = 1) flagged.writeEnd 3 :=
    isRun_of_flags (by decide) (by decide) (by decide)
  have hj2 : IsRun 3 (fun i => update flagged.doneRead 2 1 i = 1) flagged.readEnd 2 :=
    isRun_of_flags (by decide) (by decide) (by decide)
  obtain rfl : k = 3 := hk.unique hk3
  obtain rfl : j = 2 := hj.unique hj2
  exact ⟨hpost .holder, hreturn .holder⟩

end AtomicMessageQueue
