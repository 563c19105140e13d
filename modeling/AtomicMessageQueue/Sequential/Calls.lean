import AtomicMessageQueue.Shm.Inversion
import Mathlib.Logic.Relation

/-! # Calls run to completion

A call that no other thread interferes with, from its first access to its return. Nobody is there to
wake a sleeper, so every wait that goes to sleep ends at its deadline. The accesses of such a call
determine its result; for each operation a lemma says what it leads to.
-/

namespace AtomicMessageQueue

open Function Relation

/-- A thread alone goes from one buffer and place to another. -/
inductive Runs (blockSize : ℕ) : MemBuff → Out Pc Ret → MemBuff → Out Pc Ret → Prop
  | refl (m : MemBuff) (o : Out Pc Ret) : Runs blockSize m o m o
  | head {m m' m'' : MemBuff} {pc : Pc} {o o' : Out Pc Ret} {mk : Option Mark}
      (access : codeStep blockSize waitForEvent .expire m pc = some (m', o, mk))
      (rest : Runs blockSize m' o m'' o') : Runs blockSize m (.next pc) m'' o'

/-- The call `c` returns `r` and leaves the buffer `m'`. -/
def Completes (blockSize : ℕ) (m : MemBuff) (c : Call) (m' : MemBuff) (r : Ret) : Prop :=
  Runs blockSize m (.next c.enter) m' (.ret r)

variable {blockSize : ℕ} {m m' m₁ m₂ : MemBuff} {o o' : Out Pc Ret}

/-- A thread alone performs an access that its program point allows, and goes on. -/
theorem Runs.step {pc : Pc} {mk : Option Mark}
    (h : CodeStep blockSize waitForEvent .expire m pc m₁ o mk) (rest : Runs blockSize m₁ o m₂ o') :
    Runs blockSize m (.next pc) m₂ o' :=
  .head h.eq rest

theorem Runs.trans (h : Runs blockSize m o m₁ o') {o'' : Out Pc Ret}
    (h' : Runs blockSize m₁ o' m₂ o'') : Runs blockSize m o m₂ o'' := by
  induction h with
  | refl => exact h'
  | head access rest ih => exact .head access (ih h')

/-- A call returns at most one result. -/
theorem Runs.determ {r₁ r₂ : Ret} (h : Runs blockSize m o m₁ (.ret r₁))
    (h' : Runs blockSize m o m₂ (.ret r₂)) : m₁ = m₂ ∧ r₁ = r₂ := by
  generalize ho : Out.ret r₁ = o₁ at h
  induction h with
  | refl =>
      subst ho
      cases h'
      exact ⟨rfl, rfl⟩
  | head access rest ih =>
      cases h' with
      | head access' rest' =>
          rw [access] at access'
          cases access'
          exact ih rest' ho

theorem Completes.determ {c : Call} {r₁ r₂ : Ret} (h : Completes blockSize m c m₁ r₁)
    (h' : Completes blockSize m c m₂ r₂) : m₁ = m₂ ∧ r₁ = r₂ :=
  Runs.determ h h'

/-! ## Waiting for an event nobody will set -/

/-- The event between calls: not killed, its mutex free. -/
structure EventT.Quiet (e : EventT) : Prop where
  state : e.state ≤ 1
  kill : e.kill = false
  mtx : e.mtx = false

/-- The event with its state cleared. -/
def EventT.cleared (e : EventT) : EventT := { e with state := 0 }

theorem EventT.Quiet.cleared {e : EventT} (h : e.Quiet) : e.cleared.Quiet :=
  ⟨Nat.zero_le _, h.kill, h.mtx⟩

theorem EventT.Quiet.set {e : EventT} (h : e.Quiet) : e.setState.broadcast.Quiet := by
  unfold EventT.setState
  split
  · exact ⟨le_rfl, h.kill, h.mtx⟩
  · exact ⟨h.state, h.kill, h.mtx⟩

theorem EventT.Quiet.create : createEvent.Quiet :=
  ⟨Nat.zero_le _, rfl, rfl⟩

/-- A thread alone goes through `WaitForEvent` from `pc` on; it returns `r`. -/
inductive WaitRuns : EventT → WaitPc → EventT → ℤ → Prop
  | ret {e e' : EventT} {pc : WaitPc} {r : ℤ}
      (access : waitForEvent .expire e pc = some (e', .ret r)) : WaitRuns e pc e' r
  | next {e e' e'' : EventT} {pc pc' : WaitPc} {r : ℤ}
      (access : waitForEvent .expire e pc = some (e', .next pc')) (rest : WaitRuns e' pc' e'' r) :
      WaitRuns e pc e'' r

/-- A wait that finds the event set clears it and succeeds. -/
theorem waitRuns_set {e : EventT} (h : e.state = 1) : WaitRuns e .test e.cleared 1 := by
  obtain ⟨state, kill, mtx, cond⟩ := e
  obtain rfl : state = 1 := h
  exact .next rfl (.ret rfl)

/-- A wait that finds the event clear goes to sleep and times out. -/
theorem waitRuns_expire {e : EventT} (hq : e.Quiet) (h : e.state = 0) : WaitRuns e .test e 0 := by
  obtain ⟨state, kill, mtx, cond⟩ := e
  obtain rfl : state = 0 := h
  obtain rfl : kill = false := hq.kill
  obtain rfl : mtx = false := hq.mtx
  -- test, lock, test, test `kill_`, fall asleep, deadline, relock, test, unlock, clear, test `kill_`
  exact .next rfl (.next rfl (.next rfl (.next rfl (.next rfl (.next rfl (.next rfl (.next rfl
    (.next rfl (.next rfl (.ret rfl))))))))))

variable (blockSize)

theorem Runs.waitAvail {e e' : EventT} {pc : WaitPc} {r : ℤ} (h : WaitRuns e pc e' r)
    (he : m.avail = e) (k : WriteCaller) :
    Runs blockSize m (.next (.getBlockWrite k (.wait pc))) { m with avail := e' }
      (if 0 < r then .next (.getBlockWrite k .load) else k.resume blockSize none) := by
  induction h generalizing m with
  | @ret e e' pc r access =>
      subst he
      by_cases hr : 0 < r
      · rw [if_pos hr]
        exact .step (.retryWrite k pc e' r hr access) (.refl _ _)
      · rw [if_neg hr]
        exact .step (.timeoutWrite k pc e' r hr access) (.refl _ _)
  | @next e e' e'' pc pc' r access rest ih =>
      subst he
      exact .step (.waitAvail k pc pc' e' access) (ih (m := { m with avail := e' }) rfl)

theorem Runs.waitSignal {e e' : EventT} {pc : WaitPc} {r : ℤ} (h : WaitRuns e pc e' r)
    (he : m.signal = e) (k : ReadCaller) :
    Runs blockSize m (.next (.getBlockRead k (.wait pc))) { m with signal := e' }
      (if 0 < r then .next (.getBlockRead k .load) else k.resume none) := by
  induction h generalizing m with
  | @ret e e' pc r access =>
      subst he
      by_cases hr : 0 < r
      · rw [if_pos hr]
        exact .step (.retryRead k pc e' r hr access) (.refl _ _)
      · rw [if_neg hr]
        exact .step (.timeoutRead k pc e' r hr access) (.refl _ _)
  | @next e e' e'' pc pc' r access rest ih =>
      subst he
      exact .step (.waitSignal k pc pc' e' access) (ih (m := { m with signal := e' }) rfl)

/-! ## The four operations -/

/-- `get_block_write` while there is room. -/
theorem Runs.getBlockWrite_room (h : (m.blocks m.writeStart).next ≠ m.readEnd) (k : WriteCaller) :
    Runs blockSize m (.next (.getBlockWrite k .load))
      { m with writeStart := (m.blocks m.writeStart).next }
      (k.resume blockSize (some m.writeStart)) := by
  refine .step (.loadWriteStart k) ?_
  refine .step (.room k m.writeStart h) ?_
  exact .step (.claim k m.writeStart rfl) (.refl _ _)

/-- `get_block_write` on a full ring waits for `m_avail`. -/
theorem Runs.getBlockWrite_wait (h : (m.blocks m.writeStart).next = m.readEnd) (k : WriteCaller) :
    Runs blockSize m (.next (.getBlockWrite k .load)) m
      (.next (.getBlockWrite k (.wait .test))) := by
  refine .step (.loadWriteStart k) ?_
  exact .step (.full k m.writeStart h) (.refl _ _)

/-- `get_block_write` on a full ring gives up, and leaves `m_avail` cleared. -/
theorem Runs.getBlockWrite_full (h : (m.blocks m.writeStart).next = m.readEnd)
    (hq : m.avail.Quiet) (k : WriteCaller) :
    Runs blockSize m (.next (.getBlockWrite k .load)) { m with avail := m.avail.cleared }
      (k.resume blockSize none) := by
  rcases Nat.le_one_iff_eq_zero_or_eq_one.mp hq.state with h0 | h1
  · have heq : m.avail.cleared = m.avail := by simp only [EventT.cleared, ← h0]
    rw [heq]
    exact (getBlockWrite_wait blockSize h k).trans (.waitAvail blockSize (waitRuns_expire hq h0) rfl k)
  · -- the event is still set from an earlier return: the first wait only clears it
    have hretry := Runs.waitAvail blockSize (waitRuns_set h1) rfl k
    have hexpire := Runs.waitAvail blockSize
      (m := { m with avail := m.avail.cleared }) (waitRuns_expire hq.cleared rfl) rfl k
    have hagain := getBlockWrite_wait blockSize
      (m := { m with avail := m.avail.cleared }) h k
    exact (getBlockWrite_wait blockSize h k).trans (hretry.trans (hagain.trans hexpire))

/-- `get_block_read` while there is a message. -/
theorem Runs.getBlockRead_message (h : m.readStart ≠ m.writeEnd) (k : ReadCaller) :
    Runs blockSize m (.next (.getBlockRead k .load))
      { m with readStart := (m.blocks m.readStart).next } (k.resume (some m.readStart)) := by
  refine .step (.loadReadStart k) ?_
  refine .step (.message k m.readStart h) ?_
  exact .step (.take k m.readStart rfl) (.refl _ _)

/-- `get_block_read` on an empty ring waits for `m_signal` if its timeout is positive. -/
theorem Runs.getBlockRead_wait (h : m.readStart = m.writeEnd) (k : ReadCaller)
    (ht : 0 < k.msTimeout) :
    Runs blockSize m (.next (.getBlockRead k .load)) m
      (.next (.getBlockRead k (.wait .test))) := by
  refine .step (.loadReadStart k) ?_
  exact .step (.emptyWait k m.readStart h ht) (.refl _ _)

/-- `get_block_read` on an empty ring gives up, and leaves `m_signal` cleared if it has waited. -/
theorem Runs.getBlockRead_empty (h : m.readStart = m.writeEnd) (hq : m.signal.Quiet)
    (k : ReadCaller) :
    Runs blockSize m (.next (.getBlockRead k .load))
      (if 0 < k.msTimeout then { m with signal := m.signal.cleared } else m) (k.resume none) := by
  by_cases ht : 0 < k.msTimeout
  · rw [if_pos ht]
    rcases Nat.le_one_iff_eq_zero_or_eq_one.mp hq.state with h0 | h1
    · have heq : m.signal.cleared = m.signal := by simp only [EventT.cleared, ← h0]
      rw [heq]
      exact (getBlockRead_wait blockSize h k ht).trans (.waitSignal blockSize (waitRuns_expire hq h0) rfl k)
    · have hretry := Runs.waitSignal blockSize (waitRuns_set h1) rfl k
      have hexpire := Runs.waitSignal blockSize
        (m := { m with signal := m.signal.cleared }) (waitRuns_expire hq.cleared rfl) rfl k
      have hagain := getBlockRead_wait blockSize
        (m := { m with signal := m.signal.cleared }) h k ht
      exact (getBlockRead_wait blockSize h k ht).trans (hretry.trans (hagain.trans hexpire))
  · rw [if_neg ht]
    refine .step (.loadReadStart k) ?_
    exact .step (.emptyReturn k m.readStart h ht) (.refl _ _)

/-! ## Moving the end cursors -/

/-- One round of the loop in `post_block` at a block whose `doneWrite` is up. -/
def postRound (m : MemBuff) : MemBuff :=
  let m' := { (m.setBlock m.writeEnd fun blk => { blk with doneWrite := 0 }) with
    writeEnd := (m.blocks m.writeEnd).next }
  if m.writeEnd = m.readStart then { m' with signal := m.signal.setState.broadcast } else m'

/-- One round of the loop in `return_block` at a block whose `doneRead` is up. -/
def returnRound (m : MemBuff) : MemBuff :=
  let m' := { (m.setBlock m.readEnd fun blk => { blk with doneRead := 0 }) with
    readEnd := (m.blocks m.readEnd).next }
  if (m.blocks m.readEnd).prev = m.writeStart then
    { m' with avail := m.avail.setState.broadcast }
  else m'

/-- The loop in `post_block` goes one round. -/
def PostRound (m m' : MemBuff) : Prop :=
  (m.blocks m.writeEnd).doneWrite = 1 ∧ m' = postRound m

/-- The loop in `return_block` goes one round. -/
def ReturnRound (m m' : MemBuff) : Prop :=
  (m.blocks m.readEnd).doneRead = 1 ∧ m' = returnRound m

/-- The block with its `doneWrite` taken down. -/
def Block.writeTaken (blk : Block) : Block := { blk with doneWrite := 0 }

/-- The block with its `doneRead` taken down. -/
def Block.readTaken (blk : Block) : Block := { blk with doneRead := 0 }

theorem postRound_eq (m : MemBuff) :
    postRound m = { (m.setBlock m.writeEnd Block.writeTaken) with
      writeEnd := (m.blocks m.writeEnd).next
      signal := if m.writeEnd = m.readStart then m.signal.setState.broadcast else m.signal } := by
  unfold postRound
  split <;> rfl

theorem returnRound_eq (m : MemBuff) :
    returnRound m = { (m.setBlock m.readEnd Block.readTaken) with
      readEnd := (m.blocks m.readEnd).next
      avail := if (m.blocks m.readEnd).prev = m.writeStart then m.avail.setState.broadcast
        else m.avail } := by
  unfold returnRound
  split <;> rfl

/-- No round writes a link. -/
theorem postRound_links (m : MemBuff) (i : ℕ) :
    ((postRound m).blocks i).next = (m.blocks i).next ∧
      ((postRound m).blocks i).prev = (m.blocks i).prev := by
  rw [postRound_eq]
  exact ⟨m.get_setBlock (·.next) (f := Block.writeTaken) (fun _ => rfl) i,
    m.get_setBlock (·.prev) (f := Block.writeTaken) (fun _ => rfl) i⟩

theorem returnRound_links (m : MemBuff) (i : ℕ) :
    ((returnRound m).blocks i).next = (m.blocks i).next ∧
      ((returnRound m).blocks i).prev = (m.blocks i).prev := by
  rw [returnRound_eq]
  exact ⟨m.get_setBlock (·.next) (f := Block.readTaken) (fun _ => rfl) i,
    m.get_setBlock (·.prev) (f := Block.readTaken) (fun _ => rfl) i⟩

theorem Runs.post_round (h : (m.blocks m.writeEnd).doneWrite = 1) (k : PostCaller) :
    Runs blockSize m (.next (.postBlock k .load)) (postRound m) (.next (.postBlock k .load)) := by
  have hnext := m.get_setBlock Block.next (b := m.writeEnd)
    (f := fun blk => { blk with doneWrite := 0 }) (fun _ => rfl) m.writeEnd
  refine .step (.loadWriteEnd k) ?_
  refine .step (.takeDoneWrite k m.writeEnd h) ?_
  refine .step (.publish k m.writeEnd rfl) ?_
  rw [hnext]
  unfold postRound
  by_cases htest : m.writeEnd = m.readStart
  · rw [if_pos htest]
    refine .step (.testReadStart k m.writeEnd htest) ?_
    refine .step (.setSignal k) ?_
    exact .step (.broadcastSignal k) (.refl _ _)
  · rw [if_neg htest]
    exact .step (.testReadStartNe k m.writeEnd htest) (.refl _ _)

theorem Runs.post_leave (h : (m.blocks m.writeEnd).doneWrite ≠ 1) (k : PostCaller) :
    Runs blockSize m (.next (.postBlock k .load)) m k.resume := by
  refine .step (.loadWriteEnd k) ?_
  exact .step (.leavePost k m.writeEnd h) (.refl _ _)

theorem Runs.return_round (h : (m.blocks m.readEnd).doneRead = 1) (k : ReturnCaller) :
    Runs blockSize m (.next (.returnBlock k .load)) (returnRound m)
      (.next (.returnBlock k .load)) := by
  have hnext := m.get_setBlock Block.next (b := m.readEnd)
    (f := fun blk => { blk with doneRead := 0 }) (fun _ => rfl) m.readEnd
  have hprev := m.get_setBlock Block.prev (b := m.readEnd)
    (f := fun blk => { blk with doneRead := 0 }) (fun _ => rfl) m.readEnd
  refine .step (.loadReadEnd k) ?_
  refine .step (.takeDoneRead k m.readEnd h) ?_
  refine .step (.retire k m.readEnd rfl) ?_
  rw [hnext]
  unfold returnRound
  by_cases htest : (m.blocks m.readEnd).prev = m.writeStart
  · rw [if_pos htest]
    refine .step (.testWriteStart k m.readEnd (hprev.trans htest)) ?_
    refine .step (.setAvail k) ?_
    exact .step (.broadcastAvail k) (.refl _ _)
  · rw [if_neg htest]
    refine .step (.testWriteStartNe k m.readEnd ?_) (.refl _ _)
    exact fun heq => htest (hprev.symm.trans heq)

theorem Runs.return_leave (h : (m.blocks m.readEnd).doneRead ≠ 1) (k : ReturnCaller) :
    Runs blockSize m (.next (.returnBlock k .load)) m k.resume := by
  refine .step (.loadReadEnd k) ?_
  exact .step (.leaveReturn k m.readEnd h) (.refl _ _)

/-- The loop in `post_block` goes round until it finds a flag down. -/
theorem Runs.post_rounds (h : ReflTransGen PostRound m m')
    (hdown : (m'.blocks m'.writeEnd).doneWrite ≠ 1) (k : PostCaller) :
    Runs blockSize m (.next (.postBlock k .load)) m' k.resume := by
  induction h using ReflTransGen.head_induction_on with
  | refl => exact .post_leave blockSize hdown k
  | head round rest ih =>
      obtain ⟨hup, rfl⟩ := round
      exact (Runs.post_round blockSize hup k).trans ih

/-- The loop in `return_block` goes round until it finds a flag down. -/
theorem Runs.return_rounds (h : ReflTransGen ReturnRound m m')
    (hdown : (m'.blocks m'.readEnd).doneRead ≠ 1) (k : ReturnCaller) :
    Runs blockSize m (.next (.returnBlock k .load)) m' k.resume := by
  induction h using ReflTransGen.head_induction_on with
  | refl => exact .return_leave blockSize hdown k
  | head round rest ih =>
      obtain ⟨hup, rfl⟩ := round
      exact (Runs.return_round blockSize hup k).trans ih

end AtomicMessageQueue
