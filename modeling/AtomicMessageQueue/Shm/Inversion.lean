import AtomicMessageQueue.Shm.Queue

/-! # What one shared access can do

`CodeStep` lists the accesses of the queue's methods with their guards and results, one constructor
for each branch, so that an invariant is proved by cases on it and never unfolds the step functions.
-/

namespace AtomicMessageQueue

open Function

/-- One shared access of the queue's methods: the buffer and program point before; the buffer, place
and mark after. -/
inductive CodeStep (blockSize : ℕ) (wait : WaitStep) (w : WaitEnd) (m : MemBuff) :
    Pc → MemBuff → Out Pc Ret → Option Mark → Prop
  -- `get_block_write`
  | loadWriteStart (k) :
      CodeStep blockSize wait w m (.getBlockWrite k .load) m
        (.next (.getBlockWrite k (.test m.writeStart))) none
  | full (k) (i : ℕ) (h : (m.blocks i).next = m.readEnd) :
      CodeStep blockSize wait w m (.getBlockWrite k (.test i)) m
        (.next (.getBlockWrite k (.wait .test))) none
  | room (k) (i : ℕ) (h : (m.blocks i).next ≠ m.readEnd) :
      CodeStep blockSize wait w m (.getBlockWrite k (.test i)) m
        (.next (.getBlockWrite k (.cas i))) none
  | waitAvail (k) (pc pc' : WaitPc) (e : EventT) (h : wait w m.avail pc = some (e, .next pc')) :
      CodeStep blockSize wait w m (.getBlockWrite k (.wait pc)) { m with avail := e }
        (.next (.getBlockWrite k (.wait pc'))) none
  | retryWrite (k) (pc : WaitPc) (e : EventT) (r : ℤ) (hr : 0 < r)
      (h : wait w m.avail pc = some (e, .ret r)) :
      CodeStep blockSize wait w m (.getBlockWrite k (.wait pc)) { m with avail := e }
        (.next (.getBlockWrite k .load)) none
  | timeoutWrite (k : WriteCaller) (pc : WaitPc) (e : EventT) (r : ℤ) (hr : ¬ 0 < r)
      (h : wait w m.avail pc = some (e, .ret r)) :
      CodeStep blockSize wait w m (.getBlockWrite k (.wait pc)) { m with avail := e }
        (k.resume blockSize none) none
  | claim (k : WriteCaller) (i : ℕ) (h : m.writeStart = i) :
      CodeStep blockSize wait w m (.getBlockWrite k (.cas i))
        { m with writeStart := (m.blocks i).next } (k.resume blockSize (some i)) (some (.claim i))
  | claimLost (k) (i : ℕ) (h : m.writeStart ≠ i) :
      CodeStep blockSize wait w m (.getBlockWrite k (.cas i)) m (.next (.getBlockWrite k .load)) none
  -- `write`
  | copyIn (pBuff : ℕ → UInt8) (dwAmount b done : ℕ) (h : done < dwAmount) :
      CodeStep blockSize wait w m (.copyIn pBuff dwAmount b done)
        (m.setBlock b fun blk => { blk with data := update blk.data done (pBuff done) })
        (.next (.copyIn pBuff dwAmount b (done + 1))) none
  | copiedIn (pBuff : ℕ → UInt8) (dwAmount b done : ℕ) (h : ¬ done < dwAmount) :
      CodeStep blockSize wait w m (.copyIn pBuff dwAmount b done) m
        (.next (.storeAmount pBuff dwAmount b)) none
  | storeAmount (pBuff : ℕ → UInt8) (dwAmount b : ℕ) :
      CodeStep blockSize wait w m (.storeAmount pBuff dwAmount b)
        (m.setBlock b fun blk => { blk with amount := dwAmount })
        (.next (.postBlock (.write dwAmount) (.set b)))
        (some (.fill b ((List.range dwAmount).map pBuff)))
  | increment (dwAmount : ℕ) :
      CodeStep blockSize wait w m (.increment dwAmount)
        { m with msgCount := m.msgCount + 1 } (.ret (.wrote dwAmount)) (some (.increment dwAmount))
  -- `post_block`
  | setDoneWrite (k) (b : ℕ) :
      CodeStep blockSize wait w m (.postBlock k (.set b))
        (m.setBlock b fun blk => { blk with doneWrite := 1 })
        (.next (.postBlock k .load)) (some (.setDoneWrite b))
  | loadWriteEnd (k) :
      CodeStep blockSize wait w m (.postBlock k .load) m
        (.next (.postBlock k (.casDone m.writeEnd))) none
  | takeDoneWrite (k) (i : ℕ) (h : (m.blocks i).doneWrite = 1) :
      CodeStep blockSize wait w m (.postBlock k (.casDone i))
        (m.setBlock i fun blk => { blk with doneWrite := 0 })
        (.next (.postBlock k (.casEnd i))) (some (.takeDoneWrite i))
  | leavePost (k : PostCaller) (i : ℕ) (h : (m.blocks i).doneWrite ≠ 1) :
      CodeStep blockSize wait w m (.postBlock k (.casDone i)) m k.resume none
  | publish (k) (i : ℕ) (h : m.writeEnd = i) :
      CodeStep blockSize wait w m (.postBlock k (.casEnd i))
        { m with writeEnd := (m.blocks i).next } (.next (.postBlock k (.test i)))
        (some (.publish i (m.blocks i).contents))
  | publishMissed (k) (i : ℕ) (h : m.writeEnd ≠ i) :
      CodeStep blockSize wait w m (.postBlock k (.casEnd i)) m (.next (.postBlock k (.test i))) none
  | testReadStart (k) (i : ℕ) (h : i = m.readStart) :
      CodeStep blockSize wait w m (.postBlock k (.test i)) m (.next (.postBlock k .setEvent)) none
  | testReadStartNe (k) (i : ℕ) (h : i ≠ m.readStart) :
      CodeStep blockSize wait w m (.postBlock k (.test i)) m (.next (.postBlock k .load)) none
  | setSignal (k) :
      CodeStep blockSize wait w m (.postBlock k .setEvent) { m with signal := m.signal.setState }
        (.next (.postBlock k .broadcast)) none
  | broadcastSignal (k) :
      CodeStep blockSize wait w m (.postBlock k .broadcast)
        { m with signal := m.signal.broadcast } (.next (.postBlock k .load)) none
  -- `get_block_read`
  | loadReadStart (k) :
      CodeStep blockSize wait w m (.getBlockRead k .load) m
        (.next (.getBlockRead k (.test m.readStart))) none
  | emptyWait (k : ReadCaller) (i : ℕ) (h : i = m.writeEnd) (ht : 0 < k.msTimeout) :
      CodeStep blockSize wait w m (.getBlockRead k (.test i)) m
        (.next (.getBlockRead k (.wait .test))) none
  | emptyReturn (k : ReadCaller) (i : ℕ) (h : i = m.writeEnd) (ht : ¬ 0 < k.msTimeout) :
      CodeStep blockSize wait w m (.getBlockRead k (.test i)) m (k.resume none) none
  | message (k) (i : ℕ) (h : i ≠ m.writeEnd) :
      CodeStep blockSize wait w m (.getBlockRead k (.test i)) m
        (.next (.getBlockRead k (.cas i))) none
  | waitSignal (k) (pc pc' : WaitPc) (e : EventT) (h : wait w m.signal pc = some (e, .next pc')) :
      CodeStep blockSize wait w m (.getBlockRead k (.wait pc)) { m with signal := e }
        (.next (.getBlockRead k (.wait pc'))) none
  | retryRead (k) (pc : WaitPc) (e : EventT) (r : ℤ) (hr : 0 < r)
      (h : wait w m.signal pc = some (e, .ret r)) :
      CodeStep blockSize wait w m (.getBlockRead k (.wait pc)) { m with signal := e }
        (.next (.getBlockRead k .load)) none
  | timeoutRead (k : ReadCaller) (pc : WaitPc) (e : EventT) (r : ℤ) (hr : ¬ 0 < r)
      (h : wait w m.signal pc = some (e, .ret r)) :
      CodeStep blockSize wait w m (.getBlockRead k (.wait pc)) { m with signal := e }
        (k.resume none) none
  | take (k : ReadCaller) (i : ℕ) (h : m.readStart = i) :
      CodeStep blockSize wait w m (.getBlockRead k (.cas i))
        { m with readStart := (m.blocks i).next } (k.resume (some i))
        (some (.take i (m.blocks i).contents))
  | takeLost (k) (i : ℕ) (h : m.readStart ≠ i) :
      CodeStep blockSize wait w m (.getBlockRead k (.cas i)) m (.next (.getBlockRead k .load)) none
  -- `read`
  | skip (buffSize : ℕ) (ms : ℤ) (b : ℕ) (h : (m.blocks b).amount = 0) :
      CodeStep blockSize wait w m (.loadAmount buffSize ms b) m
        (.next (.returnBlock (.again buffSize ms) (.set b))) none
  | loadAmount (buffSize : ℕ) (ms : ℤ) (b : ℕ) (h : (m.blocks b).amount ≠ 0) :
      CodeStep blockSize wait w m (.loadAmount buffSize ms b) m (.next (.loadMin buffSize b)) none
  | minBuffSize (buffSize b : ℕ) (h : buffSize < (m.blocks b).amount) :
      CodeStep blockSize wait w m (.loadMin buffSize b) m
        (.next (.copyOut buffSize buffSize b [])) none
  | minAmount (buffSize b : ℕ) (h : ¬ buffSize < (m.blocks b).amount) :
      CodeStep blockSize wait w m (.loadMin buffSize b) m (.next (.loadDwAmount buffSize b)) none
  | loadDwAmount (buffSize b : ℕ) :
      CodeStep blockSize wait w m (.loadDwAmount buffSize b) m
        (.next (.copyOut buffSize (m.blocks b).amount b [])) none
  | copyOut (buffSize dwAmount b : ℕ) (bytes : List UInt8) (h : bytes.length < dwAmount) :
      CodeStep blockSize wait w m (.copyOut buffSize dwAmount b bytes) m
        (.next (.copyOut buffSize dwAmount b (bytes ++ [(m.blocks b).data bytes.length]))) none
  | copiedOut (buffSize dwAmount b : ℕ) (bytes : List UInt8) (h : ¬ bytes.length < dwAmount) :
      CodeStep blockSize wait w m (.copyOut buffSize dwAmount b bytes) m
        (.next (.returnBlock (.read bytes) (.set b))) (some (.copied buffSize bytes))
  | decrement (bytes : List UInt8) :
      CodeStep blockSize wait w m (.decrement bytes)
        { m with msgCount := m.msgCount - 1 } (.ret (.got bytes)) (some .decrement)
  -- `return_block`
  | setDoneRead (k) (b : ℕ) :
      CodeStep blockSize wait w m (.returnBlock k (.set b))
        (m.setBlock b fun blk => { blk with doneRead := 1 })
        (.next (.returnBlock k (.clear b))) (some (.setDoneRead b))
  | clearAmount (k) (b : ℕ) :
      CodeStep blockSize wait w m (.returnBlock k (.clear b))
        (m.setBlock b fun blk => { blk with amount := 0 }) (.next (.returnBlock k .load)) none
  | loadReadEnd (k) :
      CodeStep blockSize wait w m (.returnBlock k .load) m
        (.next (.returnBlock k (.casDone m.readEnd))) none
  | takeDoneRead (k) (i : ℕ) (h : (m.blocks i).doneRead = 1) :
      CodeStep blockSize wait w m (.returnBlock k (.casDone i))
        (m.setBlock i fun blk => { blk with doneRead := 0 })
        (.next (.returnBlock k (.casEnd i))) (some (.takeDoneRead i))
  | leaveReturn (k : ReturnCaller) (i : ℕ) (h : (m.blocks i).doneRead ≠ 1) :
      CodeStep blockSize wait w m (.returnBlock k (.casDone i)) m k.resume none
  | retire (k) (i : ℕ) (h : m.readEnd = i) :
      CodeStep blockSize wait w m (.returnBlock k (.casEnd i))
        { m with readEnd := (m.blocks i).next } (.next (.returnBlock k (.test i)))
        (some (.retire i))
  | retireMissed (k) (i : ℕ) (h : m.readEnd ≠ i) :
      CodeStep blockSize wait w m (.returnBlock k (.casEnd i)) m (.next (.returnBlock k (.test i)))
        none
  | testWriteStart (k) (i : ℕ) (h : (m.blocks i).prev = m.writeStart) :
      CodeStep blockSize wait w m (.returnBlock k (.test i)) m (.next (.returnBlock k .setEvent))
        none
  | testWriteStartNe (k) (i : ℕ) (h : (m.blocks i).prev ≠ m.writeStart) :
      CodeStep blockSize wait w m (.returnBlock k (.test i)) m (.next (.returnBlock k .load)) none
  | setAvail (k) :
      CodeStep blockSize wait w m (.returnBlock k .setEvent) { m with avail := m.avail.setState }
        (.next (.returnBlock k .broadcast)) none
  | broadcastAvail (k) :
      CodeStep blockSize wait w m (.returnBlock k .broadcast)
        { m with avail := m.avail.broadcast } (.next (.returnBlock k .load)) none

variable {blockSize : ℕ} {wait : WaitStep} {w : WaitEnd} {m m' : MemBuff} {pc : Pc}
  {o : Out Pc Ret} {mk : Option Mark}

private theorem getBlockWrite_inv {k : WriteCaller} {p : GetBlockWritePc}
    (h : codeStep blockSize wait w m (.getBlockWrite k p) = some (m', o, mk)) :
    CodeStep blockSize wait w m (.getBlockWrite k p) m' o mk := by
  simp only [codeStep, Option.map_eq_some_iff] at h
  obtain ⟨⟨m₁, o₁, mk₁⟩, hstep, heq⟩ := h
  obtain ⟨rfl, rfl, rfl⟩ : m₁ = m' ∧ o₁.inside (.getBlockWrite k) (k.resume blockSize) = o ∧
      mk₁ = mk := by simpa using heq
  cases p with
  | load =>
      obtain ⟨rfl, rfl, rfl⟩ : m = m₁ ∧ Out.next (.test m.writeStart) = o₁ ∧ none = mk₁ := by
        simpa [getBlockWriteStep] using hstep
      exact .loadWriteStart k
  | test i =>
      simp only [getBlockWriteStep] at hstep
      split at hstep <;> (simp only [Option.some.injEq, Prod.mk.injEq] at hstep
                          obtain ⟨rfl, rfl, rfl⟩ := hstep)
      · exact .full k i ‹_›
      · exact .room k i ‹_›
  | wait p =>
      simp only [getBlockWriteStep, Option.map_eq_some_iff] at hstep
      obtain ⟨⟨e, p' | r⟩, hwait, heq⟩ := hstep <;> simp only [Prod.mk.injEq] at heq <;>
        obtain ⟨rfl, rfl, rfl⟩ := heq
      · exact .waitAvail k p p' e hwait
      · split
        · exact .retryWrite k p e r ‹_› hwait
        · exact .timeoutWrite k p e r ‹_› hwait
  | cas i =>
      simp only [getBlockWriteStep] at hstep
      split at hstep <;> (simp only [Option.some.injEq, Prod.mk.injEq] at hstep
                          obtain ⟨rfl, rfl, rfl⟩ := hstep)
      · exact .claim k i ‹_›
      · exact .claimLost k i ‹_›

private theorem postBlock_inv {k : PostCaller} {p : PostBlockPc}
    (h : codeStep blockSize wait w m (.postBlock k p) = some (m', o, mk)) :
    CodeStep blockSize wait w m (.postBlock k p) m' o mk := by
  obtain ⟨rfl, rfl, rfl⟩ : (postBlockStep m p).1 = m' ∧
      (postBlockStep m p).2.1.inside (.postBlock k) (fun _ => k.resume) = o ∧
      (postBlockStep m p).2.2 = mk := by simpa [codeStep] using h
  cases p with
  | set b => exact .setDoneWrite k b
  | load => exact .loadWriteEnd k
  | casDone i =>
      simp only [postBlockStep]
      split
      · exact .takeDoneWrite k i ‹_›
      · exact .leavePost k i ‹_›
  | casEnd i =>
      simp only [postBlockStep]
      split
      · exact .publish k i ‹_›
      · exact .publishMissed k i ‹_›
  | test i =>
      simp only [postBlockStep]
      split
      · exact .testReadStart k i ‹_›
      · exact .testReadStartNe k i ‹_›
  | setEvent => exact .setSignal k
  | broadcast => exact .broadcastSignal k

private theorem getBlockRead_inv {k : ReadCaller} {p : GetBlockReadPc}
    (h : codeStep blockSize wait w m (.getBlockRead k p) = some (m', o, mk)) :
    CodeStep blockSize wait w m (.getBlockRead k p) m' o mk := by
  simp only [codeStep, Option.map_eq_some_iff] at h
  obtain ⟨⟨m₁, o₁, mk₁⟩, hstep, heq⟩ := h
  obtain ⟨rfl, rfl, rfl⟩ : m₁ = m' ∧ o₁.inside (.getBlockRead k) k.resume = o ∧ mk₁ = mk := by
    simpa using heq
  cases p with
  | load =>
      obtain ⟨rfl, rfl, rfl⟩ : m = m₁ ∧ Out.next (.test m.readStart) = o₁ ∧ none = mk₁ := by
        simpa [getBlockReadStep] using hstep
      exact .loadReadStart k
  | test i =>
      simp only [getBlockReadStep] at hstep
      split at hstep <;> (simp only [Option.some.injEq, Prod.mk.injEq] at hstep
                          obtain ⟨rfl, rfl, rfl⟩ := hstep)
      · split
        · exact .emptyWait k i ‹_› ‹_›
        · exact .emptyReturn k i ‹_› ‹_›
      · exact .message k i ‹_›
  | wait p =>
      simp only [getBlockReadStep, Option.map_eq_some_iff] at hstep
      obtain ⟨⟨e, p' | r⟩, hwait, heq⟩ := hstep <;> simp only [Prod.mk.injEq] at heq <;>
        obtain ⟨rfl, rfl, rfl⟩ := heq
      · exact .waitSignal k p p' e hwait
      · split
        · exact .retryRead k p e r ‹_› hwait
        · exact .timeoutRead k p e r ‹_› hwait
  | cas i =>
      simp only [getBlockReadStep] at hstep
      split at hstep <;> (simp only [Option.some.injEq, Prod.mk.injEq] at hstep
                          obtain ⟨rfl, rfl, rfl⟩ := hstep)
      · exact .take k i ‹_›
      · exact .takeLost k i ‹_›

private theorem returnBlock_inv {k : ReturnCaller} {p : ReturnBlockPc}
    (h : codeStep blockSize wait w m (.returnBlock k p) = some (m', o, mk)) :
    CodeStep blockSize wait w m (.returnBlock k p) m' o mk := by
  obtain ⟨rfl, rfl, rfl⟩ : (returnBlockStep m p).1 = m' ∧
      (returnBlockStep m p).2.1.inside (.returnBlock k) (fun _ => k.resume) = o ∧
      (returnBlockStep m p).2.2 = mk := by simpa [codeStep] using h
  cases p with
  | set b => exact .setDoneRead k b
  | clear b => exact .clearAmount k b
  | load => exact .loadReadEnd k
  | casDone i =>
      simp only [returnBlockStep]
      split
      · exact .takeDoneRead k i ‹_›
      · exact .leaveReturn k i ‹_›
  | casEnd i =>
      simp only [returnBlockStep]
      split
      · exact .retire k i ‹_›
      · exact .retireMissed k i ‹_›
  | test i =>
      simp only [returnBlockStep]
      split
      · exact .testWriteStart k i ‹_›
      · exact .testWriteStartNe k i ‹_›
  | setEvent => exact .setAvail k
  | broadcast => exact .broadcastAvail k

/-- Every access the step function performs is listed in `CodeStep`. -/
theorem codeStep_inv (h : codeStep blockSize wait w m pc = some (m', o, mk)) :
    CodeStep blockSize wait w m pc m' o mk := by
  cases pc with
  | getBlockWrite k p => exact getBlockWrite_inv h
  | postBlock k p => exact postBlock_inv h
  | getBlockRead k p => exact getBlockRead_inv h
  | returnBlock k p => exact returnBlock_inv h
  | copyIn pBuff dwAmount b done =>
      simp only [codeStep] at h
      split at h <;> (simp only [Option.some.injEq, Prod.mk.injEq] at h
                      obtain ⟨rfl, rfl, rfl⟩ := h)
      · exact .copyIn pBuff dwAmount b done ‹_›
      · exact .copiedIn pBuff dwAmount b done ‹_›
  | copyOut buffSize dwAmount b bytes =>
      simp only [codeStep] at h
      split at h <;> (simp only [Option.some.injEq, Prod.mk.injEq] at h
                      obtain ⟨rfl, rfl, rfl⟩ := h)
      · exact .copyOut buffSize dwAmount b bytes ‹_›
      · exact .copiedOut buffSize dwAmount b bytes ‹_›
  | loadAmount buffSize ms b =>
      simp only [codeStep, Option.some.injEq, Prod.mk.injEq] at h
      obtain ⟨rfl, rfl, rfl⟩ := h
      split
      · exact .skip buffSize ms b ‹_›
      · exact .loadAmount buffSize ms b ‹_›
  | storeAmount pBuff dwAmount b =>
      simp only [codeStep, Option.some.injEq, Prod.mk.injEq] at h
      obtain ⟨rfl, rfl, rfl⟩ := h
      exact .storeAmount pBuff dwAmount b
  | increment dwAmount =>
      simp only [codeStep, Option.some.injEq, Prod.mk.injEq] at h
      obtain ⟨rfl, rfl, rfl⟩ := h
      exact .increment dwAmount
  | loadMin buffSize b =>
      simp only [codeStep, Option.some.injEq, Prod.mk.injEq] at h
      obtain ⟨rfl, rfl, rfl⟩ := h
      split
      · exact .minBuffSize buffSize b ‹_›
      · exact .minAmount buffSize b ‹_›
  | loadDwAmount buffSize b =>
      simp only [codeStep, Option.some.injEq, Prod.mk.injEq] at h
      obtain ⟨rfl, rfl, rfl⟩ := h
      exact .loadDwAmount buffSize b
  | decrement bytes =>
      simp only [codeStep, Option.some.injEq, Prod.mk.injEq] at h
      obtain ⟨rfl, rfl, rfl⟩ := h
      exact .decrement bytes

/-- Every access listed in `CodeStep` is the one the step function performs. -/
theorem CodeStep.eq (h : CodeStep blockSize wait w m pc m' o mk) :
    codeStep blockSize wait w m pc = some (m', o, mk) := by
  cases h with
  | timeoutWrite k p e r hr h =>
      simp only [codeStep, getBlockWriteStep, h, Option.map_some, if_neg hr, Out.inside]
  | emptyReturn k i h ht =>
      simp only [codeStep, getBlockReadStep, if_pos h, if_neg ht, Option.map_some, Out.inside]
  | timeoutRead k p e r hr h =>
      simp only [codeStep, getBlockReadStep, h, Option.map_some, if_neg hr, Out.inside]
  | _ =>
      simp [codeStep, getBlockWriteStep, postBlockStep, getBlockReadStep, returnBlockStep,
        Out.inside, *]

end AtomicMessageQueue
