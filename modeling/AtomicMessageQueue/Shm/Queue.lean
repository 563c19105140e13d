import AtomicMessageQueue.Shm.Events

/-! # The queue operations, access by access

Reference: `shmIPC.h`, `ShmQueue::get_block_write`, `post_block`, `get_block_read`, `return_block`,
`write` and `read`. Each operation is a set of program points and a step function that performs the
shared access at that point. `Next` and `Prev` are written by `create` only, so reading a link is part
of the access that uses it. A `Mark` names what a step did to the ring, for the history of a run; no
step reads it.
-/

namespace AtomicMessageQueue

/-- What a step did that a history records. The block is the one concerned. -/
inductive Mark
  /-- the CAS on `m_writeStart` handed out `b` -/
  | claim (b : ℕ)
  /-- `write` stored `Amount` after the bytes `msg`, the first `dwAmount` of its buffer -/
  | fill (b : ℕ) (msg : List UInt8)
  /-- `post_block` set `doneWrite` -/
  | setDoneWrite (b : ℕ)
  /-- the CAS on `doneWrite` took the flag down -/
  | takeDoneWrite (b : ℕ)
  /-- the CAS on `m_writeEnd` moved it past `b`, which held the bytes `msg` -/
  | publish (b : ℕ) (msg : List UInt8)
  /-- `incrementCount`, after which `write` returns `n` -/
  | increment (n : ℕ)
  /-- the CAS on `m_readStart` handed out `b`, which held the bytes `msg` -/
  | take (b : ℕ) (msg : List UInt8)
  /-- `read` copied `bytes` out of its block into a buffer of `buffSize` bytes -/
  | copied (buffSize : ℕ) (bytes : List UInt8)
  /-- `return_block` set `doneRead` -/
  | setDoneRead (b : ℕ)
  /-- the CAS on `doneRead` took the flag down -/
  | takeDoneRead (b : ℕ)
  /-- the CAS on `m_readEnd` moved it past `b` -/
  | retire (b : ℕ)
  /-- `decrementCount` -/
  | decrement
deriving DecidableEq

/-- The effect of one step: the buffer, where the operation stands, and the mark. -/
abbrev Effect (π ρ : Type*) := MemBuff × Out π ρ × Option Mark

/-! ## `get_block_write` and `post_block` -/

/-- Program points of `get_block_write`. -/
inductive GetBlockWritePc
  /-- `long blockIndex = m_pBuffer->m_writeStart;` -/
  | load
  /-- `if (pBlock->Next == m_pBuffer->m_readEnd)` -/
  | test (blockIndex : ℕ)
  /-- inside `WaitForEvent(&m_pBuffer->m_avail, ..)` -/
  | wait (pc : WaitPc)
  /-- `__sync_val_compare_and_swap(&m_pBuffer->m_writeStart, blockIndex, pBlock->Next)` -/
  | cas (blockIndex : ℕ)
deriving DecidableEq

/-- `get_block_write`; it returns the block index, or nothing on a timeout. -/
def getBlockWriteStep (wait : WaitStep) (w : WaitEnd) (m : MemBuff) :
    GetBlockWritePc → Option (Effect GetBlockWritePc (Option ℕ))
  | .load => some (m, .next (.test m.writeStart), none)
  | .test blockIndex =>
      if (m.blocks blockIndex).next = m.readEnd then some (m, .next (.wait .test), none)
      else some (m, .next (.cas blockIndex), none)
  | .wait pc =>
      (wait w m.avail pc).map fun
        | (e, .next pc') => ({ m with avail := e }, .next (.wait pc'), none)
        | (e, .ret r) =>
            ({ m with avail := e }, if 0 < r then .next .load else .ret none, none)
  | .cas blockIndex =>
      if m.writeStart = blockIndex then
        some ({ m with writeStart := (m.blocks blockIndex).next }, .ret (some blockIndex),
          some (.claim blockIndex))
      else some (m, .next .load, none)

/-- Program points of `post_block`. -/
inductive PostBlockPc
  /-- `pBlock->doneWrite = 1;` -/
  | set (b : ℕ)
  /-- `uint32_t blockIndex = m_pBuffer->m_writeEnd;` -/
  | load
  /-- `__sync_val_compare_and_swap(&pBlock->doneWrite, 1, 0)` -/
  | casDone (blockIndex : ℕ)
  /-- `__sync_bool_compare_and_swap(&m_pBuffer->m_writeEnd, blockIndex, pBlock->Next)` -/
  | casEnd (blockIndex : ℕ)
  /-- `if (blockIndex == m_pBuffer->m_readStart)` -/
  | test (blockIndex : ℕ)
  /-- `SetEvent(&m_pBuffer->m_signal)`, its CAS -/
  | setEvent
  /-- `SetEvent(&m_pBuffer->m_signal)`, its broadcast -/
  | broadcast
deriving DecidableEq

/-- `post_block`. -/
def postBlockStep (m : MemBuff) : PostBlockPc → Effect PostBlockPc Unit
  | .set b =>
      (m.setBlock b fun blk => { blk with doneWrite := 1 }, .next .load, some (.setDoneWrite b))
  | .load => (m, .next (.casDone m.writeEnd), none)
  | .casDone blockIndex =>
      if (m.blocks blockIndex).doneWrite = 1 then
        (m.setBlock blockIndex fun blk => { blk with doneWrite := 0 }, .next (.casEnd blockIndex),
          some (.takeDoneWrite blockIndex))
      else (m, .ret (), none)
  | .casEnd blockIndex =>
      if m.writeEnd = blockIndex then
        ({ m with writeEnd := (m.blocks blockIndex).next }, .next (.test blockIndex),
          some (.publish blockIndex (m.blocks blockIndex).contents))
      else (m, .next (.test blockIndex), none)
  | .test blockIndex =>
      (m, .next (if blockIndex = m.readStart then .setEvent else .load), none)
  | .setEvent => ({ m with signal := m.signal.setState }, .next .broadcast, none)
  | .broadcast => ({ m with signal := m.signal.broadcast }, .next .load, none)

/-! ## `get_block_read` and `return_block` -/

/-- Program points of `get_block_read`. -/
inductive GetBlockReadPc
  /-- `uint32_t blockIndex = m_pBuffer->m_readStart;` -/
  | load
  /-- `if (blockIndex == m_pBuffer->m_writeEnd)` -/
  | test (blockIndex : ℕ)
  /-- inside `WaitForEvent(&m_pBuffer->m_signal, ..)` -/
  | wait (pc : WaitPc)
  /-- `__sync_val_compare_and_swap(&m_pBuffer->m_readStart, blockIndex, pBlock->Next)` -/
  | cas (blockIndex : ℕ)
deriving DecidableEq

/-- `get_block_read`; it returns the block index, or nothing on a timeout. Unlike
`get_block_write` it does not wait at all unless `msTimeout` is positive. -/
def getBlockReadStep (wait : WaitStep) (msTimeout : ℤ) (w : WaitEnd) (m : MemBuff) :
    GetBlockReadPc → Option (Effect GetBlockReadPc (Option ℕ))
  | .load => some (m, .next (.test m.readStart), none)
  | .test blockIndex =>
      if blockIndex = m.writeEnd then
        some (m, if 0 < msTimeout then .next (.wait .test) else .ret none, none)
      else some (m, .next (.cas blockIndex), none)
  | .wait pc =>
      (wait w m.signal pc).map fun
        | (e, .next pc') => ({ m with signal := e }, .next (.wait pc'), none)
        | (e, .ret r) =>
            ({ m with signal := e }, if 0 < r then .next .load else .ret none, none)
  | .cas blockIndex =>
      if m.readStart = blockIndex then
        some ({ m with readStart := (m.blocks blockIndex).next }, .ret (some blockIndex),
          some (.take blockIndex (m.blocks blockIndex).contents))
      else some (m, .next .load, none)

/-- Program points of `return_block`. -/
inductive ReturnBlockPc
  /-- `pBlock->doneRead = 1;` -/
  | set (b : ℕ)
  /-- `pBlock->Amount = 0;` -/
  | clear (b : ℕ)
  /-- `uint32_t blockIndex = m_pBuffer->m_readEnd;` -/
  | load
  /-- `__sync_val_compare_and_swap(&pBlock->doneRead, 1, 0)` -/
  | casDone (blockIndex : ℕ)
  /-- `__sync_bool_compare_and_swap(&m_pBuffer->m_readEnd, blockIndex, pBlock->Next)` -/
  | casEnd (blockIndex : ℕ)
  /-- `if (pBlock->Prev == m_pBuffer->m_writeStart)` -/
  | test (blockIndex : ℕ)
  /-- `SetEvent(&m_pBuffer->m_avail)`, its CAS -/
  | setEvent
  /-- `SetEvent(&m_pBuffer->m_avail)`, its broadcast -/
  | broadcast
deriving DecidableEq

/-- `return_block`. -/
def returnBlockStep (m : MemBuff) : ReturnBlockPc → Effect ReturnBlockPc Unit
  | .set b =>
      (m.setBlock b fun blk => { blk with doneRead := 1 }, .next (.clear b), some (.setDoneRead b))
  | .clear b => (m.setBlock b fun blk => { blk with amount := 0 }, .next .load, none)
  | .load => (m, .next (.casDone m.readEnd), none)
  | .casDone blockIndex =>
      if (m.blocks blockIndex).doneRead = 1 then
        (m.setBlock blockIndex fun blk => { blk with doneRead := 0 }, .next (.casEnd blockIndex),
          some (.takeDoneRead blockIndex))
      else (m, .ret (), none)
  | .casEnd blockIndex =>
      if m.readEnd = blockIndex then
        ({ m with readEnd := (m.blocks blockIndex).next }, .next (.test blockIndex),
          some (.retire blockIndex))
      else (m, .next (.test blockIndex), none)
  | .test blockIndex =>
      (m, .next (if (m.blocks blockIndex).prev = m.writeStart then .setEvent else .load), none)
  | .setEvent => ({ m with avail := m.avail.setState }, .next .broadcast, none)
  | .broadcast => ({ m with avail := m.avail.broadcast }, .next .load, none)

/-! ## `write` and `read` -/

/-- Who called `get_block_write`: a holder of blocks, or `write` with its arguments. -/
inductive WriteCaller
  | holder
  | write (pBuff : ℕ → UInt8) (amount : ℕ)

/-- Who called `post_block`: a holder of blocks, or `write`, which returns `dwAmount` next. -/
inductive PostCaller
  | holder
  | write (dwAmount : ℕ)
deriving DecidableEq

/-- Who called `get_block_read`: a holder of blocks, or `read` with its arguments. -/
inductive ReadCaller
  | holder (msTimeout : ℤ)
  | read (buffSize : ℕ) (msTimeout : ℤ)
deriving DecidableEq

/-- The timeout `get_block_read` was given. -/
def ReadCaller.msTimeout : ReadCaller → ℤ
  | .holder ms => ms
  | .read _ ms => ms

/-- Who called `return_block`: a holder of blocks, `read` at an empty block, after which it goes
round its loop again, or `read` with the bytes it has copied. -/
inductive ReturnCaller
  | holder
  | again (buffSize : ℕ) (msTimeout : ℤ)
  | read (bytes : List UInt8)
deriving DecidableEq

/-- The calls a thread can make. -/
inductive Call
  | getBlockWrite
  | postBlock (b : ℕ)
  | getBlockRead (msTimeout : ℤ)
  | returnBlock (b : ℕ)
  | write (pBuff : ℕ → UInt8) (amount : ℕ)
  | read (buffSize : ℕ) (msTimeout : ℤ)

/-- What a call returns. -/
inductive Ret
  | block (b : Option ℕ)
  | unit
  | wrote (n : ℕ)
  | got (bytes : List UInt8)
deriving DecidableEq

/-- Program points of a thread inside the queue's methods. -/
inductive Pc
  | getBlockWrite (k : WriteCaller) (pc : GetBlockWritePc)
  /-- `memcpy(pBlock->Data, pBuff, dwAmount)` with `done` bytes stored -/
  | copyIn (pBuff : ℕ → UInt8) (dwAmount b done : ℕ)
  /-- `pBlock->Amount = dwAmount;` -/
  | storeAmount (pBuff : ℕ → UInt8) (dwAmount b : ℕ)
  | postBlock (k : PostCaller) (pc : PostBlockPc)
  /-- `incrementCount();` -/
  | increment (dwAmount : ℕ)
  | getBlockRead (k : ReadCaller) (pc : GetBlockReadPc)
  /-- `amount = pBlock->Amount;` -/
  | loadAmount (buffSize : ℕ) (msTimeout : ℤ) (b : ℕ)
  /-- `std::min(pBlock->Amount, buffSize)`, which loads `Amount` to compare it and returns a reference -/
  | loadMin (buffSize b : ℕ)
  /-- `uint32_t dwAmount = ..`, which loads `Amount` once more where the reference is to it -/
  | loadDwAmount (buffSize b : ℕ)
  /-- `memcpy(pBuff, pBlock->Data, dwAmount)` with the bytes copied so far -/
  | copyOut (buffSize dwAmount b : ℕ) (bytes : List UInt8)
  | returnBlock (k : ReturnCaller) (pc : ReturnBlockPc)
  /-- `decrementCount();` -/
  | decrement (bytes : List UInt8)

/-- The first program point of a call. -/
def Call.enter : Call → Pc
  | .getBlockWrite => .getBlockWrite .holder .load
  | .postBlock b => .postBlock .holder (.set b)
  | .getBlockRead ms => .getBlockRead (.holder ms) .load
  | .returnBlock b => .returnBlock .holder (.set b)
  | .write pBuff amount => .getBlockWrite (.write pBuff amount) .load
  | .read buffSize ms => .getBlockRead (.read buffSize ms) .load

/-- Where the caller of `get_block_write` goes on with its result. `write` gives up on a timeout and
otherwise copies `std::min(amount, BLOCK_SIZE)` bytes. -/
def WriteCaller.resume (blockSize : ℕ) : WriteCaller → Option ℕ → Out Pc Ret
  | .holder, r => .ret (.block r)
  | .write _ _, none => .ret (.wrote 0)
  | .write pBuff amount, some b => .next (.copyIn pBuff (min amount blockSize) b 0)

/-- Where the caller of `post_block` goes on. -/
def PostCaller.resume : PostCaller → Out Pc Ret
  | .holder => .ret .unit
  | .write dwAmount => .next (.increment dwAmount)

/-- Where the caller of `get_block_read` goes on with its result. -/
def ReadCaller.resume : ReadCaller → Option ℕ → Out Pc Ret
  | .holder _, r => .ret (.block r)
  | .read _ _, none => .ret (.got [])
  | .read buffSize ms, some b => .next (.loadAmount buffSize ms b)

/-- Where the caller of `return_block` goes on. -/
def ReturnCaller.resume : ReturnCaller → Out Pc Ret
  | .holder => .ret .unit
  | .again buffSize ms => .next (.getBlockRead (.read buffSize ms) .load)
  | .read bytes => .next (.decrement bytes)

/-- A step of a callee inside a caller: its program points are wrapped, its result resumed. -/
def Out.inside {π ρ : Type*} (wrap : π → Pc) (resume : ρ → Out Pc Ret) : Out π ρ → Out Pc Ret
  | .next pc => .next (wrap pc)
  | .ret r => resume r

/-- One shared access of a thread at `pc`. No result means that it is blocked in a wait. -/
def codeStep (blockSize : ℕ) (wait : WaitStep) (w : WaitEnd) (m : MemBuff) :
    Pc → Option (Effect Pc Ret)
  | .getBlockWrite k pc =>
      (getBlockWriteStep wait w m pc).map fun (m', o, mk) =>
        (m', o.inside (.getBlockWrite k) (k.resume blockSize), mk)
  | .copyIn pBuff dwAmount b done =>
      if done < dwAmount then
        some (m.setBlock b fun blk =>
            { blk with data := Function.update blk.data done (pBuff done) },
          .next (.copyIn pBuff dwAmount b (done + 1)), none)
      else some (m, .next (.storeAmount pBuff dwAmount b), none)
  | .storeAmount pBuff dwAmount b =>
      some (m.setBlock b fun blk => { blk with amount := dwAmount },
        .next (.postBlock (.write dwAmount) (.set b)),
        some (.fill b ((List.range dwAmount).map pBuff)))
  | .postBlock k pc =>
      let (m', o, mk) := postBlockStep m pc
      some (m', o.inside (.postBlock k) fun _ => k.resume, mk)
  | .increment dwAmount =>
      some ({ m with msgCount := m.msgCount + 1 }, .ret (.wrote dwAmount),
        some (.increment dwAmount))
  | .getBlockRead k pc =>
      (getBlockReadStep wait k.msTimeout w m pc).map fun (m', o, mk) =>
        (m', o.inside (.getBlockRead k) k.resume, mk)
  | .loadAmount buffSize ms b =>
      -- `read` skips an empty block: it returns it and looks for another
      some (m, .next (if (m.blocks b).amount = 0 then .returnBlock (.again buffSize ms) (.set b)
        else .loadMin buffSize b), none)
  | .loadMin buffSize b =>
      -- `buffSize < Amount` is what `std::min` tests; its reference to `Amount` is read by the next access
      some (m, .next (if buffSize < (m.blocks b).amount then .copyOut buffSize buffSize b []
        else .loadDwAmount buffSize b), none)
  | .loadDwAmount buffSize b =>
      some (m, .next (.copyOut buffSize (m.blocks b).amount b []), none)
  | .copyOut buffSize dwAmount b bytes =>
      if bytes.length < dwAmount then
        some (m, .next (.copyOut buffSize dwAmount b
          (bytes ++ [(m.blocks b).data bytes.length])), none)
      else some (m, .next (.returnBlock (.read bytes) (.set b)), some (.copied buffSize bytes))
  | .returnBlock k pc =>
      let (m', o, mk) := returnBlockStep m pc
      some (m', o.inside (.returnBlock k) fun _ => k.resume, mk)
  | .decrement bytes =>
      some ({ m with msgCount := m.msgCount - 1 }, .ret (.got bytes), some .decrement)

end AtomicMessageQueue
