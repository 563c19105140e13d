import AtomicMessageQueue.Client.Connect
import AtomicMessageQueue.Lib.NamedObjects
import AtomicMessageQueue.Sequential.Closed

/-! # Queues by name

Reference: `shmIPC.h`, `ShmQueue(std::string)`, `create`, `disconnect`, `close` and `removeOldQueues`. Any
number of `ShmQueue` objects, in any processes, are constructed on paths, used and left, one call at a time
and with every system call succeeding. A path stands for the shared memory object that its name was last
given to. Neither `disconnect` nor `close` takes the name away, so a queue that has been closed is found
again, with its messages; `removeOldQueues` does, and whoever has the old queue mapped keeps it.
-/

namespace AtomicMessageQueue

open Function Simulation NamedObjects

/-- What is done with a `ShmQueue` once it has been constructed. -/
inductive QueueCall
  | exchange (x : Exchange)
  | disconnect
  | close

/-- After these the buffer is not mapped any more. -/
def QueueCall.unmaps : QueueCall → Bool
  | .exchange _ => false
  | .disconnect => true
  | .close => true

/-- The calls on a shared memory object. -/
def SegmentStep (blockSize : ℕ) (seg : Segment) : QueueCall → Segment → Prop
  | .exchange x, seg' => ∃ m, CallStep blockSize seg.mem x m ∧ seg' = { seg with mem := m }
  | .disconnect, seg' => seg' = seg
  | .close, seg' => seg' = { seg with mem := seg.mem.close }

/-- Shared memory objects; one that `shm_open` has just made is empty. The constructor returns with the
buffer mapped, or `create` has failed; the status that the first `create` leaves open is not -1. -/
def segments (cfg : Layout) (blockSize : ℕ) : Kind QueueCall Segment where
  blank := ⟨0, MemBuff.zero⟩
  attach := fun seg seg' => (ShmQueue.create cfg allSucceed noMappings seg).buffer.isSome ∧
    seg' = (ShmQueue.create cfg allSucceed noMappings seg).seg
  step := SegmentStep blockSize
  leaves := QueueCall.unmaps

/-- The same for lists of messages, which neither closing nor leaving changes. -/
def ListCall (capacity blockSize : ℕ) (queue : List (List UInt8)) :
    QueueCall → List (List UInt8) → Prop
  | .exchange x, queue' => ListStep capacity blockSize queue x queue'
  | .disconnect, queue' => queue' = queue
  | .close, queue' => queue' = queue

/-- Lists of messages. -/
def lists (capacity blockSize : ℕ) : Kind QueueCall (List (List UInt8)) where
  blank := []
  attach := fun queue queue' => queue' = queue
  step := ListCall capacity blockSize
  leaves := QueueCall.unmaps

/-- A shared memory object that has been initialised and stands for a list of messages. -/
structure Segment.Serves (N : ℕ) (seg : Segment) (queue : List (List UInt8)) : Prop where
  size : seg.size ≠ 0
  serves : AtomicMessageQueue.Serves N seg.mem queue

variable {cfg : Layout} {blockSize : ℕ} {seg seg' : Segment} {queue queue' : List (List UInt8)}

/-- The first `create` initialises the object. -/
theorem create_blank (hpage : 0 < cfg.pageSize) :
    ShmQueue.create cfg allSucceed noMappings ⟨0, MemBuff.zero⟩ =
      { ending := .noStatus, buffer := some 0, maps := noMappings.map,
        seg := ⟨cfg.shmSize, AtomicMessageQueue.create cfg.blockCount⟩ } := by
  have hfits : ¬ cfg.accessible ⟨cfg.shmSize, MemBuff.zero⟩ < cfg.sizeofMemBuff := by
    have hle := cfg.size_le_accessible hpage ⟨cfg.shmSize, MemBuff.zero⟩
    simp only [Layout.shmSize] at hle ⊢
    omega
  simp only [ShmQueue.create, allSucceed, SystemCalls.currentSize, SystemCalls.truncated,
    Segment.truncate, if_true, not_true_eq_false, if_false, if_neg hfits]
  rfl

theorem attach_blank (hpage : 0 < cfg.pageSize) :
    (segments cfg blockSize).attach (segments cfg blockSize).blank seg ↔
      seg = ⟨cfg.shmSize, AtomicMessageQueue.create cfg.blockCount⟩ := by
  simp only [segments, create_blank hpage, Option.isSome_some, true_and]

/-- Every later one maps it as it is. -/
theorem attach_served (hsize : seg.size ≠ 0) :
    (segments cfg blockSize).attach seg seg' ↔ seg' = seg := by
  have hcreate : ShmQueue.create cfg allSucceed noMappings seg =
      { ending := .status 0, buffer := some 0, maps := noMappings.map, seg := seg } :=
    create_existing rfl rfl hsize
  simp only [segments, hcreate, Option.isSome_some, true_and]

theorem serves_created (hN : 2 ≤ cfg.blockCount) :
    Segment.Serves cfg.blockCount ⟨cfg.shmSize, AtomicMessageQueue.create cfg.blockCount⟩ [] where
  size := by
    show cfg.sizeofMemBuff + ipcMemPad ≠ 0
    exact (Nat.add_pos_right _ (by decide)).ne'
  serves := .inl (holds_create hN)

/-! ## The simulations -/

theorem segments_mirrors (hN : 2 ≤ cfg.blockCount) (hpage : 0 < cfg.pageSize) (blockSize : ℕ) :
    Mirrors (segments cfg blockSize) (lists (cfg.blockCount - 1) blockSize)
      (Segment.Serves cfg.blockCount) where
  blank := by
    intro seg hattach
    obtain rfl := (attach_blank hpage).mp hattach
    exact ⟨[], rfl, serves_created hN⟩
  attach := by
    intro seg queue seg' h hattach
    obtain rfl := (attach_served h.size).mp hattach
    exact ⟨queue, rfl, h⟩
  step := by
    rintro seg queue (x | _ | _) seg' h hstep
    · obtain ⟨m, hcall, rfl⟩ := hstep
      obtain ⟨queue', hlist, hserves⟩ := uses_forward hN blockSize _ _ (.call x) _ h.serves hcall
      exact ⟨queue', hlist, h.size, hserves⟩
    · obtain rfl : seg' = seg := hstep
      exact ⟨queue, rfl, h⟩
    · obtain rfl : seg' = _ := hstep
      exact ⟨queue, rfl, h.size, h.serves.close⟩
  leaves := rfl

theorem lists_mirrors (hN : 2 ≤ cfg.blockCount) (hpage : 0 < cfg.pageSize) (blockSize : ℕ) :
    Mirrors (lists (cfg.blockCount - 1) blockSize) (segments cfg blockSize)
      fun queue seg => Segment.Serves cfg.blockCount seg queue where
  blank := by
    rintro queue rfl
    exact ⟨_, (attach_blank hpage).mpr rfl, serves_created hN⟩
  attach := by
    rintro queue seg queue' h rfl
    exact ⟨seg, (attach_served h.size).mpr rfl, h⟩
  step := by
    rintro queue seg (x | _ | _) queue' h hstep
    · obtain ⟨m, hcall, hserves⟩ := h.serves.call hN hstep
      exact ⟨_, ⟨m, hcall, rfl⟩, h.size, hserves⟩
    · obtain rfl : queue' = queue := hstep
      exact ⟨seg, rfl, h⟩
    · obtain rfl : queue' = queue := hstep
      exact ⟨_, rfl, h.size, h.serves.close⟩
  leaves := rfl

variable {π κ : Type*}

/-- `ShmQueue(std::string path)`. -/
def newShmQueue (k : κ) (path : π) : Request π κ QueueCall := .attach k path

/-- `removeOldQueues`. -/
def removeOldQueues (path : π) : Request π κ QueueCall := .unlink path

variable [DecidableEq π] [DecidableEq κ]

/-- **Queues by name.** Constructed on paths, used, closed, left and removed in any order and by anybody,
the shared memory objects show the histories of lists of messages that are found by name, survive being
closed and left, and go on without a name for those that have them open. -/
theorem names_lists (hN : 2 ≤ cfg.blockCount) (hpage : 0 < cfg.pageSize) (blockSize : ℕ)
    (history : List (Request π κ QueueCall)) :
    (∃ s, Trace (segments cfg blockSize).Step (segments cfg blockSize).empty history s) ↔
      ∃ t, Trace (lists (cfg.blockCount - 1) blockSize).Step
        (lists (cfg.blockCount - 1) blockSize).empty history t :=
  (segments_mirrors hN hpage blockSize).trace_iff (lists_mirrors hN hpage blockSize) history

/-- One process constructs a queue, writes a message and closes the queue; a second constructs it again on
the same path and reads the message, and the path is removed. A third gets a new queue, empty, while the
second goes on with the old one. -/
theorem names_lists_generations :
    ∃ s, Trace (segments threeBlocks 4).Step (segments threeBlocks 4).empty
      ([newShmQueue 0 (), .call 0 (.exchange (.write (fun _ => 7) 2 2)), .call 0 .close, newShmQueue 1 (),
        .call 1 (.exchange (.read 3 1 [7, 7])), removeOldQueues (), newShmQueue 2 (),
        .call 1 (.exchange (.write (fun _ => 9) 1 1)), .call 2 (.exchange (.read 3 1 [])),
        .call 1 (.exchange (.read 3 1 [9]))] : List (Request Unit (Fin 3) QueueCall)) s :=
  (names_lists (by decide) (by decide) 4 _).mpr ⟨_, .cons ⟨rfl, _, rfl, rfl⟩ <|
    .cons ⟨0, _, rfl, rfl, rfl⟩ <| .cons ⟨0, _, rfl, rfl, rfl⟩ <| .cons ⟨rfl, _, rfl, rfl⟩ <|
    .cons ⟨0, _, rfl, rfl, rfl⟩ <| .cons rfl <| .cons ⟨rfl, _, rfl, rfl⟩ <|
    .cons ⟨0, _, rfl, rfl, rfl⟩ <| .cons ⟨1, _, rfl, rfl, rfl⟩ <| .cons ⟨0, _, rfl, rfl, rfl⟩ <| .nil _⟩

end AtomicMessageQueue
