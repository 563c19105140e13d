import AtomicMessageQueue.Sequential.ListQueue

/-! # `MessageQueue` and its message count

Reference: `MessageQueue.h`, `send`, `receive` and `getMessageCount`. The queue's `MSG_SIZE` and
`MAX_MSGS` are the block size and block count of the ring. The count is kept apart from the ring:
`write` adds to it, and `read` takes from it for the message it delivers, but not for the empty ones
it drops on the way.
-/

namespace AtomicMessageQueue

open Simulation

/-- The fields of a `MessageQueue` that `send`, `receive` and `getMessageCount` use: `connected_`,
`timeout_` and the buffer of `queue_`. -/
structure MessageQueue where
  connected : Bool
  timeout : UInt32
  mem : MemBuff

namespace MessageQueue

/-- `timeout_` as the `int32_t msTimeout` it is passed for. -/
def msTimeout (q : MessageQueue) : ℤ := (q.timeout.toNat : ℤ).bmod (2 ^ 32)

/-- A call with its result; for `receive` also the bytes stored in the caller's buffer. -/
inductive Request
  | send (buffer : ℕ → UInt8) (msgLength : ℕ) (result : ℤ)
  | receive (bytes : List UInt8) (result : ℤ)

/-- The status `send` makes of what `write` returned. -/
def sendResult (sts msgLength : ℕ) : ℤ :=
  if sts = 0 then 0 else if sts ≠ msgLength then -1 else 1

/-- `send`, run to completion. -/
def Send (msgSize : ℕ) (q : MessageQueue) (buffer : ℕ → UInt8) (msgLength : ℕ) (result : ℤ)
    (q' : MessageQueue) : Prop :=
  if q.connected = false ∨ msgSize < msgLength then result = -1 ∧ q' = q
  else
    ∃ m' sts, Completes msgSize q.mem (.write buffer msgLength) m' (.wrote sts) ∧
      result = sendResult sts msgLength ∧ q' = { q with mem := m' }

/-- `receive`, run to completion. -/
def Receive (msgSize : ℕ) (q : MessageQueue) (bytes : List UInt8) (result : ℤ)
    (q' : MessageQueue) : Prop :=
  if q.connected = false then bytes = [] ∧ result = -1 ∧ q' = q
  else
    ∃ m', Completes msgSize q.mem (.read msgSize q.msTimeout) m' (.got bytes) ∧
      result = bytes.length ∧ q' = { q with mem := m' }

/-- `getMessageCount`, with the conversion of the 32-bit count to `int`. -/
def getMessageCount (q : MessageQueue) : ℤ :=
  if q.connected = false then -1 else (q.mem.msgCount.toNat : ℤ).bmod (2 ^ 32)

/-- A complete `send` or `receive`. -/
def Step (msgSize : ℕ) (q : MessageQueue) : Request → MessageQueue → Prop
  | .send buffer msgLength result, q' => Send msgSize q buffer msgLength result q'
  | .receive bytes result, q' => Receive msgSize q bytes result q'

/-- A queue just connected to a fresh segment. -/
def fresh (maxMsgs : ℕ) (timeout : UInt32) : MessageQueue where
  connected := true
  timeout := timeout
  mem := create maxMsgs

/-- A `receive` finds no empty message at the front of the ring. -/
def FrontNotEmpty (q : MessageQueue) : Request → Prop
  | .send _ _ _ => True
  | .receive _ _ => q.mem.readStart ≠ q.mem.writeEnd → (q.mem.blocks q.mem.readStart).amount ≠ 0

end MessageQueue

/-- The messages of the `send` calls that are in the ring and have not been taken out of it, and how
many empty messages `receive` has dropped so far. -/
structure Ledger where
  queue : List (List UInt8)
  skipped : ℕ

namespace Ledger

def empty : Ledger := { queue := [], skipped := 0 }

/-- The ledger after a call on a connected queue. -/
def after (capacity msgSize : ℕ) (l : Ledger) : MessageQueue.Request → Ledger
  | .send buffer msgLength _ =>
      if msgSize < msgLength then l
      else { l with queue := (listWrite capacity msgSize buffer msgLength l.queue).2 }
  | .receive _ _ =>
      { queue := (listRead msgSize l.queue).2
        skipped := l.skipped + (l.queue.takeWhile List.isEmpty).length }

/-- The ledger after a history of calls. -/
def afterAll (capacity msgSize : ℕ) (requests : List MessageQueue.Request) : Ledger :=
  requests.foldl (after capacity msgSize) empty

end Ledger

/-- How many blocks lie between `m_readStart` and `m_writeEnd`. -/
def inRing (blockCount : ℕ) (m : MemBuff) : ℕ :=
  (m.writeEnd + blockCount - m.readStart) % blockCount

variable {N msgSize : ℕ} {q q' : MessageQueue} {l : Ledger}

theorem Holds.inRing {m : MemBuff} {queue : List (List UInt8)} (h : Holds N m queue) :
    inRing N m = queue.length := by
  obtain ⟨taken, h⟩ := h
  have hlt := h.length_lt
  have hr : taken % N < N := Nat.mod_lt _ h.shows.pos
  rw [AtomicMessageQueue.inRing, h.shows.writeEnd, h.shows.readStart]
  show ((taken + queue.length) % N + N - taken % N) % N = queue.length
  rw [← Nat.mod_add_mod]
  rcases Nat.lt_or_ge (taken % N + queue.length) N with hsmall | hwrap
  · rw [Nat.mod_eq_of_lt hsmall, show taken % N + queue.length + N - taken % N =
      queue.length + N by omega, Nat.add_mod_right, Nat.mod_eq_of_lt hlt]
  · rw [Nat.mod_eq_sub_mod hwrap, Nat.mod_eq_of_lt (show taken % N + queue.length - N < N by omega),
      show taken % N + queue.length - N + N - taken % N = queue.length by omega,
      Nat.mod_eq_of_lt hlt]

/-- The ring holds the messages of the ledger, and the count is too high by the empty messages
dropped so far. -/
structure Counted (N : ℕ) (q : MessageQueue) (l : Ledger) : Prop where
  connected : q.connected = true
  holds : Holds N q.mem l.queue
  count : q.mem.msgCount = UInt32.ofNat (l.queue.length + l.skipped)

theorem counted_fresh (hN : 2 ≤ N) (timeout : UInt32) :
    Counted N (MessageQueue.fresh N timeout) .empty where
  connected := rfl
  holds := holds_create hN
  count := by
    show (create N).msgCount = _
    rw [create_eq hN]
    rfl

theorem MessageQueue.step_send (hc : q.connected = true) {buffer : ℕ → UInt8} {msgLength : ℕ}
    (hlen : msgLength ≤ msgSize) {m' : MemBuff} {sts : ℕ}
    (call : Completes msgSize q.mem (.write buffer msgLength) m' (.wrote sts)) :
    MessageQueue.Step msgSize q (.send buffer msgLength (sendResult sts msgLength))
      { q with mem := m' } := by
  have hnot : ¬ (q.connected = false ∨ msgSize < msgLength) := by
    rw [hc]
    exact fun h => h.elim (by decide) (by omega)
  rw [MessageQueue.Step, MessageQueue.Send, if_neg hnot]
  exact ⟨m', sts, call, rfl, rfl⟩

theorem MessageQueue.step_receive (hc : q.connected = true) {m' : MemBuff} {bytes : List UInt8}
    (call : Completes msgSize q.mem (.read msgSize q.msTimeout) m' (.got bytes)) :
    MessageQueue.Step msgSize q (.receive bytes bytes.length) { q with mem := m' } := by
  rw [MessageQueue.Step, MessageQueue.Receive, if_neg (by rw [hc]; decide)]
  exact ⟨m', call, rfl, rfl⟩

/-- What a call on the queue does to the ledger. -/
theorem Counted.step (hN : 2 ≤ N) (h : Counted N q l) {r : MessageQueue.Request}
    (hstep : MessageQueue.Step msgSize q r q') : Counted N q' (l.after (N - 1) msgSize r) := by
  obtain ⟨taken, hfrom⟩ := h.holds
  cases r with
  | send buffer msgLength result =>
      simp only [MessageQueue.Step, MessageQueue.Send, h.connected, Bool.true_eq_false,
        false_or] at hstep
      simp only [Ledger.after]
      split at hstep
      next hlong =>
        obtain ⟨-, rfl⟩ := hstep
        rw [if_pos hlong]
        exact h
      next hlong =>
        obtain ⟨m', sts, hcall, -, rfl⟩ := hstep
        obtain ⟨m₁, hrun, hholds, hcount⟩ := hfrom.write hN msgSize buffer msgLength
        obtain ⟨rfl, -⟩ := hcall.determ hrun
        rw [if_neg hlong]
        refine ⟨rfl, ⟨taken, hholds⟩, ?_⟩
        show m'.msgCount = _
        rw [hcount, h.count]
        simp only [listWrite]
        split
        · rfl
        · rw [List.length_append, List.length_singleton, Nat.add_right_comm]
          exact (UInt32.ofNat_add _ 1).symm
  | receive bytes result =>
      simp only [MessageQueue.Step, MessageQueue.Receive, h.connected, Bool.true_eq_false,
        if_false] at hstep
      obtain ⟨m', hcall, -, rfl⟩ := hstep
      obtain ⟨m₁, taken', hrun, hholds, hcount⟩ := hfrom.read msgSize msgSize q.msTimeout
      obtain ⟨rfl, -⟩ := hcall.determ hrun
      refine ⟨rfl, ⟨taken', hholds⟩, ?_⟩
      show m'.msgCount = _
      rw [hcount, h.count]
      -- the empty messages at the front leave the queue, and the count does not see it
      have hsplit := congrArg List.length
        (List.takeWhile_append_dropWhile (p := List.isEmpty) (l := l.queue))
      rw [List.length_append] at hsplit
      simp only [Ledger.after, listRead]
      cases hdrop : l.queue.dropWhile List.isEmpty with
      | nil =>
          rw [hdrop, List.length_nil, Nat.add_zero] at hsplit
          simp only [if_true, List.length_nil, Nat.zero_add, hsplit, Nat.add_comm l.skipped]
      | cons entry rest =>
          rw [hdrop, List.length_cons] at hsplit
          simp only [reduceCtorEq, if_false]
          rw [show l.queue.length + l.skipped =
            rest.length + (l.skipped + (l.queue.takeWhile List.isEmpty).length) + 1 by omega,
            UInt32.ofNat_add]
          exact UInt32.add_sub_cancel _ 1

/-- After any history of calls the ring holds the messages of the ledger, and the count is too high by
the empty messages dropped. -/
theorem Counted.run (hN : 2 ≤ N) (h : Counted N q l) {requests : List MessageQueue.Request}
    (hrun : Trace (MessageQueue.Step msgSize) q requests q') :
    Counted N q' (requests.foldl (Ledger.after (N - 1) msgSize) l) := by
  induction hrun generalizing l with
  | nil q => exact h
  | cons head tail ih => exact ih (h.step hN head)

/-- A `receive` that finds a message that is not empty at the front drops nothing. -/
theorem Counted.skipped_step (h : Counted N q l) {r : MessageQueue.Request}
    (hfront : q.FrontNotEmpty r) : (l.after (N - 1) msgSize r).skipped = l.skipped := by
  cases r with
  | send buffer msgLength result =>
      simp only [Ledger.after]
      split <;> rfl
  | receive bytes result =>
      simp only [Ledger.after, Nat.add_eq_left, List.length_eq_zero_iff]
      obtain ⟨taken, hfrom⟩ := h.holds
      cases hqueue : l.queue with
      | nil => rfl
      | cons msg rest =>
          rw [hqueue] at hfrom
          have hne : q.mem.readStart ≠ q.mem.writeEnd := by
            rw [Ne, hfrom.shows.empty_iff]
            simp only [listPositions, List.length_cons]
            omega
          have hamount := hfront hne
          rw [hfrom.shows.readStart, Ne, ← Block.contents_eq_nil,
            show (listPositions taken (msg :: rest).length).taken = taken + 0 from rfl,
            hfrom.contents 0 msg rfl, ← List.isEmpty_iff] at hamount
          exact List.takeWhile_cons_of_neg hamount

theorem Counted.skipped_run (hN : 2 ≤ N) (h : Counted N q l)
    {requests : List MessageQueue.Request}
    (hrun : Trace (Guarded MessageQueue.FrontNotEmpty (MessageQueue.Step msgSize)) q requests q') :
    (requests.foldl (Ledger.after (N - 1) msgSize) l).skipped = l.skipped := by
  induction hrun generalizing l with
  | nil q => rfl
  | cons head tail ih => exact (ih (h.step hN head.2)).trans (h.skipped_step head.1)

/-- What `getMessageCount` returns: the messages in the ring and the empty ones dropped so far, as an
`int`. -/
theorem Counted.getMessageCount (h : Counted N q l) :
    q.getMessageCount = ((l.queue.length + l.skipped : ℕ) : ℤ).bmod (2 ^ 32) := by
  rw [MessageQueue.getMessageCount, h.connected, h.count, UInt32.toNat_ofNat']
  simp only [Bool.true_eq_false, if_false]
  rw [Int.natCast_emod]
  exact Int.emod_bmod _ (2 ^ 32)

/-- **`getMessageCount` counts the messages in the ring**, in every run in which no `receive` finds an
empty message at the front: it is the number of `send` calls whose message is in the ring and has not
been taken out, and 0 once the ring is empty. `MAX_MSGS` is an `int`. -/
theorem getMessageCount_inRing (hN : 2 ≤ N) (hint : N < 2 ^ 31) (timeout : UInt32)
    {requests : List MessageQueue.Request}
    (h : Trace (Guarded MessageQueue.FrontNotEmpty (MessageQueue.Step msgSize))
      (MessageQueue.fresh N timeout) requests q) :
    q.getMessageCount = (Ledger.afterAll (N - 1) msgSize requests).queue.length ∧
      q.getMessageCount = inRing N q.mem ∧
      (q.mem.readStart = q.mem.writeEnd → q.getMessageCount = 0) := by
  obtain ⟨l, hl⟩ : ∃ l, Ledger.afterAll (N - 1) msgSize requests = l := ⟨_, rfl⟩
  have hcounted : Counted N q l := hl ▸ (counted_fresh hN timeout).run hN h.of_guarded
  have hskip : l.skipped = 0 := hl ▸ (counted_fresh hN timeout).skipped_run hN h
  obtain ⟨taken, hfrom⟩ := hcounted.holds
  have hlt := hfrom.length_lt
  have hcount : q.getMessageCount = l.queue.length := by
    rw [hcounted.getMessageCount, hskip, Nat.add_zero]
    exact Int.bmod_eq_of_le (by omega) (by omega)
  refine ⟨by rw [hl]; exact hcount, by rw [hcounted.holds.inRing]; exact hcount, fun hempty => ?_⟩
  have hlen : taken = taken + l.queue.length := hfrom.shows.empty_iff.mp hempty
  rw [hcount]
  omega

/-- Three blocks: two messages are sent and one is received. -/
theorem getMessageCount_inRing_oneLeft :
    ∃ q, Trace (Guarded MessageQueue.FrontNotEmpty (MessageQueue.Step 4))
        (MessageQueue.fresh 3 1000)
        [.send (fun _ => 7) 2 1, .send (fun _ => 8) 1 1, .receive [7, 7] 2] q ∧
      q.getMessageCount = 1 ∧ inRing 3 q.mem = 1 := by
  obtain ⟨taken, h₀⟩ := holds_create (N := 3) (by decide)
  obtain ⟨m₁, call₁, h₁, -⟩ := h₀.write (by decide) 4 (fun _ => 7) 2
  obtain ⟨m₂, call₂, h₂, -⟩ := h₁.write (by decide) 4 (fun _ => 8) 1
  obtain ⟨m₃, taken', call₃, h₃, -⟩ :=
    h₂.read 4 4 (MessageQueue.msTimeout (MessageQueue.fresh 3 1000))
  have hfront : (m₂.blocks m₂.readStart).amount ≠ 0 := by
    rw [h₂.shows.readStart, Ne, ← Block.contents_eq_nil]
    exact fun hnil => absurd ((h₂.contents 0 [7, 7] rfl).symm.trans hnil) (by decide)
  have step₁ := MessageQueue.step_send (q := .fresh 3 1000) rfl (show 2 ≤ 4 by decide) call₁
  have step₂ := MessageQueue.step_send (q := { MessageQueue.fresh 3 1000 with mem := m₁ }) rfl
    (show 1 ≤ 4 by decide) call₂
  have step₃ := MessageQueue.step_receive (q := { MessageQueue.fresh 3 1000 with mem := m₂ }) rfl
    call₃
  have htrace : Trace (Guarded MessageQueue.FrontNotEmpty (MessageQueue.Step 4))
      (MessageQueue.fresh 3 1000)
      [.send (fun _ => 7) 2 1, .send (fun _ => 8) 1 1, .receive [7, 7] 2] _ :=
    .cons ⟨trivial, step₁⟩ <| .cons ⟨trivial, step₂⟩ <| .cons ⟨fun _ => hfront, step₃⟩ (.nil _)
  obtain ⟨hcount, hring, -⟩ := getMessageCount_inRing (by decide) (by decide) 1000 htrace
  have hone : (Ledger.afterAll 2 4
      [.send (fun _ => 7) 2 1, .send (fun _ => 8) 1 1, .receive [7, 7] 2]).queue.length = 1 := rfl
  rw [hone] at hcount
  exact ⟨_, htrace, hcount, by exact_mod_cast hring.symm.trans hcount⟩

/-- Two blocks: an empty message is sent, and a receive drops it and finds nothing else. The ring is
empty, and one message is counted for ever. -/
theorem getMessageCount_counts_dropped :
    ∃ q, Trace (MessageQueue.Step 4) (MessageQueue.fresh 2 0)
        [.send (fun _ => 0) 0 0, .receive [] 0] q ∧
      q.mem.readStart = q.mem.writeEnd ∧ inRing 2 q.mem = 0 ∧ q.getMessageCount = 1 := by
  obtain ⟨taken, h₀⟩ := holds_create (N := 2) (by decide)
  obtain ⟨m₁, call₁, h₁, -⟩ := h₀.write (by decide) 4 (fun _ => 0) 0
  obtain ⟨m₂, taken', call₂, h₂, -⟩ :=
    h₁.read 4 4 (MessageQueue.msTimeout (MessageQueue.fresh 2 0))
  have step₁ := MessageQueue.step_send (q := .fresh 2 0) rfl (Nat.zero_le 4) call₁
  have step₂ := MessageQueue.step_receive (q := { MessageQueue.fresh 2 0 with mem := m₁ }) rfl call₂
  have htrace : Trace (MessageQueue.Step 4) (MessageQueue.fresh 2 0)
      [.send (fun _ => 0) 0 0, .receive [] 0] _ := .cons step₁ <| .cons step₂ (.nil _)
  have hcounted := (counted_fresh (by decide) 0).run (by decide) htrace
  refine ⟨_, htrace, h₂.shows.empty_iff.mpr rfl, hcounted.holds.inRing, ?_⟩
  exact hcounted.getMessageCount.trans (Int.bmod_eq_of_le (by decide) (by decide))

end AtomicMessageQueue
