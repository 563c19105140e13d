import AtomicMessageQueue.Client.Lifetime
import AtomicMessageQueue.Sequential.MessageCount

/-! # A `MessageQueue` object and its ring

Reference: `MessageQueue.h`. An object is its pointers, its timeout and the ring in the segment of its
path, which other objects use too. Calls are run to completion one after the other. `connected_` is all
that `send` and `receive` check, so a call of an object that is connected to nothing follows a null
pointer; `catch(...)` does not catch the signal.
-/

namespace AtomicMessageQueue

open Simulation

/-- A `MessageQueue` with the ring in the segment of its path. -/
structure Endpoint where
  session : Session
  timeout : UInt32
  mem : MemBuff

/-- How a call ends: it returns, or the process has been killed. -/
inductive CallEnd
  | returned (result : ℤ)
  | killed
deriving DecidableEq, Repr

namespace Endpoint

/-- `MessageQueue(std::string path)`, on a segment that has been filled. -/
def new (blockCount : ℕ) (timeout : UInt32) : Endpoint where
  session := .new
  timeout := timeout
  mem := create blockCount

/-- A new object after its first `connect`. -/
def fresh (blockCount : ℕ) (timeout : UInt32) : Endpoint where
  session := Session.new.connect
  timeout := timeout
  mem := create blockCount

/-- What the methods that use the ring see of the object, as long as its pointers can be followed. -/
def view (e : Endpoint) : MessageQueue where
  connected := e.session.client.connected
  timeout := e.timeout
  mem := e.mem

/-- `send`. It follows `queue_` unless the object is not connected or the message is too long. -/
inductive Send (msgSize : ℕ) (e : Endpoint) (buffer : ℕ → UInt8) (msgLength : ℕ) :
    CallEnd → Endpoint → Prop
  | returned {result : ℤ} {q' : MessageQueue} (h : e.session.Usable ∨ msgSize < msgLength)
      (call : e.view.Send msgSize buffer msgLength result q') :
      Send msgSize e buffer msgLength (.returned result) { e with mem := q'.mem }
  | killed (h : ¬ e.session.Usable) (hlen : msgLength ≤ msgSize) :
      Send msgSize e buffer msgLength .killed e

/-- A call that comes to its end: one that sets the pointers or the timeout of the object, a `send` or
`receive` of the object, or one of another object on the same segment. -/
inductive Step (msgSize : ℕ) (e : Endpoint) : Endpoint → Prop
  | session (c : ClientCall) : Step msgSize e { e with session := e.session.after c }
  | setTimeout (msec : UInt32) : Step msgSize e { e with timeout := msec }
  | pass {r : MessageQueue.Request} {q' : MessageQueue} (h : e.session.Usable)
      (call : MessageQueue.Step msgSize e.view r q') : Step msgSize e { e with mem := q'.mem }
  | other (timeout : UInt32) {r : MessageQueue.Request} {q' : MessageQueue}
      (call : MessageQueue.Step msgSize { connected := true, timeout := timeout, mem := e.mem } r q') :
      Step msgSize e { e with mem := q'.mem }

/-- The object has come into this state by calls run one after the other. -/
inductive Reached (blockCount msgSize : ℕ) : Endpoint → Prop
  | new (timeout : UInt32) : Reached blockCount msgSize (new blockCount timeout)
  | step {e e' : Endpoint} (reached : Reached blockCount msgSize e) (call : Step msgSize e e') :
      Reached blockCount msgSize e'

theorem reached_fresh (blockCount msgSize : ℕ) (timeout : UInt32) :
    Reached blockCount msgSize (fresh blockCount timeout) :=
  .step (.new timeout) (.session .connect)

theorem usable_fresh (blockCount : ℕ) (timeout : UInt32) :
    (fresh blockCount timeout).session.Usable := by
  have hnone : ∀ i ∈ Session.new.maps.unmapped, i < Session.new.maps.count :=
    fun i hi => absurd hi List.not_mem_nil
  exact (attached_connect hnone List.nodup_nil).usable

end Endpoint

/-- The messages between `m_readStart` and `m_writeEnd`, oldest first. -/
def MemBuff.messages (blockCount : ℕ) (m : MemBuff) : List (List UInt8) :=
  (List.range (inRing blockCount m)).map fun i =>
    (m.blocks ((m.readStart + i) % blockCount)).contents

/-! ## The ring holds messages -/

variable {N msgSize : ℕ}

/-- The messages between the cursors are those the ring holds. -/
theorem HoldsFrom.messages {m : MemBuff} {taken : ℕ} {queue : List (List UInt8)}
    (h : HoldsFrom N m taken queue) : m.messages N = queue := by
  have hlen : inRing N m = queue.length := Holds.inRing ⟨taken, h⟩
  refine List.ext_getElem (by simp [MemBuff.messages, hlen]) fun i h₁ h₂ => ?_
  have hslot : (m.readStart + i) % N = (taken + i) % N := by
    rw [h.shows.readStart]
    exact Nat.mod_add_mod taken N i
  simp only [MemBuff.messages, List.getElem_map, List.getElem_range, hslot]
  exact h.contents i _ (List.getElem?_eq_getElem h₂)

/-- A complete `send` or `receive` leaves a ring that holds messages. -/
theorem Holds.step (hN : 2 ≤ N) {q q' : MessageQueue} {queue : List (List UInt8)}
    (h : Holds N q.mem queue) {r : MessageQueue.Request} (hstep : MessageQueue.Step msgSize q r q') :
    ∃ queue', Holds N q'.mem queue' := by
  obtain ⟨taken, hfrom⟩ := h
  cases r with
  | send buffer msgLength result =>
      simp only [MessageQueue.Step, MessageQueue.Send] at hstep
      split at hstep
      · obtain ⟨-, rfl⟩ := hstep
        exact ⟨queue, taken, hfrom⟩
      · obtain ⟨m', sts, hcall, -, rfl⟩ := hstep
        obtain ⟨m₁, hrun, hholds, -⟩ := hfrom.write hN msgSize buffer msgLength
        obtain ⟨rfl, -⟩ := hcall.determ hrun
        exact ⟨_, taken, hholds⟩
  | receive bytes result =>
      simp only [MessageQueue.Step, MessageQueue.Receive] at hstep
      split at hstep
      · obtain ⟨-, -, rfl⟩ := hstep
        exact ⟨queue, taken, hfrom⟩
      · obtain ⟨m', hcall, -, rfl⟩ := hstep
        obtain ⟨m₁, taken', hrun, hholds, -⟩ := hfrom.read msgSize msgSize q.msTimeout
        obtain ⟨rfl, -⟩ := hcall.determ hrun
        exact ⟨_, taken', hholds⟩

/-- In every state the ring holds messages. -/
theorem Endpoint.Reached.holds (hN : 2 ≤ N) {e : Endpoint} (h : Endpoint.Reached N msgSize e) :
    ∃ queue, Holds N e.mem queue := by
  induction h with
  | new timeout => exact ⟨[], holds_create hN⟩
  | step reached call ih =>
      obtain ⟨queue, hholds⟩ := ih
      cases call with
      | session c => exact ⟨queue, hholds⟩
      | setTimeout msec => exact ⟨queue, hholds⟩
      | pass husable call => exact hholds.step hN call
      | other timeout call => exact hholds.step hN call

end AtomicMessageQueue
