import AtomicMessageQueue.Lib.Transition
import AtomicMessageQueue.Lib.TicketRing
import AtomicMessageQueue.Shm.Inversion

/-! # Threads sharing one queue

Any number of threads run the queue's methods over one buffer, one shared access at a time. The state
also carries the history of marks, newest first, and for each thread the blocks it has been handed and
has not given back; neither is read by the code. A holder posts or returns a block exactly once
because only a held block can be passed to `post_block` or `return_block`.
-/

namespace AtomicMessageQueue

open Function Transition

/-! ## Threads and states -/

/-- A thread: its program point inside the queue's methods, and the blocks it holds. -/
structure Local where
  pc : Option Pc
  heldWrite : List ℕ
  heldRead : List ℕ

/-- The blocks held for writing after a mark. -/
def Mark.holdWrite : Option Mark → List ℕ → List ℕ
  | some (.claim b), held => b :: held
  | some (.setDoneWrite b), held => held.erase b
  | _, held => held

/-- The blocks held for reading after a mark. -/
def Mark.holdRead : Option Mark → List ℕ → List ℕ
  | some (.take b _), held => b :: held
  | some (.setDoneRead b), held => held.erase b
  | _, held => held

/-- The program point an access leads to; none outside the queue's methods. -/
def Out.pc {π ρ : Type*} : Out π ρ → Option π
  | .next pc => some pc
  | .ret _ => none

/-- The thread after one of its accesses. -/
def Local.after (l : Local) (o : Out Pc Ret) (mk : Option Mark) : Local where
  pc := o.pc
  heldWrite := Mark.holdWrite mk l.heldWrite
  heldRead := Mark.holdRead mk l.heldRead

/-- The threads, the buffer they share, and the history. -/
structure State (ι : Type*) where
  mem : MemBuff
  threads : ι → Local
  hist : List Mark

/-- The parameters of a system: the ring's dimensions, how waits behave, and which calls each thread
may make. -/
structure Config (ι : Type*) where
  blockCount : ℕ
  blockSize : ℕ
  wait : WaitStep
  calls : ι → Call → Bool

/-- What a scheduled thread does: enter a call, or perform its next access; the argument says how a
condition wait ends if that access is the end of one. -/
inductive Choice
  | call (c : Call)
  | run (w : WaitEnd)

/-- A holder may only post or return a block it holds. -/
def Call.legal (l : Local) : Call → Bool
  | .postBlock b => b ∈ l.heldWrite
  | .returnBlock b => b ∈ l.heldRead
  | _ => true

section Step

variable {ι : Type*}

/-- One step of the system: the scheduled thread and what it does. -/
def step [DecidableEq ι] (cfg : Config ι) (s : State ι) : ι × Choice → Option (State ι)
  | (t, .call c) =>
      let l := s.threads t
      if l.pc.isNone ∧ cfg.calls t c ∧ c.legal l then
        some { s with threads := update s.threads t { l with pc := some c.enter } }
      else none
  | (t, .run w) =>
      let l := s.threads t
      match l.pc with
      | none => none
      | some pc =>
          match codeStep cfg.blockSize cfg.wait w s.mem pc with
          | none => none
          | some (m', o, mk) =>
              some { mem := m', threads := update s.threads t (l.after o mk),
                     hist := mk.toList ++ s.hist }

/-- Of `n` threads, those below `writers` call `get_block_write` and `post_block`, the others
`get_block_read` and `return_block`. -/
def holders (n blockCount writers : ℕ) : Config (Fin n) where
  blockCount := blockCount
  blockSize := 4
  wait := waitForEvent
  calls := fun t c => match c with
    | .getBlockWrite | .postBlock _ => t < writers
    | .getBlockRead _ | .returnBlock _ => writers ≤ t
    | .write _ _ | .read _ _ => false

/-- Of `n` threads, those below `writers` call `write`, the others `read` with a positive timeout. -/
def streams (n blockCount writers : ℕ) (wait : WaitStep) : Config (Fin n) where
  blockCount := blockCount
  blockSize := 4
  wait := wait
  calls := fun t c => match c with
    | .write _ _ => t < writers
    | .read _ ms => writers ≤ t ∧ 0 < ms
    | _ => false

/-- The next `n` accesses of thread `t`. -/
def runs (t : ι) (n : ℕ) : List (ι × Choice) := List.replicate n (t, .run .wake)

/-- Thread `t` enters `c` and performs its first `n` accesses. -/
def during (t : ι) (c : Call) (n : ℕ) : List (ι × Choice) := (t, .call c) :: runs t n

/-- Thread `t` claims a block and performs the first `n` accesses of posting it as block `b`. -/
def posting (t : ι) (b n : ℕ) : List (ι × Choice) :=
  during t .getBlockWrite 3 ++ during t (.postBlock b) n

/-- Thread `t` takes a block and performs the first `n` accesses of returning it as block `b`. -/
def returning (t : ι) (b n : ℕ) : List (ι × Choice) :=
  during t (.getBlockRead 1) 3 ++ during t (.returnBlock b) n

/-- The initial state: the buffer `create` set up, every thread outside the queue's methods. -/
def start (cfg : Config ι) : State ι where
  mem := create cfg.blockCount
  threads := fun _ => { pc := none, heldWrite := [], heldRead := [] }
  hist := []

/-- The states reached by runs whose every step satisfies `ok`. -/
abbrev Reached [DecidableEq ι] (cfg : Config ι) (ok : State ι → ι × Choice → Prop) : State ι → Prop :=
  Reach (step cfg) ok (start cfg)

/-- **Inversion of a step.** A thread outside the methods enters a call it may make, or a thread
inside performs the access at its program point. -/
theorem step_cases [DecidableEq ι] {cfg : Config ι} {s s' : State ι} {t : ι} {ch : Choice}
    (h : step cfg s (t, ch) = some s') :
    (∃ c, ch = .call c ∧ (s.threads t).pc = none ∧ cfg.calls t c = true ∧
      c.legal (s.threads t) = true ∧
      s' = { s with threads := update s.threads t { s.threads t with pc := some c.enter } }) ∨
    (∃ w pc m' o mk, ch = .run w ∧ (s.threads t).pc = some pc ∧
      CodeStep cfg.blockSize cfg.wait w s.mem pc m' o mk ∧
      s' = { mem := m', threads := update s.threads t ((s.threads t).after o mk),
             hist := mk.toList ++ s.hist }) := by
  cases ch with
  | call c =>
      simp only [step] at h
      split at h
      next hc =>
        obtain ⟨hpc, hcall, hlegal⟩ := hc
        exact .inl ⟨c, rfl, Option.isNone_iff_eq_none.mp hpc, hcall, hlegal,
          (Option.some.inj h).symm⟩
      next => cases h
  | run w =>
      simp only [step] at h
      split at h
      next => cases h
      next pc hpc =>
        split at h
        next => cases h
        next m' o mk hcode =>
          exact .inr ⟨w, pc, m', o, mk, rfl, hpc, codeStep_inv hcode, (Option.some.inj h).symm⟩

/-- What holds at every program point holds after one thread has moved if it holds where that thread is
now. -/
theorem forall_pc_update [DecidableEq ι] {threads : ι → Local} {t : ι} {l : Local} {P : ι → Pc → Prop}
    (hothers : ∀ u pc, u ≠ t → (threads u).pc = some pc → P u pc) (hself : ∀ pc, l.pc = some pc → P t pc)
    (u : ι) (pc : Pc) (h : (update threads t l u).pc = some pc) : P u pc := by
  by_cases hut : u = t
  · subst hut
    rw [update_self] at h
    exact hself pc h
  · rw [update_of_ne hut] at h
    exact hothers u pc hut h

end Step

/-! ## Reading the history -/

/-- How often `m_writeStart` has moved. -/
def claims : List Mark → ℕ
  | [] => 0
  | .claim _ :: h => claims h + 1
  | _ :: h => claims h

/-- How often `m_writeEnd` has moved. -/
def publishes : List Mark → ℕ
  | [] => 0
  | .publish _ _ :: h => publishes h + 1
  | _ :: h => publishes h

/-- How often `m_readStart` has moved. -/
def takes : List Mark → ℕ
  | [] => 0
  | .take _ _ :: h => takes h + 1
  | _ :: h => takes h

/-- How often `m_readEnd` has moved. -/
def retires : List Mark → ℕ
  | [] => 0
  | .retire _ :: h => retires h + 1
  | _ :: h => retires h

/-- The number of the latest claim of a block; claims are numbered from 0. -/
def writeTicket : List Mark → ℕ → ℕ
  | [] => fun _ => 0
  | .claim b :: h => update (writeTicket h) b (claims h)
  | _ :: h => writeTicket h

/-- The number of the latest take of a block. -/
def readTicket : List Mark → ℕ → ℕ
  | [] => fun _ => 0
  | .take b _ :: h => update (readTicket h) b (takes h)
  | _ :: h => readTicket h

/-- Claim number `q` has been posted: its holder has set `doneWrite`. -/
def posted : List Mark → ℕ → Bool
  | [], _ => false
  | .setDoneWrite b :: h, q => q == writeTicket h b || posted h q
  | _ :: h, q => posted h q

/-- Take number `q` has been returned: its holder has set `doneRead`. -/
def returned : List Mark → ℕ → Bool
  | [], _ => false
  | .setDoneRead b :: h, q => q == readTicket h b || returned h q
  | _ :: h, q => returned h q

/-- The block has been published since its latest claim and not taken since: it holds a message
nobody has read yet. -/
def unread : List Mark → ℕ → Bool
  | [], _ => false
  | .claim b :: h, i => if i = b then false else unread h i
  | .publish b _ :: h, i => if i = b then true else unread h i
  | .take b _ :: h, i => if i = b then false else unread h i
  | _ :: h, i => unread h i

/-- The message `write` stored under claim number `q`. -/
def payload : List Mark → ℕ → List UInt8
  | [] => fun _ => []
  | .fill b msg :: h => update (payload h) (writeTicket h b) msg
  | _ :: h => payload h

/-- A `write` has stored its message in the block, and no reader has returned the block since. -/
def loaded : List Mark → ℕ → Bool
  | [], _ => false
  | .fill b _ :: h, i => if i = b then true else loaded h i
  | .setDoneRead b :: h, i => if i = b then false else loaded h i
  | _ :: h, i => loaded h i

/-- The messages `write` has stored, oldest first. -/
def written : List Mark → List (List UInt8)
  | [] => []
  | .fill _ msg :: h => written h ++ [msg]
  | _ :: h => written h

/-- The results of the `write` calls that found room, oldest first. -/
def results : List Mark → List ℕ
  | [] => []
  | .increment n :: h => results h ++ [n]
  | _ :: h => results h

/-- What the blocks held when `m_writeEnd` moved past them, oldest first. -/
def published : List Mark → List (List UInt8)
  | [] => []
  | .publish _ msg :: h => published h ++ [msg]
  | _ :: h => published h

/-- What the blocks held when `m_readStart` moved past them, oldest first. -/
def taken : List Mark → List (List UInt8)
  | [] => []
  | .take _ msg :: h => taken h ++ [msg]
  | _ :: h => taken h

/-- The buffer sizes of the `read` calls that found a message, and the bytes they copied, oldest
first. -/
def delivered : List Mark → List (ℕ × List UInt8)
  | [] => []
  | .copied buffSize bytes :: h => delivered h ++ [(buffSize, bytes)]
  | _ :: h => delivered h

end AtomicMessageQueue
