import AtomicMessageQueue.System.Machine

/-! # Processes creating one queue

Reference: `shmIPC.h`, `ShmQueue::create` in its POSIX branch and the constructor that calls it. Any
number of processes call `create` on one path, one system call or store at a time, and run the queue's
methods once it has returned. An object that `shm_open` has just created has size 0, so an object that
does not exist yet is taken as one of size 0. The value-initialisation `new(shmaddr) MemBuff()` counts
as one store.
-/

namespace AtomicMessageQueue

open Function Transition

/-- `IPC_MEM_PAD`. -/
def ipcMemPad : ℕ := 1024 * 8

/-- The shared memory object: the `st_size` that `fstat` reads, and what it holds. -/
structure Segment where
  size : ℕ
  mem : MemBuff

/-- `ftruncate`. An object that grows is filled with zeros. -/
def Segment.truncate (seg : Segment) (size : ℕ) : Segment where
  size := size
  mem := if seg.size = 0 then MemBuff.zero else seg.mem

/-- Program points of `create`. -/
inductive CreatePc
  /-- `m_shmfd = shm_open(shmName.c_str(), O_CREAT | O_RDWR, 0666);` -/
  | shmOpen
  /-- `fstat(m_shmfd, &st);` and the test of `current_size` -/
  | fstat
  /-- `ftruncate(m_shmfd,shm_size);` -/
  | ftruncate
  /-- `mmap` on the branch that found the size 0 -/
  | mmapNew
  /-- the stores of the initialisation, `n` of them done -/
  | store (n : ℕ)
  /-- `mmap` on the other branch -/
  | mmap
deriving DecidableEq

/-- Where a process stands. -/
inductive Proc
  | creating (pc : CreatePc)
  /-- `create` has returned. The branch that initialises ends without a `return`; its value is taken
  to be other than -1. -/
  | connected
  /-- `create` has returned -1, and the constructor throws -/
  | failed
  /-- killed for a store beyond the end of the object -/
  | killed
deriving DecidableEq

variable {κ ι : Type*}

/-- The parameters: those of the queue, the process of each thread, and `sizeof(MemBuff)`. -/
structure SegConfig (κ ι : Type*) extends Config ι where
  proc : ι → κ
  sizeofMemBuff : ℕ

/-- `size_t shm_size = sizeof(MemBuff) + IPC_MEM_PAD;` -/
def SegConfig.shmSize (cfg : SegConfig κ ι) : ℕ := cfg.sizeofMemBuff + ipcMemPad

/-- The number of stores of the initialisation. -/
def SegConfig.storeCount (cfg : SegConfig κ ι) : ℕ := (createStores cfg.blockCount).length

/-- How a system call ends. -/
inductive SysEnd
  | succeeds
  /-- it fails; `staleSize` is what a `fstat` that fails leaves in the uninitialised `st.st_size` -/
  | fails (staleSize : ℕ)
deriving DecidableEq

/-- The call succeeds. -/
def SysEnd.ok : SysEnd → Bool
  | .succeeds => true
  | .fails _ => false

/-- `st.st_size` after a `fstat` of an object of this size. -/
def SysEnd.stSize (size : ℕ) : SysEnd → ℕ
  | .succeeds => size
  | .fails staleSize => staleSize

/-- One step of `create`; `c` says how its system call ends. The result tells whether the step was a store
of the initialisation. -/
def createStep (cfg : SegConfig κ ι) (c : SysEnd) (seg : Segment) :
    CreatePc → Segment × Proc × Bool
  | .shmOpen => (seg, if c.ok then .creating .fstat else .failed, false)
  | .fstat =>
      -- the result of `fstat` is not looked at
      (seg, .creating (if c.stSize seg.size = 0 then .ftruncate else .mmap), false)
  | .ftruncate =>
      -- nor is that of `ftruncate`
      (if c.ok then seg.truncate cfg.shmSize else seg, .creating .mmapNew, false)
  | .mmapNew => (seg, if c.ok then .creating (.store 0) else .failed, false)
  | .store n =>
      match (createStores cfg.blockCount)[n]? with
      | none => (seg, .connected, false)
      | some store =>
          if seg.size = 0 then (seg, .killed, false)
          else ({ seg with mem := store seg.mem }, .creating (.store (n + 1)), true)
  | .mmap => (seg, if c.ok then .connected else .failed, false)

/-- The size of the segment, the queue in it with its threads and history, and the processes. `inits`
records who performed the stores of the initialisation, newest first; the code does not read it. -/
structure SegState (κ ι : Type*) where
  size : ℕ
  queue : State ι
  procs : κ → Proc
  inits : List κ

/-- What happens next: process `p` takes the next step of its `create`, or thread `t` one of the
queue's methods. -/
inductive SegAction (κ ι : Type*)
  | create (p : κ) (c : SysEnd)
  | queue (t : ι) (ch : Choice)

/-- The segment of a state. -/
def SegState.segment (s : SegState κ ι) : Segment := ⟨s.size, s.queue.mem⟩

/-- Before the first `create`: no segment, and no thread in the queue's methods. -/
def segStart (cfg : SegConfig κ ι) : SegState κ ι where
  size := 0
  queue := { start cfg.toConfig with mem := MemBuff.zero }
  procs := fun _ => .creating .shmOpen
  inits := []

/-- `n` processes of one thread each; those below `writers` call `write`, the others `read`. -/
def openers (n blockCount writers : ℕ) : SegConfig (Fin n) (Fin n) where
  toConfig := streams n blockCount writers waitForEvent
  proc := id
  sizeofMemBuff := 256

/-- The next `n` steps of the `create` of process `p`, its system calls succeeding. -/
def creates (p : κ) (n : ℕ) : List (SegAction κ ι) := List.replicate n (.create p .succeeds)

/-- Steps of the queue's methods. -/
def uses (as : List (ι × Choice)) : List (SegAction κ ι) := as.map fun a => .queue a.1 a.2

section Step

variable [DecidableEq κ] [DecidableEq ι]

/-- The state after a step of `create` by process `p`. -/
def SegState.created (s : SegState κ ι) (p : κ) (e : Segment × Proc × Bool) : SegState κ ι where
  size := e.1.size
  queue := { s.queue with mem := e.1.mem }
  procs := update s.procs p e.2.1
  inits := if e.2.2 then p :: s.inits else s.inits

/-- One step of the system. A thread runs the queue's methods once the `create` of its process has
returned. -/
def segStep (cfg : SegConfig κ ι) (s : SegState κ ι) : SegAction κ ι → Option (SegState κ ι)
  | .create p c =>
      match s.procs p with
      | .creating pc => some (s.created p (createStep cfg c s.segment pc))
      | _ => none
  | .queue t ch =>
      if s.procs (cfg.proc t) = .connected then
        (step cfg.toConfig s.queue (t, ch)).map fun q => { s with queue := q }
      else none

/-- The states reached by runs whose every step satisfies `ok`. -/
abbrev SegReached (cfg : SegConfig κ ι) (ok : SegState κ ι → SegAction κ ι → Prop) :
    SegState κ ι → Prop :=
  Reach (segStep cfg) ok (segStart cfg)

variable {cfg : SegConfig κ ι} {s s' : SegState κ ι}

theorem segStep_create {p : κ} {c : SysEnd} (h : segStep cfg s (.create p c) = some s') :
    ∃ pc, s.procs p = .creating pc ∧ s' = s.created p (createStep cfg c s.segment pc) := by
  simp only [segStep] at h
  split at h
  next pc hpc => exact ⟨pc, hpc, (Option.some.inj h).symm⟩
  next => cases h

theorem segStep_of_creating {p : κ} {pc : CreatePc} (hpc : s.procs p = .creating pc) (c : SysEnd) :
    segStep cfg s (.create p c) = some (s.created p (createStep cfg c s.segment pc)) := by
  simp only [segStep, hpc]

theorem segStep_queue {t : ι} {ch : Choice} (h : segStep cfg s (.queue t ch) = some s') :
    s.procs (cfg.proc t) = .connected ∧
      ∃ q, step cfg.toConfig s.queue (t, ch) = some q ∧ s' = { s with queue := q } := by
  simp only [segStep] at h
  split at h
  next hpc =>
    obtain ⟨q, hq, rfl⟩ := Option.map_eq_some_iff.mp h
    exact ⟨hpc, q, hq, rfl⟩
  next => cases h

end Step

end AtomicMessageQueue
