import AtomicMessageQueue.Creation.Segment
import AtomicMessageQueue.System.Exclusion

/-! # `connect` and what the system calls under it return

Reference: `MessageQueue.h`, `connect`; `shmIPC.h`, the constructor `ShmQueue(std::string)` and `create`
in its POSIX branch, run to the end by one process. The branch of `create` that fills a fresh segment
ends without a `return`, and neither `fstat` nor `ftruncate` is checked, nor the size of a segment that
exists already.
-/

namespace AtomicMessageQueue

open Transition Relation

/-! ## Objects -/

/-- A `ShmQueue`: `m_pBuffer`, as the number of the mapping it points to; nothing is the null pointer. -/
structure ShmQueue where
  buffer : Option ℕ
deriving DecidableEq, Repr

/-- The fields of a `MessageQueue` that tell whether it is connected: `connected_`, and the object
`queue_` points to. -/
structure Client where
  connected : Bool
  queue : Option ShmQueue
deriving DecidableEq, Repr

/-- The mappings of the process: how many `mmap` calls have succeeded, and the mappings that have been
passed to `munmap`, latest first. -/
structure Mappings where
  count : ℕ
  unmapped : List ℕ
deriving DecidableEq, Repr

/-- The next mapping. -/
def Mappings.map (k : Mappings) : Mappings := { k with count := k.count + 1 }

/-- What the system calls of one `create` do: whether each succeeds, and the `st_size` that an `fstat`
that fails leaves in `st`. -/
structure SystemCalls where
  shmOpen : Bool
  fstat : Bool
  staleSize : ℕ
  ftruncate : Bool
  mmap : Bool
deriving DecidableEq, Repr

/-- The ring's dimensions, `sizeof(MemBuff)` and the page size. -/
structure Layout where
  blockCount : ℕ
  sizeofMemBuff : ℕ
  pageSize : ℕ

/-- `size_t shm_size = sizeof(MemBuff) + IPC_MEM_PAD;` -/
def Layout.shmSize (cfg : Layout) : ℕ := cfg.sizeofMemBuff + ipcMemPad

/-- How many bytes of a mapping of the segment can be accessed: its size, rounded up to whole pages. -/
def Layout.accessible (cfg : Layout) (seg : Segment) : ℕ :=
  (seg.size + cfg.pageSize - 1) / cfg.pageSize * cfg.pageSize

/-! ## `create`, the constructor and `connect` -/

/-- How `create` ends: with a `return`, at its end without one, or by the signal for an access beyond
the last page of the segment. -/
inductive CreateEnd
  | status (sts : ℤ)
  | noStatus
  | killed
deriving DecidableEq, Repr

/-- What `create` leaves: how it ended, `m_pBuffer`, the mappings and the segment. -/
structure Created where
  ending : CreateEnd
  buffer : Option ℕ
  maps : Mappings
  seg : Segment

/-- `current_size = st.st_size;` -/
def SystemCalls.currentSize (sys : SystemCalls) (seg : Segment) : ℕ :=
  if sys.fstat then seg.size else sys.staleSize

/-- `ftruncate(m_shmfd,shm_size);`, whose result is not looked at. -/
def SystemCalls.truncated (sys : SystemCalls) (cfg : Layout) (seg : Segment) : Segment :=
  if sys.ftruncate then seg.truncate cfg.shmSize else seg

/-- `ShmQueue::create`. -/
def ShmQueue.create (cfg : Layout) (sys : SystemCalls) (maps : Mappings) (seg : Segment) : Created :=
  if ¬ sys.shmOpen then { ending := .status (-1), buffer := none, maps := maps, seg := seg }
  else if sys.currentSize seg = 0 then
    let seg := sys.truncated cfg seg
    if ¬ sys.mmap then { ending := .status (-1), buffer := none, maps := maps, seg := seg }
    else if cfg.accessible seg < cfg.sizeofMemBuff then
      { ending := .killed, buffer := none, maps := maps.map, seg := seg }
    else
      { ending := .noStatus, buffer := some maps.count, maps := maps.map,
        seg := { seg with mem := AtomicMessageQueue.create cfg.blockCount } }
  else if ¬ sys.mmap then { ending := .status (-1), buffer := none, maps := maps, seg := seg }
  else { ending := .status 0, buffer := some maps.count, maps := maps.map, seg := seg }

/-- How `connect` ends: it returns, or the process has been killed. -/
inductive ConnectEnd
  | returned (code : ℤ)
  | killed
deriving DecidableEq, Repr

/-- What `connect` leaves. -/
structure Connected where
  ending : ConnectEnd
  client : Client
  maps : Mappings
  seg : Segment

/-- A `MessageQueue` whose `queue_` is a new `ShmQueue` on mapping `b`. -/
def Client.attached (b : ℕ) : Client := { connected := true, queue := some { buffer := some b } }

/-- `MessageQueue::connect`. The constructor throws if `create` returns -1, and `queue_` is then not
assigned; `leftover` is what it finds as the status of a `create` that has returned none. -/
def Client.connect (cfg : Layout) (sys : SystemCalls) (leftover : ℤ) (c : Client) (maps : Mappings)
    (seg : Segment) : Connected :=
  let made := ShmQueue.create cfg sys maps seg
  let finish (sts : ℤ) : Connected :=
    if sts = -1 then { ending := .returned (-1), client := c, maps := made.maps, seg := made.seg }
    else
      { ending := .returned 0, client := { connected := true, queue := some { buffer := made.buffer } },
        maps := made.maps, seg := made.seg }
  match made.ending with
  | .status sts => finish sts
  | .noStatus => finish leftover
  | .killed => { ending := .killed, client := c, maps := made.maps, seg := made.seg }

/-! ## A ring in a segment -/

/-- The links and cursors of an initialised ring. -/
structure IsRing (N : ℕ) (m : MemBuff) : Prop where
  links : Linked N m
  cursors : m.writeStart < N ∧ m.writeEnd < N ∧ m.readStart < N ∧ m.readEnd < N

/-- `create` makes a ring. -/
theorem isRing_create {N : ℕ} (hN : 2 ≤ N) : IsRing N (create N) := by
  refine ⟨create_linked hN, ?_⟩
  rw [create_eq hN]
  exact ⟨by show 0 < N; omega, by show 0 < N; omega, by show 0 < N; omega, by show 0 < N; omega⟩

/-- A ring stays one, whatever the threads that use it do. -/
theorem isRing_of_reached {ι : Type*} [DecidableEq ι] {cfg : Config ι} (hN : 2 ≤ cfg.blockCount)
    {s : State ι} (h : Reached cfg anyStep s) : IsRing cfg.blockCount s.mem := by
  have hcur := cursors_of_reached hN h
  have hpos : 0 < cfg.blockCount := by omega
  refine ⟨hcur.links, ?_, ?_, ?_, ?_⟩
  · exact hcur.writeStart ▸ Nat.mod_lt _ hpos
  · exact hcur.writeEnd ▸ Nat.mod_lt _ hpos
  · exact hcur.readStart ▸ Nat.mod_lt _ hpos
  · exact hcur.readEnd ▸ Nat.mod_lt _ hpos

/-- A segment nobody has filled holds no ring. -/
theorem not_isRing_zero {N : ℕ} (hN : 2 ≤ N) : ¬ IsRing N MemBuff.zero := by
  intro h
  have hnext := h.links.next 0 (by omega)
  rw [Nat.mod_eq_of_lt (by omega)] at hnext
  exact absurd hnext (by decide)

/-! ## `create` step by step -/

section Alone

variable {κ ι : Type*} {steps : SegConfig κ ι} {cfg : Layout} {sys : SystemCalls} {maps : Mappings}
  {seg : Segment}

/-- Whether the system call at a program point of `create` succeeds. -/
def SystemCalls.ok (sys : SystemCalls) : CreatePc → Bool
  | .shmOpen => sys.shmOpen
  | .fstat => sys.fstat
  | .ftruncate => sys.ftruncate
  | .mmapNew => sys.mmap
  | .store _ => true
  | .mmap => sys.mmap

/-- How the system call at a program point of `create` ends. -/
def SystemCalls.sysEnd (sys : SystemCalls) (pc : CreatePc) : SysEnd :=
  if sys.ok pc then .succeeds else .fails sys.staleSize

theorem SystemCalls.sysEnd_ok (sys : SystemCalls) (pc : CreatePc) : (sys.sysEnd pc).ok = sys.ok pc := by
  unfold sysEnd
  split
  next h => exact h.symm
  next h => exact (Bool.eq_false_iff.mpr h).symm

theorem SystemCalls.sysEnd_stSize (sys : SystemCalls) (seg : Segment) :
    (sys.sysEnd .fstat).stSize seg.size = sys.currentSize seg := by
  cases h : sys.fstat <;> simp [sysEnd, currentSize, ok, SysEnd.stSize, h]

/-- A step of `create` while no other process uses the segment. -/
inductive CreateAlone (steps : SegConfig κ ι) (sys : SystemCalls) :
    Segment × Proc → Segment × Proc → Prop
  | step (seg : Segment) (pc : CreatePc) : CreateAlone steps sys (seg, .creating pc)
      ((createStep steps (sys.sysEnd pc) seg pc).1, (createStep steps (sys.sysEnd pc) seg pc).2.1)

/-- Where a process stands after a `create` that has ended so. -/
def CreateEnd.proc : CreateEnd → Proc
  | .status sts => if sts = -1 then .failed else .connected
  | .noStatus => .connected
  | .killed => .killed

/-- A step with its result written out. -/
theorem CreateAlone.to {pc : CreatePc} {seg' : Segment} {p : Proc}
    (hseg : (createStep steps (sys.sysEnd pc) seg pc).1 = seg')
    (hproc : (createStep steps (sys.sysEnd pc) seg pc).2.1 = p) :
    CreateAlone steps sys (seg, .creating pc) (seg', p) := by
  rw [← hseg, ← hproc]
  exact .step seg pc

/-- The stores of the initialisation, run to the end. -/
theorem stores_alone (hsize : seg.size ≠ 0) (n : ℕ) :
    ReflTransGen (CreateAlone steps sys) (seg, .creating (.store n))
      ({ seg with mem := runStores ((createStores steps.blockCount).drop n) seg.mem }, .connected) := by
  generalize hrest : (createStores steps.blockCount).drop n = rest
  have hhead : (createStores steps.blockCount)[n]? = rest.head? := by
    rw [← hrest, List.head?_drop]
  induction rest generalizing n seg with
  | nil =>
      simp only [List.head?_nil] at hhead
      exact .single (.to (by simp only [createStep, hhead, runStores, List.foldl_nil])
        (by simp only [createStep, hhead]))
  | cons store rest ih =>
      have hstep : CreateAlone steps sys (seg, .creating (.store n))
          ({ seg with mem := store seg.mem }, .creating (.store (n + 1))) :=
        .to (by simp only [createStep, hhead, List.head?_cons, hsize, if_false])
          (by simp only [createStep, hhead, List.head?_cons, hsize, if_false])
      have htail : (createStores steps.blockCount).drop (n + 1) = rest := by
        rw [← List.tail_drop, hrest, List.tail_cons]
      have hsize' : ({ seg with mem := store seg.mem } : Segment).size ≠ 0 := hsize
      exact .head hstep (ih hsize' (n + 1) htail (by rw [← htail, List.head?_drop]))

/-- Every byte of a segment can be accessed. -/
theorem Layout.size_le_accessible (cfg : Layout) (hpage : 0 < cfg.pageSize) (seg : Segment) :
    seg.size ≤ cfg.accessible seg := by
  have hdiv := Nat.div_add_mod (seg.size + cfg.pageSize - 1) cfg.pageSize
  have hmod := Nat.mod_lt (seg.size + cfg.pageSize - 1) hpage
  rw [Layout.accessible, Nat.mul_comm]
  omega

/-- Nothing of an empty segment can be accessed. -/
theorem Layout.accessible_eq_zero (cfg : Layout) (hpage : 0 < cfg.pageSize)
    (hsize : seg.size = 0) : cfg.accessible seg = 0 := by
  rw [Layout.accessible, hsize, Nat.zero_add, Nat.div_eq_of_lt (Nat.sub_lt hpage Nat.zero_lt_one),
    Nat.zero_mul]

/-- What is accessed of an empty segment after `ftruncate` is out of bounds exactly if it is still
empty. -/
theorem accessible_lt_iff (hbuff : 0 < cfg.sizeofMemBuff) (hpage : 0 < cfg.pageSize)
    (hsize : seg.size = 0) :
    cfg.accessible (sys.truncated cfg seg) < cfg.sizeofMemBuff ↔ (sys.truncated cfg seg).size = 0 := by
  cases htrunc : sys.ftruncate with
  | true =>
      have hlarge : cfg.sizeofMemBuff ≤ (sys.truncated cfg seg).size := by
        rw [SystemCalls.truncated, if_pos htrunc]
        exact Nat.le_add_right _ _
      have haccessible := cfg.size_le_accessible hpage (sys.truncated cfg seg)
      constructor
      · exact fun hlt => absurd hlt (not_lt.mpr (hlarge.trans haccessible))
      · omega
  | false =>
      have htruncated : sys.truncated cfg seg = seg := if_neg (by rw [htrunc]; decide)
      rw [htruncated, cfg.accessible_eq_zero hpage hsize]
      exact ⟨fun _ => hsize, fun _ => hbuff⟩

/-- **`create` is its steps, run by one process alone**, whatever a `fstat` that fails leaves, other than
a 0 for a segment that has a size. The pages that can be accessed matter only where `ftruncate` has left
the segment empty. -/
theorem create_alone (hblocks : steps.blockCount = cfg.blockCount)
    (hlayout : steps.sizeofMemBuff = cfg.sizeofMemBuff) (hbuff : 0 < cfg.sizeofMemBuff)
    (hpage : 0 < cfg.pageSize) (hstat : sys.currentSize seg = 0 → seg.size = 0) :
    ReflTransGen (CreateAlone steps sys) (seg, .creating .shmOpen)
      ((ShmQueue.create cfg sys maps seg).seg, (ShmQueue.create cfg sys maps seg).ending.proc) := by
  have hshm : steps.shmSize = cfg.shmSize := by rw [SegConfig.shmSize, Layout.shmSize, hlayout]
  cases hopen : sys.shmOpen with
  | false =>
      simp only [ShmQueue.create, hopen]
      exact .single (.to rfl (by
        simp [createStep, SystemCalls.sysEnd_ok, SystemCalls.ok, hopen, CreateEnd.proc]))
  | true =>
      have hfirst : CreateAlone steps sys (seg, .creating .shmOpen) (seg, .creating .fstat) :=
        .to rfl (by simp [createStep, SystemCalls.sysEnd_ok, SystemCalls.ok, hopen])
      refine .head hfirst ?_
      by_cases hread : sys.currentSize seg = 0
      · have hsize := hstat hread
        have hfound : CreateAlone steps sys (seg, .creating .fstat) (seg, .creating .ftruncate) :=
          .to rfl (by rw [createStep, SystemCalls.sysEnd_stSize, if_pos hread])
        have htruncated : CreateAlone steps sys (seg, .creating .ftruncate)
            (sys.truncated cfg seg, .creating .mmapNew) :=
          .to (by
            simp only [createStep, SystemCalls.sysEnd_ok, SystemCalls.ok, SystemCalls.truncated, hshm]) rfl
        refine .head hfound (.head htruncated ?_)
        cases hmap : sys.mmap with
        | false =>
            simp only [ShmQueue.create, hopen, hread, hmap, Bool.false_eq_true,
              not_true_eq_false, not_false_eq_true, if_true, if_false]
            exact .single (.to rfl (by
              simp [createStep, SystemCalls.sysEnd_ok, SystemCalls.ok, hmap, CreateEnd.proc]))
        | true =>
            have hmapped : CreateAlone steps sys (sys.truncated cfg seg, .creating .mmapNew)
                (sys.truncated cfg seg, .creating (.store 0)) :=
              .to rfl (by simp [createStep, SystemCalls.sysEnd_ok, SystemCalls.ok, hmap])
            refine .head hmapped ?_
            simp only [ShmQueue.create, hopen, hread, hmap, not_true_eq_false, if_true, if_false]
            by_cases hempty : (sys.truncated cfg seg).size = 0
            · rw [if_pos ((accessible_lt_iff hbuff hpage hsize).mpr hempty)]
              exact .single (.to (by simp [createStep, createStores, hempty])
                (by simp [createStep, createStores, hempty, CreateEnd.proc]))
            · rw [if_neg fun hlt => hempty ((accessible_lt_iff hbuff hpage hsize).mp hlt)]
              have hrun : ReflTransGen (CreateAlone steps sys) _ _ := stores_alone hempty 0
              rwa [List.drop_zero, hblocks, runStores_createStores] at hrun
      · have hfound : CreateAlone steps sys (seg, .creating .fstat) (seg, .creating .mmap) :=
          .to rfl (by rw [createStep, SystemCalls.sysEnd_stSize, if_neg hread])
        refine .head hfound (.single (.to ?_ ?_)) <;>
          cases hmap : sys.mmap <;>
            simp [ShmQueue.create, createStep, SystemCalls.sysEnd_ok, SystemCalls.ok, CreateEnd.proc, hopen,
              hread, hmap]

end Alone

/-! ## The paths through `connect` -/

section Paths

variable {cfg : Layout} {sys : SystemCalls} {maps : Mappings} {seg : Segment}

/-- A `shm_open` or `mmap` that fails makes `create` return -1, and it has mapped nothing. -/
theorem create_fails (cfg : Layout) (maps : Mappings) (seg : Segment)
    (h : sys.shmOpen = false ∨ sys.mmap = false) :
    (ShmQueue.create cfg sys maps seg).ending = .status (-1) ∧
      (ShmQueue.create cfg sys maps seg).maps = maps := by
  by_cases hopen : sys.shmOpen = true
  · have hmap : sys.mmap = false := h.resolve_left (by rw [hopen]; exact Bool.true_eq_false_eq_False)
    by_cases hsize : sys.currentSize seg = 0 <;> simp [ShmQueue.create, hopen, hmap, hsize]
  · simp [ShmQueue.create, hopen]

/-- A segment that is there already is mapped as it is. -/
theorem create_existing (hopen : sys.shmOpen = true) (hmap : sys.mmap = true)
    (hsize : sys.currentSize seg ≠ 0) :
    ShmQueue.create cfg sys maps seg =
      { ending := .status 0, buffer := some maps.count, maps := maps.map, seg := seg } := by
  simp [ShmQueue.create, hopen, hmap, hsize]

/-- A segment that looks fresh is filled, and `create` returns no status. -/
theorem create_fresh (cfg : Layout) (maps : Mappings) (hopen : sys.shmOpen = true) (hmap : sys.mmap = true)
    (hsize : sys.currentSize seg = 0) :
    (ShmQueue.create cfg sys maps seg).ending = .killed ∨
      ((ShmQueue.create cfg sys maps seg).ending = .noStatus ∧
        (ShmQueue.create cfg sys maps seg).buffer = some maps.count ∧
        (ShmQueue.create cfg sys maps seg).maps = maps.map) := by
  simp only [ShmQueue.create, hopen, hmap, hsize, not_true_eq_false, if_false, if_true]
  by_cases hacc : cfg.accessible (sys.truncated cfg seg) < cfg.sizeofMemBuff
  · exact .inl (by rw [if_pos hacc])
  · exact .inr (by rw [if_neg hacc]; exact ⟨rfl, rfl, rfl⟩)

variable {leftover : ℤ} {c : Client}

/-- Where `shm_open` or `mmap` fails, `connect` returns -1 and changes nothing. -/
theorem connect_fails (cfg : Layout) (leftover : ℤ) (c : Client) (maps : Mappings) (seg : Segment)
    (h : sys.shmOpen = false ∨ sys.mmap = false) :
    (c.connect cfg sys leftover maps seg).ending = .returned (-1) ∧
      (c.connect cfg sys leftover maps seg).client = c ∧
      (c.connect cfg sys leftover maps seg).maps = maps := by
  obtain ⟨hending, hmaps⟩ := create_fails cfg maps seg h
  simp only [Client.connect, hending, if_true, hmaps, and_self]

/-- Where the segment is there already, `connect` returns 0. -/
theorem connect_existing (hopen : sys.shmOpen = true) (hmap : sys.mmap = true)
    (hsize : sys.currentSize seg ≠ 0) :
    c.connect cfg sys leftover maps seg =
      { ending := .returned 0, client := .attached maps.count, maps := maps.map, seg := seg } := by
  simp only [Client.connect, create_existing hopen hmap hsize]
  rfl

/-- A `connect` that returns 0 leaves the client attached to the next mapping. -/
theorem connect_succeeds (h : (c.connect cfg sys leftover maps seg).ending = .returned 0) :
    (c.connect cfg sys leftover maps seg).client = .attached maps.count ∧
      (c.connect cfg sys leftover maps seg).maps = maps.map := by
  by_cases hfail : sys.shmOpen = false ∨ sys.mmap = false
  · rw [(connect_fails cfg leftover c maps seg hfail).1] at h
    exact absurd h (by decide)
  · obtain ⟨hopen, hmap⟩ : sys.shmOpen = true ∧ sys.mmap = true := by simpa using hfail
    by_cases hsize : sys.currentSize seg = 0
    · rcases create_fresh cfg maps hopen hmap hsize with
        hending | ⟨hending, hbuffer, hmaps⟩
      · simp only [Client.connect, hending, reduceCtorEq] at h
      · simp only [Client.connect, hending, hbuffer, hmaps] at h ⊢
        split at h
        · cases h
        · rw [if_neg ‹_›]
          exact ⟨rfl, rfl⟩
    · rw [connect_existing hopen hmap hsize]
      exact ⟨rfl, rfl⟩

end Paths

/-! ## When `connect` does what it says -/

/-- What `connect` is to do: `create` fails or returns 0; `connect` returns 0 exactly if `queue_` now
refers to a new mapping of a segment that is large enough and holds a ring, and then it is connected;
otherwise it returns -1 and leaves the client as it was. -/
structure ConnectsSoundly (cfg : Layout) (c : Client) (maps : Mappings) (made : Created)
    (out : Connected) : Prop where
  status : made.ending = .status (-1) ∨ made.ending = .status 0
  zero_iff : out.ending = .returned 0 ↔
    (out.client.queue = some { buffer := some maps.count } ∧ out.maps = maps.map) ∧
      cfg.sizeofMemBuff ≤ out.seg.size ∧ IsRing cfg.blockCount out.seg.mem
  connected : out.ending = .returned 0 → out.client.connected = true
  otherwise : out.ending ≠ .returned 0 → out.ending = .returned (-1) ∧ out.client = c

theorem Mappings.ne_map (maps : Mappings) : maps ≠ maps.map := by
  intro h
  exact absurd (congrArg Mappings.count h) (Nat.succ_ne_self _).symm

/-- **`connect` does what it says** exactly where `shm_open` or `mmap` fails, or where the size it reads
is not 0 and the segment that is there is large enough and holds a ring. -/
theorem connect_sound_iff (cfg : Layout) (sys : SystemCalls) (leftover : ℤ) (c : Client)
    (maps : Mappings) (seg : Segment) :
    ConnectsSoundly cfg c maps (ShmQueue.create cfg sys maps seg)
        (c.connect cfg sys leftover maps seg) ↔
      (sys.shmOpen = false ∨ sys.mmap = false) ∨
        sys.currentSize seg ≠ 0 ∧ cfg.sizeofMemBuff ≤ seg.size ∧ IsRing cfg.blockCount seg.mem := by
  by_cases hfail : sys.shmOpen = false ∨ sys.mmap = false
  · obtain ⟨hending, hclient, hmaps⟩ :=
      connect_fails cfg leftover c maps seg hfail
    refine ⟨fun _ => .inl hfail, fun _ => ⟨.inl (create_fails cfg maps seg hfail).1, ?_, ?_, ?_⟩⟩
    · rw [hending, hmaps]
      exact ⟨fun h => absurd h (by decide), fun h => absurd h.1.2 maps.ne_map⟩
    · rw [hending]
      exact fun h => absurd h (by decide)
    · exact fun _ => ⟨hending, hclient⟩
  · obtain ⟨hopen, hmap⟩ : sys.shmOpen = true ∧ sys.mmap = true := by simpa using hfail
    by_cases hsize : sys.currentSize seg = 0
    · -- the branch that fills the segment ends without a status
      refine ⟨fun h => ?_, fun h => absurd hsize (h.resolve_left hfail).1⟩
      rcases create_fresh cfg maps hopen hmap hsize with hending | ⟨hending, -⟩ <;>
        (rcases h.status with hs | hs <;> (rw [hending] at hs; cases hs))
    · rw [create_existing hopen hmap hsize, connect_existing hopen hmap hsize]
      constructor
      · intro h
        exact .inr ⟨hsize, (h.zero_iff.mp rfl).2⟩
      · intro h
        obtain ⟨-, hring⟩ := h.resolve_left hfail
        exact ⟨.inr rfl, ⟨fun _ => ⟨⟨rfl, rfl⟩, hring⟩, fun _ => rfl⟩, fun _ => rfl,
          fun h => absurd rfl h⟩

/-- A layout of three blocks, with every system call succeeding. -/
def threeBlocks : Layout := { blockCount := 3, sizeofMemBuff := 256, pageSize := 4096 }

/-- All system calls succeed. -/
def allSucceed : SystemCalls :=
  { shmOpen := true, fstat := true, staleSize := 0, ftruncate := true, mmap := true }

/-- The client and mappings of a process before its first `connect`. -/
def notConnected : Client := { connected := false, queue := none }

def noMappings : Mappings := { count := 0, unmapped := [] }

/-- `connect` does not do what it says on a fresh segment, where `create` succeeds without a status, nor
on a segment of one byte, where it returns 0. -/
theorem connect_unsound :
    ¬ ConnectsSoundly threeBlocks notConnected noMappings
        (ShmQueue.create threeBlocks allSucceed noMappings ⟨0, MemBuff.zero⟩)
        (notConnected.connect threeBlocks allSucceed 0 noMappings ⟨0, MemBuff.zero⟩) ∧
      ¬ ConnectsSoundly threeBlocks notConnected noMappings
        (ShmQueue.create threeBlocks allSucceed noMappings ⟨1, MemBuff.zero⟩)
        (notConnected.connect threeBlocks allSucceed 0 noMappings ⟨1, MemBuff.zero⟩) := by
  constructor
  · intro h
    have hending : (ShmQueue.create threeBlocks allSucceed noMappings ⟨0, MemBuff.zero⟩).ending =
        .noStatus := by decide
    rcases h.status with hs | hs <;> (rw [hending] at hs; cases hs)
  · intro h
    have hsmall : (notConnected.connect threeBlocks allSucceed 0 noMappings
        ⟨1, MemBuff.zero⟩).seg.size < threeBlocks.sizeofMemBuff := by decide
    exact absurd (h.zero_iff.mp (by decide)).2.1 (not_le.mpr hsmall)

end AtomicMessageQueue
