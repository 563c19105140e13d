import Mathlib.Data.Fintype.Basic
import AtomicMessageQueue.Creation.Segment

/-! # One initialisation

`create` decides by the size of the segment whether to initialise it, and sets the size before it
initialises. As long as no other `create` reads the size in between, the segment goes through three
phases: nobody has found it empty, one process is setting it up, and it is ready. From then on the
queue in it runs as the system of threads does from the buffer `create` sets up.
-/

namespace AtomicMessageQueue

open Function Transition

variable {κ ι : Type*}

/-! ## The condition -/

/-- Inside `create`, having found the size 0, with stores of the initialisation left. -/
def Proc.SettingUp (storeCount : ℕ) : Proc → Prop
  | .creating .ftruncate => True
  | .creating .mmapNew => True
  | .creating (.store n) => n < storeCount
  | _ => False

instance (storeCount : ℕ) (p : Proc) : Decidable (p.SettingUp storeCount) := by
  unfold Proc.SettingUp
  split <;> infer_instance

/-- No `create` reads the size of the segment while another that has found it 0 is setting the segment
up, a `fstat` that fails leaves a size that is 0 only if the true one is and the other way round, and no
`create` that has set the size fails to map the segment. -/
def Undisturbed (cfg : SegConfig κ ι) (s : SegState κ ι) : SegAction κ ι → Prop
  | .create p c =>
      match s.procs p with
      | .creating .fstat =>
          (∀ q, ¬ (s.procs q).SettingUp cfg.storeCount) ∧ (c.stSize s.size = 0 ↔ s.size = 0)
      | .creating .mmapNew => c.ok = true ∨ s.size = 0
      | _ => True
  | .queue _ _ => True

instance [Fintype κ] (cfg : SegConfig κ ι) (s : SegState κ ι) (a : SegAction κ ι) :
    Decidable (Undisturbed cfg s a) := by
  unfold Undisturbed
  split
  · split <;> infer_instance
  · infer_instance

/-! ## The phases -/

/-- Before the branch in `create`, or never to use the segment. -/
def Proc.Outside : Proc → Prop
  | .creating .shmOpen => True
  | .creating .fstat => True
  | .failed => True
  | .killed => True
  | _ => False

/-- No thread has entered the queue's methods. -/
def SegState.Unused (s : SegState κ ι) : Prop :=
  s.queue.hist = [] ∧ s.queue.threads = fun _ => { pc := none, heldWrite := [], heldRead := [] }

/-- Nobody has set the size. -/
structure SegState.Fresh (s : SegState κ ι) : Prop where
  size : s.size = 0
  inits : s.inits = []
  unused : s.Unused
  outside : ∀ p, (s.procs p).Outside

/-- Process `p` has found the size 0 and done `n` of its stores; the others lead to the buffer that
`create` sets up. -/
structure SegState.SettingUp (cfg : SegConfig κ ι) (p : κ) (n : ℕ) (s : SegState κ ι) : Prop where
  size : 0 < n → s.size ≠ 0
  inits : s.inits = List.replicate n p
  unused : s.Unused
  outside : ∀ q, q ≠ p → (s.procs q).Outside
  lt : n < cfg.storeCount
  own : s.procs p = .creating (.store n) ∨
    n = 0 ∧ (s.procs p = .creating .ftruncate ∨ s.procs p = .creating .mmapNew)
  rest : runStores ((createStores cfg.blockCount).drop n) s.queue.mem = create cfg.blockCount

/-- Process `p` has initialised the segment, and nobody is setting it up. -/
structure SegState.Ready [DecidableEq ι] (cfg : SegConfig κ ι) (p : κ) (s : SegState κ ι) : Prop where
  size : s.size ≠ 0
  inits : s.inits = List.replicate cfg.storeCount p
  queue : Reached cfg.toConfig anyStep s.queue
  done : ∀ q, ¬ (s.procs q).SettingUp cfg.storeCount

/-- The three phases of a segment. -/
inductive SegState.Phase [DecidableEq ι] (cfg : SegConfig κ ι) (s : SegState κ ι) : Prop
  | fresh (h : s.Fresh)
  | settingUp (p : κ) (n : ℕ) (h : s.SettingUp cfg p n)
  | ready (p : κ) (h : s.Ready cfg p)

theorem storeCount_pos (cfg : SegConfig κ ι) : 0 < cfg.storeCount := by
  simp only [SegConfig.storeCount, createStores, List.cons_append, List.length_cons]
  exact Nat.succ_pos _

theorem Proc.Outside.not_settingUp {p : Proc} (h : p.Outside) (storeCount : ℕ) :
    ¬ p.SettingUp storeCount := by
  unfold Proc.Outside at h
  split at h <;> first | exact id | exact h.elim

theorem Proc.Outside.ne_connected {p : Proc} (h : p.Outside) : p ≠ .connected := by
  rintro rfl
  exact h

theorem SegState.SettingUp.proc {cfg : SegConfig κ ι} {p : κ} {n : ℕ} {s : SegState κ ι}
    (h : s.SettingUp cfg p n) : (s.procs p).SettingUp cfg.storeCount := by
  rcases h.own with hp | ⟨-, hp | hp⟩ <;> rw [hp]
  · exact h.lt
  · trivial
  · trivial

theorem SegState.SettingUp.not_connected {cfg : SegConfig κ ι} {p : κ} {n : ℕ} {s : SegState κ ι}
    (h : s.SettingUp cfg p n) (q : κ) : s.procs q ≠ .connected := by
  by_cases hqp : q = p
  · subst hqp
    intro hq
    have hproc := h.proc
    rw [hq] at hproc
    exact hproc
  · exact (h.outside q hqp).ne_connected

/-- The next of the stores that remain. -/
theorem SegState.SettingUp.next {cfg : SegConfig κ ι} {p : κ} {n : ℕ} {s : SegState κ ι}
    (h : s.SettingUp cfg p n) :
    ∃ store, (createStores cfg.blockCount)[n]? = some store ∧
      runStores ((createStores cfg.blockCount).drop (n + 1)) (store s.queue.mem) =
        create cfg.blockCount := by
  have hn : n < (createStores cfg.blockCount).length := h.lt
  have hrest := h.rest
  rw [List.drop_eq_getElem_cons hn] at hrest
  exact ⟨_, List.getElem?_eq_getElem hn, hrest⟩

theorem SegState.Unused.publishes {s : SegState κ ι} (h : s.Unused) : publishes s.queue.hist = 0 := by
  rw [h.1]
  rfl

/-- Once all stores are done the buffer is the one `create` sets up, and no thread has used it. -/
theorem SegState.Unused.reached [DecidableEq ι] {cfg : SegConfig κ ι} {s : SegState κ ι}
    (h : s.Unused) (hmem : s.queue.mem = create cfg.blockCount) :
    Reached cfg.toConfig anyStep s.queue := by
  have hstart : s.queue = start cfg.toConfig := by
    obtain ⟨hhist, hthreads⟩ := h
    cases hq : s.queue with
    | mk mem threads hist =>
        rw [hq] at hmem hhist hthreads
        simp only at hmem hhist hthreads
        rw [hmem, hhist, hthreads]
        rfl
  rw [hstart]
  exact .init

/-! ## What a step of `create` does in each phase -/

/-- In a ready segment the next step of a `create` changes nothing. -/
theorem SegState.Ready.leaves [DecidableEq ι] {cfg : SegConfig κ ι} {owner p : κ}
    {s : SegState κ ι} (h : s.Ready cfg owner) (c : SysEnd) {pc : CreatePc}
    (hpc : s.procs p = .creating pc) :
    (createStep cfg c s.segment pc).1 = s.segment ∧ (createStep cfg c s.segment pc).2.2 = false := by
  have hdone := h.done p
  rw [hpc] at hdone
  cases pc with
  | ftruncate => exact absurd trivial hdone
  | mmapNew => exact absurd trivial hdone
  | store n =>
      have hnone : (createStores cfg.blockCount)[n]? = none :=
        List.getElem?_eq_none (not_lt.mp hdone)
      simp only [createStep, hnone, true_and]
  | _ => exact ⟨rfl, rfl⟩

/-- A `create` that reads the size of a ready segment does not start to set it up again. -/
theorem SegState.Ready.not_settingUp [DecidableEq κ] [DecidableEq ι] {cfg : SegConfig κ ι} {owner p : κ}
    {s : SegState κ ι} (h : s.Ready cfg owner) {c : SysEnd} {pc : CreatePc}
    (hpc : s.procs p = .creating pc) (hok : Undisturbed cfg s (.create p c)) :
    ¬ (createStep cfg c s.segment pc).2.1.SettingUp cfg.storeCount := by
  have hdone := h.done p
  rw [hpc] at hdone
  cases pc with
  | fstat =>
      simp only [Undisturbed, hpc] at hok
      have hread : c.stSize s.size ≠ 0 := fun h0 => h.size (hok.2.mp h0)
      simp only [createStep, segment, hread, if_false]
      exact id
  | ftruncate => exact absurd trivial hdone
  | mmapNew => exact absurd trivial hdone
  | store n =>
      have hnone : (createStores cfg.blockCount)[n]? = none :=
        List.getElem?_eq_none (not_lt.mp hdone)
      simp only [createStep, hnone]
      exact id
  | shmOpen | mmap => cases c <;> exact id

section Steps

variable [DecidableEq κ] {cfg : SegConfig κ ι} {s s' : SegState κ ι} {p : κ}

/-- A step of `create` that leaves the segment alone only moves its process on. -/
theorem SegState.created_of_same {e : Segment × Proc × Bool} (hseg : e.1 = s.segment)
    (hstore : e.2.2 = false) : s.created p e = { s with procs := update s.procs p e.2.1 } := by
  simp only [SegState.created, hseg, hstore, SegState.segment]
  rfl

/-- Moving a process to a place outside moves no other. -/
theorem outside_update {procs : κ → Proc} {place : Proc} (hplace : place.Outside) {q : κ}
    (h : q ≠ p → (procs q).Outside) : (update procs p place q).Outside := by
  by_cases hqp : q = p
  · subst hqp
    rw [update_self]
    exact hplace
  · rw [update_of_ne hqp]
    exact h hqp

variable [DecidableEq ι]

/-- A store of the initialisation, the last of which makes the segment ready. -/
theorem SegState.SettingUp.phase_stored {n : ℕ} {c : SysEnd} (h : s.SettingUp cfg p n)
    (hp : s.procs p = .creating (.store n)) :
    (s.created p (createStep cfg c s.segment (.store n))).Phase cfg := by
  obtain ⟨store, hstore, hrest⟩ := h.next
  by_cases hsize : s.size = 0
  · -- the size was never set: the store kills the process, and the segment stays empty
    have hn : n = 0 := by
      by_contra hn
      exact h.size (Nat.pos_of_ne_zero hn) hsize
    have hstep : createStep cfg c s.segment (.store n) = (s.segment, .killed, false) := by
      simp only [createStep, hstore, segment, hsize, if_true]
    rw [hstep, created_of_same rfl rfl]
    refine .fresh ⟨hsize, ?_, h.unused, fun q => outside_update ?_ (h.outside q)⟩
    · rw [h.inits, hn, List.replicate_zero]
    · trivial
  · have hstep : createStep cfg c s.segment (.store n) =
        (⟨s.size, store s.queue.mem⟩, .creating (.store (n + 1)), true) := by
      simp only [createStep, hstore, segment, hsize, if_false]
    have hinits : p :: s.inits = List.replicate (n + 1) p := by
      rw [h.inits, List.replicate_succ]
    rw [hstep]
    by_cases hlast : n + 1 < cfg.storeCount
    · refine .settingUp p (n + 1) ⟨fun _ => hsize, hinits, h.unused, fun q hq => ?_, hlast,
        .inl (update_self _ _ _), hrest⟩
      simp only [created, update_of_ne hq]
      exact h.outside q hq
    · have hcount : n + 1 = cfg.storeCount := le_antisymm h.lt (not_lt.mp hlast)
      refine .ready p ⟨hsize, hcount ▸ hinits, ?_, fun q => ?_⟩
      · refine SegState.Unused.reached
          (s := s.created p (⟨s.size, store s.queue.mem⟩, .creating (.store (n + 1)), true))
          h.unused ?_
        have hdrop : (createStores cfg.blockCount).drop (n + 1) = [] := by
          rw [hcount]
          exact List.drop_length
        rw [hdrop] at hrest
        exact hrest
      · by_cases hqp : q = p
        · subst hqp
          simp only [created, update_self, Proc.SettingUp]
          exact hlast
        · simp only [created, update_of_ne hqp]
          exact (h.outside q hqp).not_settingUp _

/-- A process leaves the segment alone until it has found the size 0. -/
theorem SegState.Fresh.phase_created (h : s.Fresh) {c : SysEnd} {pc : CreatePc}
    (hpc : s.procs p = .creating pc) (hok : Undisturbed cfg s (.create p c)) :
    (s.created p (createStep cfg c s.segment pc)).Phase cfg := by
  have hout := h.outside p
  rw [hpc] at hout
  cases pc with
  | shmOpen =>
      rw [created_of_same rfl rfl]
      refine .fresh ⟨h.size, h.inits, h.unused, fun q => outside_update ?_ fun _ => h.outside q⟩
      cases c <;> trivial
  | fstat =>
      simp only [Undisturbed, hpc] at hok
      have hread : c.stSize s.size = 0 := hok.2.mpr h.size
      rw [created_of_same rfl rfl]
      refine .settingUp p 0 ⟨nofun, h.inits, h.unused, fun q hq => ?_, storeCount_pos cfg,
        .inr ⟨rfl, .inl ?_⟩, runStores_createStores _ _⟩
      · simp only [update_of_ne hq]
        exact h.outside q
      · simp only [update_self, createStep, segment, hread, if_true]
  | _ => exact hout.elim

/-- While one process is setting the segment up, the others stay outside. -/
theorem SegState.SettingUp.phase_created {owner : κ} {n : ℕ} (h : s.SettingUp cfg owner n) {c : SysEnd}
    {pc : CreatePc} (hpc : s.procs p = .creating pc) (hok : Undisturbed cfg s (.create p c)) :
    (s.created p (createStep cfg c s.segment pc)).Phase cfg := by
  by_cases hp : p = owner
  · subst hp
    -- stores, `ftruncate`, `mmap`
    rcases h.own with hown | ⟨rfl, hown | hown⟩ <;> obtain rfl := Proc.creating.inj (hpc.symm.trans hown)
    · exact h.phase_stored hown
    · refine .settingUp p 0 ⟨nofun, h.inits, h.unused, fun q hq => ?_, h.lt,
        .inr ⟨rfl, .inr (update_self _ _ _)⟩, runStores_createStores _ _⟩
      simp only [created, update_of_ne hq]
      exact h.outside q hq
    · rw [created_of_same rfl rfl]
      cases c with
      | succeeds =>
          refine .settingUp p 0 ⟨nofun, h.inits, h.unused, fun q hq => ?_, h.lt,
            .inl (update_self _ _ _), runStores_createStores _ _⟩
          simp only [update_of_ne hq]
          exact h.outside q hq
      | fails staleSize =>
          simp only [Undisturbed, hpc] at hok
          refine .fresh ⟨hok.resolve_left nofun, h.inits, h.unused,
            fun q => outside_update ?_ (h.outside q)⟩
          trivial
  · have hout := h.outside p hp
    rw [hpc] at hout
    cases pc with
    | shmOpen =>
        rw [created_of_same rfl rfl]
        refine .settingUp owner n ⟨h.size, h.inits, h.unused, fun q hq => outside_update ?_
          fun _ => h.outside q hq, h.lt, ?_, h.rest⟩
        · cases c <;> trivial
        · simp only [update_of_ne (Ne.symm hp)]
          exact h.own
    | fstat =>
        -- reading the size here is what the condition rules out
        simp only [Undisturbed, hpc] at hok
        exact absurd h.proc (hok.1 owner)
    | _ => exact hout.elim

theorem SegState.Ready.phase_created {owner : κ} (h : s.Ready cfg owner) {c : SysEnd} {pc : CreatePc}
    (hpc : s.procs p = .creating pc) (hok : Undisturbed cfg s (.create p c)) :
    (s.created p (createStep cfg c s.segment pc)).Phase cfg := by
  obtain ⟨hseg, hstore⟩ := h.leaves c hpc
  rw [created_of_same hseg hstore]
  refine .ready owner ⟨h.size, h.inits, h.queue, fun q => ?_⟩
  by_cases hqp : q = p
  · subst hqp
    simp only [update_self]
    exact h.not_settingUp hpc hok
  · simp only [update_of_ne hqp]
    exact h.done q

/-- **Step lemma of the phases.** -/
theorem SegState.Phase.step {a : SegAction κ ι} (h : s.Phase cfg) (hok : Undisturbed cfg s a)
    (hs : segStep cfg s a = some s') : s'.Phase cfg := by
  cases a with
  | create p c =>
      obtain ⟨pc, hpc, rfl⟩ := segStep_create hs
      cases h with
      | fresh h => exact h.phase_created hpc hok
      | settingUp owner n h => exact h.phase_created hpc hok
      | ready owner h => exact h.phase_created hpc hok
  | queue t ch =>
      obtain ⟨hconnected, q, hq, rfl⟩ := segStep_queue hs
      cases h with
      | fresh h => exact absurd hconnected (h.outside _).ne_connected
      | settingUp owner n h => exact absurd hconnected (h.not_connected _)
      | ready owner h => exact .ready owner ⟨h.size, h.inits, .step h.queue trivial hq, h.done⟩

theorem phase_of_reached (h : SegReached cfg (Undisturbed cfg) s) : s.Phase cfg :=
  h.invariant (.fresh ⟨rfl, rfl, ⟨rfl, rfl⟩, fun _ => trivial⟩) fun _ _ _ _ hphase hok hs =>
    hphase.step hok hs

end Steps

/-! ## One `create` initialises the segment -/

/-- What `create` promises: one process performs the stores of the initialisation; a `create` that has
returned leaves all of them done, with nothing but the queue's methods at work on the segment since;
and in a segment in which a message has been published no `create` changes anything. -/
structure CreatedOnce [DecidableEq κ] [DecidableEq ι] (cfg : SegConfig κ ι) (s : SegState κ ι) : Prop where
  one : ∀ p ∈ s.inits, ∀ q ∈ s.inits, p = q
  complete : ∀ p, s.procs p = .connected →
    s.inits.length = cfg.storeCount ∧ Reached cfg.toConfig anyStep s.queue
  keeps : 0 < publishes s.queue.hist → ∀ p c s', segStep cfg s (.create p c) = some s' →
    s'.segment = s.segment

section Main

variable [DecidableEq κ] [DecidableEq ι] {cfg : SegConfig κ ι} {s : SegState κ ι}

theorem SegState.Phase.createdOnce (h : s.Phase cfg) : CreatedOnce cfg s := by
  cases h with
  | fresh h =>
      refine ⟨fun p hp => ?_, fun p hp => absurd hp (h.outside p).ne_connected, fun hpub => ?_⟩
      · rw [h.inits] at hp
        exact absurd hp List.not_mem_nil
      · exact absurd h.unused.publishes hpub.ne'
  | settingUp owner n h =>
      refine ⟨fun p hp q hq => ?_, fun p hp => absurd hp (h.not_connected p), fun hpub => ?_⟩
      · rw [h.inits] at hp hq
        rw [List.eq_of_mem_replicate hp, List.eq_of_mem_replicate hq]
      · exact absurd h.unused.publishes hpub.ne'
  | ready owner h =>
      refine ⟨fun p hp q hq => ?_, fun p _ => ⟨?_, h.queue⟩, fun _ p c s' hs => ?_⟩
      · rw [h.inits] at hp hq
        rw [List.eq_of_mem_replicate hp, List.eq_of_mem_replicate hq]
      · rw [h.inits, List.length_replicate]
      · obtain ⟨pc, hpc, rfl⟩ := segStep_create hs
        exact (h.leaves c hpc).1

/-- **One `create` initialises the segment**, none returns before that is complete, and none changes a
segment with a published message, in every run in which no `create` reads the size while another is
setting the segment up or mistakes it because `fstat` fails, and none that has set it fails to map the
segment. -/
theorem create_once (h : SegReached cfg (Undisturbed cfg) s) : CreatedOnce cfg s :=
  (phase_of_reached h).createdOnce

end Main

/-- One process creates the segment and writes a message; then another opens it. -/
def openedAfter : List (SegAction (Fin 2) (Fin 2)) :=
  creates 0 25 ++ uses (during 0 (.write (fun _ => 65) 1) 16) ++ creates 1 3

theorem create_once_openedAfter :
    ∃ s, SegReached (openers 2 3 1) (Undisturbed (openers 2 3 1)) s ∧
      (s.procs 1 = .connected ∧ publishes s.queue.hist = 1) ∧ CreatedOnce (openers 2 3 1) s := by
  obtain ⟨s, hs, hwritten⟩ :
      ∃ s, SegReached (openers 2 3 1) (Undisturbed (openers 2 3 1)) s ∧
        (s.procs 1 = .connected ∧ publishes s.queue.hist = 1) :=
    Reach.exists_of_run openedAfter (by decide +kernel)
  exact ⟨s, hs, hwritten, create_once hs⟩

/-- Two processes read the size 0. The first initialises the segment and writes a message; then the
second starts to initialise it again. -/
def createdTwice : List (SegAction (Fin 2) (Fin 2)) :=
  creates 0 2 ++ creates 1 2 ++ creates 0 23 ++ uses (during 0 (.write (fun _ => 65) 1) 16) ++ creates 1 2

/-- One process sets the size of the segment, and another finds it set. -/
def openedEarly : List (SegAction (Fin 2) (Fin 2)) := creates 0 3 ++ creates 1 3

/-- A process returns from `create` with no store of the initialisation done; and a process overwrites
a segment that another has initialised and published a message in. -/
theorem creates_collide :
    (∃ s, SegReached (openers 2 3 1) anyStep s ∧ s.procs 1 = .connected ∧ s.inits = []) ∧
    ∃ s, SegReached (openers 2 3 1) anyStep s ∧
      (0 < publishes s.queue.hist ∧ s.queue.mem.writeEnd = 1) ∧
      ∃ s', segStep (openers 2 3 1) s (.create 1 .succeeds) = some s' ∧ s'.queue.mem.writeEnd = 0 ∧
        0 ∈ s'.inits ∧ 1 ∈ s'.inits := by
  constructor
  · exact Reach.exists_of_run openedEarly (by decide +kernel)
  · obtain ⟨s, hs, hpublished, hnext⟩ :
        ∃ s, SegReached (openers 2 3 1) anyStep s ∧
          (0 < publishes s.queue.hist ∧ s.queue.mem.writeEnd = 1) ∧
          (segStep (openers 2 3 1) s (.create 1 .succeeds)).any (fun s' =>
            decide (s'.queue.mem.writeEnd = 0 ∧ 0 ∈ s'.inits ∧ 1 ∈ s'.inits)) = true :=
      Reach.exists_of_run createdTwice (by decide +kernel)
    obtain ⟨s', hs', hlost⟩ := (Option.any_eq_true _ _).mp hnext
    exact ⟨s, hs, hpublished, s', hs', of_decide_eq_true hlost⟩

/-! ## The condition is needed -/

section Disturbed

variable [DecidableEq κ] [DecidableEq ι] {cfg : SegConfig κ ι} {s : SegState κ ι}

/-- Process `p` can perform the first store of the initialisation, moving no other process. -/
def CanStore (cfg : SegConfig κ ι) (p : κ) (s : SegState κ ι) : Prop :=
  ∃ s', Reach (segStep cfg) anyStep s s' ∧ s'.size ≠ 0 ∧ s'.inits = p :: s.inits ∧
    ∀ q, q ≠ p → s'.procs q = s.procs q

/-- A process that can store after a step of its own that stores nothing can store. -/
theorem CanStore.step {p : κ} {pc : CreatePc} (hpc : s.procs p = .creating pc) (c : SysEnd)
    (hstore : (createStep cfg c s.segment pc).2.2 = false)
    (h : CanStore cfg p (s.created p (createStep cfg c s.segment pc))) : CanStore cfg p s := by
  obtain ⟨s', hreach, hsize, hinits, hothers⟩ := h
  refine ⟨s', .trans (.step .init trivial (segStep_of_creating hpc c)) hreach, hsize, ?_,
    fun q hq => (hothers q hq).trans (update_of_ne hq _ _)⟩
  simpa only [SegState.created, hstore, Bool.false_eq_true, if_false] using hinits

theorem canStore_store {p : κ} (hpc : s.procs p = .creating (.store 0)) (hsize : s.size ≠ 0) :
    CanStore cfg p s := by
  have hstep : createStep cfg .succeeds s.segment (.store 0) =
      (⟨s.size, MemBuff.zero⟩, .creating (.store 1), true) := by
    simp only [createStep, createStores, List.cons_append, List.getElem?_cons_zero, SegState.segment,
      hsize, if_false]
  refine ⟨_, .step .init trivial (segStep_of_creating hpc .succeeds), ?_, ?_,
    fun q hq => update_of_ne hq _ _⟩
  · rw [hstep]
    exact hsize
  · rw [hstep]
    rfl

theorem canStore_mmapNew {p : κ} (hpc : s.procs p = .creating .mmapNew) (hsize : s.size ≠ 0) :
    CanStore cfg p s :=
  .step hpc .succeeds rfl (canStore_store (update_self _ _ _) hsize)

theorem canStore_ftruncate {p : κ} (hpc : s.procs p = .creating .ftruncate) : CanStore cfg p s :=
  .step hpc .succeeds rfl (canStore_mmapNew (update_self _ _ _)
    (show cfg.sizeofMemBuff + ipcMemPad ≠ 0 by unfold ipcMemPad; omega))

/-- Once a `create` reads the size while another is setting the segment up, `create` can break its
promise: either both initialise, or the reader returns too early. -/
theorem not_createdOnce_of_disturbed (h : SegReached cfg (Undisturbed cfg) s) {p q : κ}
    (hp : s.procs p = .creating .fstat) (hq : (s.procs q).SettingUp cfg.storeCount) :
    ∃ s', Reach (segStep cfg) anyStep s s' ∧ ¬ CreatedOnce cfg s' := by
  obtain ⟨n, hset⟩ : ∃ n, s.SettingUp cfg q n := by
    cases phase_of_reached h with
    | fresh h => exact absurd hq ((h.outside q).not_settingUp _)
    | ready owner h => exact absurd hq (h.done q)
    | settingUp owner n h =>
        by_cases hne : q = owner
        · exact ⟨n, hne ▸ h⟩
        · exact absurd hq ((h.outside q hne).not_settingUp _)
  have hne : q ≠ p := by
    rintro rfl
    rw [hp] at hq
    exact hq
  by_cases hsize : s.size = 0
  · -- the reader starts to initialise the segment too, and then the first process goes on
    have hread : CanStore cfg p s := .step hp .succeeds rfl <| canStore_ftruncate <| by
      simp only [SegState.created, update_self, createStep, SysEnd.stSize, SegState.segment, hsize, if_true]
    obtain ⟨s₁, hreach₁, hsize₁, hinits₁, hothers₁⟩ := hread
    have hn : n = 0 := by
      by_contra hn
      exact hset.size (Nat.pos_of_ne_zero hn) hsize
    have hfirst : CanStore cfg q s₁ := by
      rcases hset.own with hown | ⟨-, hown | hown⟩ <;> rw [← hothers₁ q hne] at hown
      · exact canStore_store (hn ▸ hown) hsize₁
      · exact canStore_ftruncate hown
      · exact canStore_mmapNew hown hsize₁
    obtain ⟨s₂, hreach₂, -, hinits₂, -⟩ := hfirst
    rw [hinits₁] at hinits₂
    refine ⟨s₂, hreach₁.trans hreach₂, fun hc => hne (hc.one q ?_ p ?_)⟩
    · rw [hinits₂]
      exact List.mem_cons_self
    · rw [hinits₂]
      exact List.mem_cons_of_mem _ List.mem_cons_self
  · -- the reader takes the segment for one that is there, and returns
    have hopen : (s.created p (createStep cfg .succeeds s.segment .fstat)).procs p = .creating .mmap := by
      simp only [SegState.created, update_self, createStep, SysEnd.stSize, SegState.segment, hsize,
        if_false]
    refine ⟨_, .step (.step .init trivial (segStep_of_creating hp .succeeds)) trivial
      (segStep_of_creating hopen .succeeds), fun hc => ?_⟩
    have hall : s.inits.length = cfg.storeCount := (hc.complete p (update_self _ _ _)).1
    rw [hset.inits, List.length_replicate] at hall
    exact absurd hall hset.lt.ne

end Disturbed

end AtomicMessageQueue
