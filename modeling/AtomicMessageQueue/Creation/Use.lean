import AtomicMessageQueue.Creation.Once
import AtomicMessageQueue.System.Delivery

/-! # A queue from its creation on

`create` and the queue's methods in one run: processes create the segment and connect to it at any time,
while the threads of those that have done so pass messages. As long as creation is undisturbed, what the
threads do is a run of the queue from the buffer `create` sets up, with the same races for its cursors, so
that whatever holds of such runs holds of the segment.
-/

namespace AtomicMessageQueue

open Function Transition

variable {κ ι : Type*}

/-- Creation is undisturbed, and the steps of the threads meet a condition. -/
def Orderly (cfg : SegConfig κ ι) (ok : State ι × Notes ι → ι × Choice → Prop)
    (p : SegState κ ι × Notes ι) : SegAction κ ι → Prop
  | .create q c => Undisturbed cfg p.1 (.create q c)
  | .queue t ch => ok (p.1.queue, p.2) (t, ch)

instance [Fintype κ] (cfg : SegConfig κ ι) (ok : State ι × Notes ι → ι × Choice → Prop)
    [∀ p a, Decidable (ok p a)] (p : SegState κ ι × Notes ι) :
    (a : SegAction κ ι) → Decidable (Orderly cfg ok p a)
  | .create q c => inferInstanceAs (Decidable (Undisturbed cfg p.1 (.create q c)))
  | .queue t ch => inferInstanceAs (Decidable (ok (p.1.queue, p.2) (t, ch)))

variable {cfg : SegConfig κ ι} {s s' : SegState κ ι} {n : Notes ι} {q : κ}
  {ok : State ι × Notes ι → ι × Choice → Prop}

theorem Orderly.undisturbed {p : SegState κ ι × Notes ι} {a : SegAction κ ι} (h : Orderly cfg ok p a) :
    Undisturbed cfg p.1 a := by
  cases a with
  | create q c => exact h
  | queue t ch => trivial

/-- A step of `create` that stores makes the next store of the initialisation. -/
theorem createStep_stores {c : SysEnd} {seg : Segment} {pc : CreatePc}
    (h : (createStep cfg c seg pc).2.2 = true) :
    ∃ n store, pc = .store n ∧ (createStores cfg.blockCount)[n]? = some store ∧
      (createStep cfg c seg pc).1.mem = store seg.mem := by
  cases pc with
  | store n =>
      simp only [createStep] at h ⊢
      split at h
      next => cases h
      next store hstore =>
        split at h
        next => cases h
        next hsize =>
          refine ⟨n, store, rfl, hstore, ?_⟩
          simp only [if_neg hsize]
  | _ => cases h

/-- A queue that nobody has used is as `create` leaves it. -/
theorem SegState.Unused.eq_start (h : s.Unused) (hmem : s.queue.mem = create cfg.blockCount) :
    s.queue = start cfg.toConfig := by
  obtain ⟨hhist, hthreads⟩ := h
  calc s.queue = ⟨s.queue.mem, s.queue.threads, s.queue.hist⟩ := rfl
    _ = start cfg.toConfig := by
      rw [hmem, hthreads, hhist]
      rfl

section Runs

variable [DecidableEq ι]

/-! ## When the last store has been made -/

theorem SegState.Phase.ready_of_length (h : s.Phase cfg) (hlen : s.inits.length = cfg.storeCount) :
    ∃ p, s.Ready cfg p := by
  have hpos := storeCount_pos cfg
  cases h with
  | fresh h =>
      rw [h.inits, List.length_nil] at hlen
      omega
  | settingUp p n h =>
      have hlt := h.lt
      rw [h.inits, List.length_replicate] at hlen
      omega
  | ready p h => exact ⟨p, h⟩

theorem SegState.Phase.ready_of_connected (h : s.Phase cfg) (hq : s.procs q = .connected) :
    ∃ p, s.Ready cfg p := by
  cases h with
  | fresh h => exact absurd hq (h.outside q).ne_connected
  | settingUp p n h => exact absurd hq (h.not_connected q)
  | ready p h => exact ⟨p, h⟩

/-! ## The run of the queue -/

/-- Before any thread has made a step, the queue is as `create` leaves it; from then on it is on a run from
there. -/
inductive Underway (cfg : SegConfig κ ι) (ok : State ι × Notes ι → ι × Choice → Prop) :
    SegState κ ι × Notes ι → Prop
  | unused {s : SegState κ ι} (phase : s.Phase cfg) (unused : s.Unused)
      (mem : s.inits.length = cfg.storeCount → s.queue.mem = create cfg.blockCount) :
      Underway cfg ok (s, .start)
  | running {s : SegState κ ι} {n : Notes ι} (phase : s.Phase cfg)
      (full : s.inits.length = cfg.storeCount) (run : Noted cfg.toConfig ok (s.queue, n)) :
      Underway cfg ok (s, n)

/-- A connected process finds the queue on a run. -/
theorem Underway.noted (h : Underway cfg ok (s, n)) (hq : s.procs q = .connected) :
    s.inits.length = cfg.storeCount ∧ Noted cfg.toConfig ok (s.queue, n) := by
  cases h with
  | running phase full run => exact ⟨full, run⟩
  | unused phase unused mem =>
      obtain ⟨p, hready⟩ := phase.ready_of_connected hq
      have hfull : s.inits.length = cfg.storeCount := by
        rw [hready.inits, List.length_replicate]
      refine ⟨hfull, ?_⟩
      rw [unused.eq_start (mem hfull)]
      exact .init

variable [DecidableEq κ]

/-- Once as many stores have been made as the initialisation has, the buffer is the one `create` sets up,
whatever was made of them by which process. -/
theorem SegState.Phase.mem_created (h : s.Phase cfg)
    (hmem : s.inits.length = cfg.storeCount → s.queue.mem = create cfg.blockCount) {c : SysEnd}
    {pc : CreatePc} (hpc : s.procs q = .creating pc) :
    (s.created q (createStep cfg c s.segment pc)).inits.length = cfg.storeCount →
      (s.created q (createStep cfg c s.segment pc)).queue.mem = create cfg.blockCount := by
  intro hlen
  cases hstores : (createStep cfg c s.segment pc).2.2 with
  | false =>
      -- without a store the segment was ready before, and `create` leaves it alone
      simp only [SegState.created, hstores, Bool.false_eq_true, if_false] at hlen
      obtain ⟨p, hready⟩ := h.ready_of_length hlen
      simp only [SegState.created, (hready.leaves c hpc).1]
      exact hmem hlen
  | true =>
      obtain ⟨n, store, rfl, hstore, hmem'⟩ := createStep_stores hstores
      simp only [SegState.created, hstores, if_true, List.length_cons] at hlen
      simp only [SegState.created, hmem']
      cases h with
      | fresh h =>
          have hout := h.outside q
          rw [hpc] at hout
          exact hout.elim
      | ready p h => exact absurd ((h.leaves c hpc).2.symm.trans hstores) (by decide)
      | settingUp p k h =>
          by_cases hqp : q = p
          · subst hqp
            obtain rfl : n = k := by
              rcases h.own with hown | ⟨-, hown | hown⟩ <;> rw [hpc] at hown <;> cases hown
              rfl
            obtain ⟨store', hstore', hrest⟩ := h.next
            obtain rfl := Option.some.inj (hstore.symm.trans hstore')
            rw [h.inits, List.length_replicate] at hlen
            rwa [hlen, SegConfig.storeCount, List.drop_length] at hrest
          · have hout := h.outside q hqp
            rw [hpc] at hout
            exact hout.elim

/-- What is noted of a step of a thread; `create` makes no attempt on a cursor. -/
def segNote (s : SegState κ ι) (a : SegAction κ ι) (n : Notes ι) : Notes ι :=
  match a with
  | .create _ _ => n
  | .queue t ch => note s.queue (t, ch) n

/-- The states reached, with what is noted of the run. -/
abbrev SegNoted (cfg : SegConfig κ ι) (ok : SegState κ ι × Notes ι → SegAction κ ι → Prop) :
    SegState κ ι × Notes ι → Prop :=
  Reach (noted (segStep cfg) segNote) ok (segStart cfg, .start)

/-- **Step lemma.** -/
theorem Underway.step (h : Underway cfg ok (s, n)) {a : SegAction κ ι} (hok : Orderly cfg ok (s, n) a)
    (hs : segStep cfg s a = some s') : Underway cfg ok (s', segNote s a n) := by
  have hphase : s'.Phase cfg := by
    cases h with
    | unused phase => exact phase.step hok.undisturbed hs
    | running phase => exact phase.step hok.undisturbed hs
  cases a with
  | queue t ch =>
      obtain ⟨hconnected, q, hq, rfl⟩ := segStep_queue hs
      obtain ⟨hfull, hrun⟩ := h.noted hconnected
      exact .running hphase hfull (.step hrun hok (noted_eq_some.mpr ⟨hq, rfl⟩))
  | create q c =>
      obtain ⟨pc, hpc, rfl⟩ := segStep_create hs
      cases h with
      | unused phase unused mem => exact .unused hphase unused (phase.mem_created mem hpc)
      | running phase full run =>
          obtain ⟨p, hready⟩ := phase.ready_of_length full
          obtain ⟨hseg, hstore⟩ := hready.leaves c hpc
          rw [SegState.created_of_same hseg hstore] at hphase ⊢
          exact .running hphase full run

/-- **Run lemma.** -/
theorem underway_of_segNoted {p : SegState κ ι × Notes ι} (h : SegNoted cfg (Orderly cfg ok) p) :
    Underway cfg ok p := by
  have hstart : (segStart cfg).Phase cfg := .fresh ⟨rfl, rfl, ⟨rfl, rfl⟩, fun _ => trivial⟩
  refine h.invariant (I := Underway cfg ok) (.unused hstart ⟨rfl, rfl⟩ fun hlen => ?_) ?_
  · exact absurd hlen (storeCount_pos cfg).ne
  · rintro ⟨s, n⟩ a ⟨s', n'⟩ - hi hok hs
    obtain ⟨hstep, rfl⟩ := noted_eq_some.mp hs
    exact hi.step hok hstep

/-- **Exactly once, from the creation on.** Whatever processes create the queue and connect to it, and
whenever, every message that their threads have written is accounted for once, as long as no `create` reads
the size while another is setting the segment up or mistakes it because `fstat` fails, none that has set it
fails to map the segment, and the threads are in time. -/
theorem accounted_of_segNoted [Fintype ι] {p : SegState κ ι × Notes ι} (hN : 2 ≤ cfg.blockCount)
    (hcalls : cfg.OnlyStreams) (h : SegNoted cfg (Orderly cfg (InTime cfg.blockCount)) p)
    (hq : p.1.procs q = .connected) : Accounted cfg.blockCount p.1.queue :=
  accounted_of_noted hN hcalls ((underway_of_segNoted h).noted hq).2

end Runs

/-- One process creates the queue and writes a message; another connects, takes it and is copying it. -/
theorem accounted_of_segNoted_openedAfter :
    ∃ p ts, SegNoted (openers 2 3 1) (Orderly (openers 2 3 1) (InTime 3)) p ∧
      p.1.procs 1 = .connected ∧ Copies (delivered p.1.queue.hist) ts ∧
      (written p.1.queue.hist).count [65, 66, 67] = 1 ∧
      1 = ts.count [65, 66, 67] +
        ∑ t, found p.1.queue.mem [65, 66, 67] (p.1.queue.threads t) +
        ((published p.1.queue.hist).drop (takes p.1.queue.hist)).count [65, 66, 67] +
        unpublished p.1.queue.hist [65, 66, 67] := by
  obtain ⟨p, hp, hconnected, hwritten⟩ :
      ∃ p, SegNoted (openers 2 3 1) (Orderly (openers 2 3 1) (InTime 3)) p ∧
        p.1.procs 1 = .connected ∧ (written p.1.queue.hist).count [65, 66, 67] = 1 :=
    Reach.exists_of_run
      (creates 0 25 ++ uses (during 0 (.write letters 3) 18) ++ creates 1 3 ++
        uses (during 1 (.read 4 1) 6)) (by decide +kernel)
  obtain ⟨-, ts, hcopies, hcount⟩ :=
    accounted_of_segNoted (by decide) streams_onlyStreams hp hconnected
  have hmsg := hcount [65, 66, 67] (by decide)
  rw [hwritten] at hmsg
  exact ⟨p, ts, hp, hconnected, hcopies, hwritten, hmsg⟩

end AtomicMessageQueue
