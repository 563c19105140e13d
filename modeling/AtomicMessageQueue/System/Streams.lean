import AtomicMessageQueue.Lib.BoundedFifo
import AtomicMessageQueue.System.Messages

/-! # One writer

With a single thread calling `write` the room test of `get_block_write` cannot go stale, so what is
left to assume for `messages_intact` is about the readers: they act on emptiness tests that still pass
and clear `Amount` in time. With a single reader both hold by themselves, and the ring is a bounded
FIFO without any condition: `spsc_fifo`.
-/

namespace AtomicMessageQueue

open Function Transition TicketRing

variable {ι : Type*}

/-! ## Roles -/

/-- Thread `w` calls nothing but `write`, the others nothing but `read`. -/
structure Config.OneWriter (cfg : Config ι) (w : ι) : Prop where
  write : ∀ c, cfg.calls w c = true → ∃ pBuff amount, c = .write pBuff amount
  read : ∀ t c, t ≠ w → cfg.calls t c = true → ∃ buffSize ms, c = .read buffSize ms

theorem Config.OneWriter.onlyStreams [DecidableEq ι] {cfg : Config ι} {w : ι}
    (h : cfg.OneWriter w) : cfg.OnlyStreams := by
  intro t c hc
  by_cases ht : t = w
  · exact .inl (h.write c (ht ▸ hc))
  · exact .inr (h.read t c ht hc)

/-- A program point of `write`. -/
def Pc.isWrite : Pc → Bool
  | .getBlockWrite _ _ => true
  | .copyIn _ _ _ _ => true
  | .storeAmount _ _ _ => true
  | .postBlock _ _ => true
  | .increment _ => true
  | _ => false

section Code

variable {blockSize : ℕ} {wait : WaitStep} {w : WaitEnd} {m m' : MemBuff} {pc pc' : Pc}
  {o : Out Pc Ret} {mk : Option Mark}

/-- An access stays within the operation it belongs to. -/
theorem CodeStep.isWrite (h : CodeStep blockSize wait w m pc m' o mk) (ho : o.pc = some pc') :
    pc'.isWrite = pc.isWrite := by
  cases h with
  | claim k => cases k <;> cases ho; rfl
  | timeoutWrite k => cases k <;> cases ho
  | leavePost k => cases k <;> cases ho; rfl
  | emptyReturn k => cases k <;> cases ho
  | timeoutRead k => cases k <;> cases ho
  | take k => cases k <;> cases ho; rfl
  | leaveReturn k => cases k <;> cases ho <;> rfl
  | increment => cases ho
  | decrement => cases ho
  | _ =>
      obtain rfl := Option.some.inj ho
      rfl

/-- What the history says about the writers. -/
structure SameWrites (h h' : List Mark) : Prop where
  claims : claims h' = claims h
  writeTicket : writeTicket h' = writeTicket h
  payload : payload h' = payload h
  written : written h' = written h
  results : results h' = results h

/-- A step of `read` leaves alone what the writers have done. -/
theorem CodeStep.sameWrites (h : CodeStep blockSize wait w m pc m' o mk) (hpc : pc.isWrite = false)
    (hist : List Mark) :
    SameWrites hist (mk.toList ++ hist) ∧ m'.writeStart = m.writeStart ∧
      retires hist ≤ retires (mk.toList ++ hist) := by
  cases h <;> first
    | exact ⟨⟨rfl, rfl, rfl, rfl, rfl⟩, rfl, le_rfl⟩
    | exact ⟨⟨rfl, rfl, rfl, rfl, rfl⟩, rfl, Nat.le_succ _⟩
    | cases hpc

/-- What the history says about the readers. -/
structure SameReads (h h' : List Mark) : Prop where
  takes : takes h' = takes h
  retires : retires h' = retires h
  returned : returned h' = returned h
  taken : taken h' = taken h
  delivered : delivered h' = delivered h

/-- A step of `write` leaves alone what the readers have done. -/
theorem CodeStep.sameReads (h : CodeStep blockSize wait w m pc m' o mk) (hpc : pc.isWrite = true)
    (hist : List Mark) :
    SameReads hist (mk.toList ++ hist) ∧ m'.readStart = m.readStart ∧
      publishes hist ≤ publishes (mk.toList ++ hist) := by
  cases h <;> first
    | exact ⟨⟨rfl, rfl, rfl, rfl, rfl⟩, rfl, le_rfl⟩
    | exact ⟨⟨rfl, rfl, rfl, rfl, rfl⟩, rfl, Nat.le_succ _⟩
    | cases hpc

end Code

/-! ## The writer -/

/-- What the writer has read inside `get_block_write` still holds. -/
def Pc.Roomy (N : ℕ) (m : MemBuff) (h : List Mark) : Pc → Prop
  | .getBlockWrite _ (.test i) => i = m.writeStart
  | .getBlockWrite _ (.cas i) => i = m.writeStart ∧ claims h + 1 < retires h + N
  | _ => True

/-- Where the writer is in the list of its messages. -/
def WriteLedger (h : List Mark) : Option Pc → Prop
  | some (.getBlockWrite k _) =>
      k ≠ .holder ∧ (written h).length = claims h ∧ results h = (written h).map List.length
  | some (.copyIn _ _ b _) => (written h).length = writeTicket h b ∧ writeTicket h b + 1 = claims h ∧
      results h = (written h).map List.length
  | some (.storeAmount _ _ b) => (written h).length = writeTicket h b ∧
      writeTicket h b + 1 = claims h ∧ results h = (written h).map List.length
  | some (.postBlock (.write dwAmount) _) =>
      (written h).length = claims h ∧ results h ++ [dwAmount] = (written h).map List.length
  | some (.increment dwAmount) =>
      (written h).length = claims h ∧ results h ++ [dwAmount] = (written h).map List.length
  | some (.postBlock .holder _) => False
  | _ => (written h).length = claims h ∧ results h = (written h).map List.length

/-- The state of a system whose only writer is `w`. -/
structure OneWriter (N : ℕ) (w : ι) (s : State ι) : Prop where
  role : ∀ t pc, (s.threads t).pc = some pc → (pc.isWrite = true ↔ t = w)
  roomy : ∀ pc, (s.threads w).pc = some pc → pc.Roomy N s.mem s.hist
  ledger : WriteLedger s.hist (s.threads w).pc
  written_eq : written s.hist = (List.range (written s.hist).length).map (payload s.hist)

theorem oneWriter_start {cfg : Config ι} {w : ι} : OneWriter cfg.blockCount w (start cfg) :=
  ⟨fun _ _ => nofun, nofun, ⟨rfl, rfl⟩, rfl⟩

/-- The writer's ledger only depends on what the writers have done. -/
theorem SameWrites.ledger {h h' : List Mark} (hs : SameWrites h h') {pc : Option Pc}
    (hl : WriteLedger h pc) : WriteLedger h' pc := by
  obtain ⟨hclaims, hticket, -, hwritten, hresults⟩ := hs
  unfold WriteLedger at hl ⊢
  rw [hclaims, hticket, hwritten, hresults]
  exact hl

section Step

variable {N : ℕ} {s : State ι} {t : ι} {blockSize : ℕ} {wait : WaitStep} {w : WaitEnd}
  {m' : MemBuff} {pc : Pc} {o : Out Pc Ret} {mk : Option Mark}

/-- The writer's own step keeps its ledger. -/
theorem WriteLedger.step (h : WriteLedger s.hist (some pc)) (hpc : pc.isWrite = true)
    (hcode : CodeStep blockSize wait w s.mem pc m' o mk) :
    WriteLedger (mk.toList ++ s.hist) o.pc := by
  cases hcode with
  | claim k i hi =>
      obtain ⟨hk, hlen, hres⟩ := h
      cases k with
      | holder => exact absurd rfl hk
      | write pBuff amount =>
          refine ⟨?_, ?_, hres⟩
          · show (written s.hist).length = update (writeTicket s.hist) i (claims s.hist) i
            rw [update_self, hlen]
          · show update (writeTicket s.hist) i (claims s.hist) i + 1 = claims s.hist + 1
            rw [update_self]
  | timeoutWrite k =>
      cases k with
      | holder => exact absurd rfl h.1
      | write pBuff amount => exact h.2
  | storeAmount pBuff dwAmount b =>
      obtain ⟨hlen, hticket, hres⟩ := h
      refine ⟨?_, ?_⟩
      · show (written s.hist ++ [(List.range dwAmount).map pBuff]).length = claims s.hist
        rw [List.length_append, List.length_singleton]
        omega
      · show results s.hist ++ [dwAmount] =
          (written s.hist ++ [(List.range dwAmount).map pBuff]).map List.length
        simp [hres]
  | leavePost k i =>
      cases k with
      | holder => exact h.elim
      | write dwAmount => exact h
  | increment dwAmount =>
      obtain ⟨hlen, hres⟩ := h
      exact ⟨hlen, hres⟩
  | setDoneWrite k => cases k <;> exact h
  | loadWriteEnd k => cases k <;> exact h
  | takeDoneWrite k => cases k <;> exact h
  | publish k => cases k <;> exact h
  | publishMissed k => cases k <;> exact h
  | testReadStart k => cases k <;> exact h
  | testReadStartNe k => cases k <;> exact h
  | setSignal k => cases k <;> exact h
  | broadcastSignal k => cases k <;> exact h
  | _ => first
    | exact h
    | cases hpc

/-- The writer's own step keeps the list of its messages. -/
theorem written_eq_step (h : WriteLedger s.hist (some pc))
    (hw : written s.hist = (List.range (written s.hist).length).map (payload s.hist))
    (hcode : CodeStep blockSize wait w s.mem pc m' o mk) :
    written (mk.toList ++ s.hist) = (List.range (written (mk.toList ++ s.hist)).length).map
      (payload (mk.toList ++ s.hist)) := by
  cases hcode with
  | storeAmount pBuff dwAmount b =>
      obtain ⟨hlen, -, -⟩ := h
      show written s.hist ++ [(List.range dwAmount).map pBuff] =
        (List.range (written s.hist ++ [(List.range dwAmount).map pBuff]).length).map
          (update (payload s.hist) (writeTicket s.hist b) ((List.range dwAmount).map pBuff))
      rw [List.length_append, List.length_singleton, List.range_succ, List.map_append,
        map_payload_update hlen.le, ← hw, List.map_singleton, hlen, update_self]
  | _ => exact hw

/-- The writer's own step keeps what it has read. -/
theorem Pc.Roomy.step {pc' : Pc} (h : pc.Roomy N s.mem s.hist) (hr : RingInv N s)
    (hcode : CodeStep blockSize wait w s.mem pc m' o mk) (ho : o.pc = some pc') :
    pc'.Roomy N m' (mk.toList ++ s.hist) := by
  cases hcode with
  | loadWriteStart k =>
      obtain rfl := Option.some.inj ho
      exact rfl
  | room k i hi =>
      obtain rfl := Option.some.inj ho
      obtain rfl : i = s.mem.writeStart := h
      exact ⟨rfl, hr.room_iff.mp hi⟩
  | claim k => cases k <;> cases ho; trivial
  | timeoutWrite k => cases k <;> cases ho
  | leavePost k => cases k <;> cases ho; trivial
  | emptyReturn k => cases k <;> cases ho
  | timeoutRead k => cases k <;> cases ho
  | take k => cases k <;> cases ho; trivial
  | leaveReturn k => cases k <;> cases ho <;> trivial
  | increment => cases ho
  | decrement => cases ho
  | _ =>
      obtain rfl := Option.some.inj ho
      trivial

/-- A step of a reader keeps what the writer has read. -/
theorem Pc.Roomy.mono {m : MemBuff} {h h' : List Mark} (hpc : pc.Roomy N m h)
    (hstart : m'.writeStart = m.writeStart) (hclaims : claims h' = claims h)
    (hret : retires h ≤ retires h') : pc.Roomy N m' h' := by
  unfold Pc.Roomy at hpc ⊢
  split at hpc
  next => exact hpc.trans hstart.symm
  next =>
    refine ⟨hpc.1.trans hstart.symm, ?_⟩
    rw [hclaims]
    omega
  next => trivial

end Step

/-- **Step lemma of the writer.** -/
theorem OneWriter.step [DecidableEq ι] {cfg : Config ι} {w : ι} (hcalls : cfg.OneWriter w)
    {s s' : State ι} {a : ι × Choice} (h : OneWriter cfg.blockCount w s)
    (hr : RingInv cfg.blockCount s) (hs : step cfg s a = some s') :
    OneWriter cfg.blockCount w s' := by
  obtain ⟨t, ch⟩ := a
  rcases step_cases hs with ⟨c, rfl, hpc, hcall, -, rfl⟩ | ⟨v, pc, m', o, mk, rfl, hpc, hcode, rfl⟩
  · by_cases ht : t = w
    · subst ht
      obtain ⟨pBuff, amount, rfl⟩ := hcalls.write c hcall
      refine ⟨forall_pc_update (fun u pc _ => h.role u pc) fun pc hu => ?_, fun pc hu => ?_, ?_,
        h.written_eq⟩
      · obtain rfl := Option.some.inj hu
        exact iff_of_true rfl rfl
      · simp only [update_self, Option.some.injEq] at hu
        subst hu
        trivial
      · have hl := h.ledger
        simp only [update_self]
        rw [hpc] at hl
        exact ⟨nofun, hl⟩
    · obtain ⟨buffSize, ms, rfl⟩ := hcalls.read t c ht hcall
      have hwt : w ≠ t := fun h => ht h.symm
      refine ⟨forall_pc_update (fun u pc _ => h.role u pc) fun pc hu => ?_, fun pc hu => ?_, ?_,
        h.written_eq⟩
      · obtain rfl := Option.some.inj hu
        exact iff_of_false Bool.false_ne_true ht
      · simp only [update_of_ne hwt] at hu
        exact h.roomy pc hu
      · simp only [update_of_ne hwt]
        exact h.ledger
  · have hrole : ∀ u pc', (update s.threads t ((s.threads t).after o mk) u).pc = some pc' →
        (pc'.isWrite = true ↔ u = w) :=
      forall_pc_update (fun u pc _ => h.role u pc) fun pc' hu => by
        rw [hcode.isWrite hu]
        exact h.role t pc hpc
    -- the writer's own access moves its ledger on; a reader's changes nothing the writer has read
    by_cases ht : t = w
    · subst ht
      have hl := h.ledger
      rw [hpc] at hl
      refine ⟨hrole, fun pc' hu => ?_, ?_, written_eq_step hl h.written_eq hcode⟩
      · simp only [update_self] at hu
        exact (h.roomy pc hpc).step hr hcode hu
      · simp only [update_self]
        exact hl.step ((h.role t pc hpc).mpr rfl) hcode
    · have hread : pc.isWrite = false := by
        by_contra hne
        exact ht ((h.role t pc hpc).mp (by simpa using hne))
      have hwt : w ≠ t := fun h => ht h.symm
      obtain ⟨hsame, hstart, hret⟩ := hcode.sameWrites hread s.hist
      refine ⟨hrole, fun pc' hu => ?_, ?_, ?_⟩
      · simp only [update_of_ne hwt] at hu
        exact (h.roomy pc' hu).mono hstart hsame.claims hret
      · simp only [update_of_ne hwt]
        exact hsame.ledger h.ledger
      · show written (mk.toList ++ s.hist) = _
        rw [hsame.written, hsame.payload]
        exact h.written_eq

/-- A lone writer acts on room tests that still pass. -/
theorem OneWriter.freshClaim {N : ℕ} {w : ι} {s : State ι} (h : OneWriter N w s)
    (hr : RingInv N s) (a : ι × Choice) : FreshClaim s a := by
  intro i hi
  obtain ⟨v, k, -, hpc, rfl⟩ := hi.inv
  obtain rfl := (h.role _ _ hpc).mp rfl
  exact hr.room_iff.mpr (h.roomy _ hpc).2

section Runs

variable [DecidableEq ι] {cfg : Config ι} {w : ι}

theorem oneWriter_of_reached (hN : 2 ≤ cfg.blockCount) (hcalls : cfg.OneWriter w)
    {ok : State ι → ι × Choice → Prop} {s : State ι}
    (h : Reached cfg (fun s a => Fresh s a ∧ ok s a) s) : OneWriter cfg.blockCount w s :=
  h.invariant oneWriter_start fun _ _ _ hreach hi _ hs =>
    hi.step hcalls (ringInv_of_reached hN (hreach.mono fun _ _ h => h.1)) hs

/-- With one writer it is enough that the readers act on tests that still pass. -/
theorem fresh_of_oneWriter (hN : 2 ≤ cfg.blockCount) (hcalls : cfg.OneWriter w)
    {ok : State ι → ι × Choice → Prop} {s : State ι}
    (h : Reached cfg (fun s a => FreshTake s a ∧ ok s a) s) :
    Reached cfg (fun s a => Fresh s a ∧ ok s a) s :=
  h.strengthen fun _ a _ hreach hok _ =>
    ⟨⟨(oneWriter_of_reached hN hcalls hreach).freshClaim
      (ringInv_of_reached hN (hreach.mono fun _ _ h => h.1)) a, hok.1⟩, hok.2⟩

end Runs

/-! ## The messages of one writer -/

/-- Every published block's message is in the writer's list. -/
theorem OneWriter.publishes_le {N : ℕ} {w : ι} {s : State ι} (h : OneWriter N w s)
    (hr : RingInv N s) : publishes s.hist ≤ (written s.hist).length := by
  have hl := h.ledger
  have hclaims := hr.publishes_le
  have hheld : ∀ b, writingAt (s.threads w).pc = some b → publishes s.hist ≤ writeTicket s.hist b :=
    fun b hb => hr.write.held_fin w b ((hr.wf w).writing b hb)
  unfold WriteLedger at hl
  split at hl
  next => exact hclaims.trans hl.2.1.ge
  next hpc => exact (hheld _ (by rw [hpc]; rfl)).trans hl.1.ge
  next hpc => exact (hheld _ (by rw [hpc]; rfl)).trans hl.1.ge
  next => exact hclaims.trans hl.1.ge
  next => exact hclaims.trans hl.1.ge
  next => exact hl.elim
  next => exact hclaims.trans hl.1.ge

/-- The results so far are lengths of messages of the writer. -/
theorem OneWriter.results_le {N : ℕ} {w : ι} {s : State ι} (h : OneWriter N w s) :
    results s.hist <+: (written s.hist).map List.length := by
  have hl := h.ledger
  unfold WriteLedger at hl
  split at hl
  next => exact hl.2.2 ▸ List.prefix_rfl
  next => exact hl.2.2 ▸ List.prefix_rfl
  next => exact hl.2.2 ▸ List.prefix_rfl
  next => exact hl.2 ▸ List.prefix_append _ _
  next => exact hl.2 ▸ List.prefix_append _ _
  next => exact hl.elim
  next => exact hl.2 ▸ List.prefix_rfl

theorem map_range_le {f : ℕ → List UInt8} {m n : ℕ} (h : m ≤ n) :
    (List.range m).map f <+: (List.range n).map f := by
  obtain ⟨k, rfl⟩ := Nat.exists_eq_add_of_le h
  rw [List.range_add, List.map_append]
  exact List.prefix_append _ _

/-- Readers act on emptiness tests that still pass and clear `Amount` in time. -/
def ReadersInTime (s : State ι) (a : ι × Choice) : Prop :=
  FreshTake s a ∧ ClearInTime s a

instance (s : State ι) (a : ι × Choice) : Decidable (ReadersInTime s a) :=
  inferInstanceAs (Decidable (_ ∧ _))

/-- The block whose `Amount` a `read` is about to test for zero. -/
def Local.testing (l : Local) : Option ℕ :=
  match l.pc with
  | some (.loadAmount _ _ b) => some b
  | _ => none

theorem Local.reading_of_testing {l : Local} {b : ℕ} (h : l.testing = some b) :
    readingAt l.pc = some b := by
  unfold Local.testing at h
  split at h
  next hpc =>
    rw [hpc]
    exact h
  next => cases h

/-- **Messages stay intact** in every run of one writer whose readers are in time. No step changes the
body of a block with an unread message; what is taken is, message for message and byte for byte, what
was published, and that is what `write` stored; the results of `write` are the lengths of these
messages; and a `read` that tests `Amount` for zero finds the message of its take. -/
theorem messages_intact [DecidableEq ι] {cfg : Config ι} {w : ι} (hN : 2 ≤ cfg.blockCount)
    (hcalls : cfg.OneWriter w) {s : State ι} (h : Reached cfg ReadersInTime s) :
    (∀ a s', ClearInTime s a → step cfg s a = some s' → ∀ i, unread s.hist i = true →
      (s'.mem.blocks i).data = (s.mem.blocks i).data ∧
        (s'.mem.blocks i).amount = (s.mem.blocks i).amount) ∧
    taken s.hist <+: published s.hist ∧ published s.hist <+: written s.hist ∧
    results s.hist <+: (written s.hist).map List.length ∧
    ∀ t b, (s.threads t).testing = some b →
      (taken s.hist)[readTicket s.hist b]? = some (s.mem.blocks b).contents := by
  have hreached : Reached cfg (fun s a => Fresh s a ∧ ClearInTime s a) s :=
    fresh_of_oneWriter hN hcalls h
  have hr := ringInv_of_reached hN (hreached.mono fun _ _ h => h.1)
  have hi := intact_of_reached hN hcalls.onlyStreams hreached
  have hw := oneWriter_of_reached hN hcalls hreached
  refine ⟨fun a s' hclear hs i hunread => ?_, ?_, ?_, hw.results_le, fun t b hb => ?_⟩
  · obtain ⟨t, ch⟩ := a
    rcases step_cases hs with ⟨c, rfl, -, -, -, rfl⟩ | ⟨v, pc, m', o, mk, rfl, hpc, hcode, rfl⟩
    · exact ⟨rfl, rfl⟩
    · exact hi.frame hpc hcode hclear (hi.stored.of_unread hr hunread)
  · rw [hi.stored.taken_eq, hi.stored.published_eq]
    exact map_range_le hr.takes_le
  · rw [hi.stored.published_eq, hw.written_eq]
    exact map_range_le (hw.publishes_le hr)
  · have hheld : b ∈ (s.threads t).heldRead := (hr.wf t).reading b (Local.reading_of_testing hb)
    obtain ⟨q, -, hlt, -, hticket, -⟩ := hr.held_read hheld
    rw [(hi.stored.of_held hr hheld).2, hi.stored.taken_eq, hticket, List.getElem?_map,
      List.getElem?_range hlt, Option.map_some]

/-- The byte buffer of the schedules below. -/
def letters : ℕ → UInt8 := fun k => UInt8.ofNat (65 + k)

/-- The writer's thread in `streams` with one writer is thread 0. -/
theorem streams_oneWriter {n blockCount : ℕ} [NeZero n] {wait : WaitStep} :
    (streams n blockCount 1 wait).OneWriter 0 := by
  refine ⟨fun c hc => ?_, fun t c ht hc => ?_⟩
  · cases c <;> simp [streams] at hc
    exact ⟨_, _, rfl⟩
  · cases c <;> simp [streams] at hc
    · exact absurd hc ht
    · exact ⟨_, _, rfl⟩

/-- One reader is copying the first message while another has found the second. -/
def twoReaders : List (Fin 3 × Choice) :=
  during 0 (.write letters 3) 18 ++ during 0 (.write letters 2) 15 ++
  during 1 (.read 4 1) 6 ++ during 2 (.read 4 1) 3

theorem messages_intact_twoReaders :
    ∃ s, Reached (streams 3 3 1 waitForEvent) ReadersInTime s ∧
      taken s.hist = [[65, 66, 67], [65, 66]] ∧ taken s.hist <+: published s.hist ∧
      published s.hist <+: written s.hist ∧ results s.hist <+: (written s.hist).map List.length ∧
      (taken s.hist)[readTicket s.hist 1]? = some (s.mem.blocks 1).contents := by
  obtain ⟨s, hs, htaken, htest⟩ : ∃ s, Reached (streams 3 3 1 waitForEvent) ReadersInTime s ∧
      taken s.hist = [[65, 66, 67], [65, 66]] ∧ (s.threads 2).testing = some 1 :=
    Reach.exists_of_run twoReaders (by decide +kernel)
  have hN : 2 ≤ (streams 3 3 1 waitForEvent).blockCount := by decide
  obtain ⟨-, htaken', hpublished, hresults, hcontents⟩ := messages_intact hN streams_oneWriter hs
  exact ⟨s, hs, htaken, htaken', hpublished, hresults, hcontents 2 1 htest⟩

/-- Reader 1 is suspended between its stores of `doneRead` and of `Amount` on block 0. Reader 2 retires
the block, and the writer, once round a ring of three blocks, fills and publishes it again. -/
def lateClear : List (Fin 3 × Choice) :=
  during 0 (.write letters 1) 16 ++ during 0 (.write letters 1) 14 ++
  during 1 (.read 4 1) 3 ++ during 2 (.read 4 1) 3 ++ runs 1 6 ++ runs 2 20 ++
  during 0 (.write letters 1) 16 ++ during 0 (.write letters 1) 14

/-- The next store of reader 1 empties the unread message in block 0. -/
theorem message_cleared :
    ∃ s s', Reached (streams 3 3 1 waitForEvent) anyStep s ∧
      step (streams 3 3 1 waitForEvent) s (1, .run .wake) = some s' ∧
      unread s.hist 0 = true ∧ unread s'.hist 0 = true ∧
      (s.mem.blocks 0).amount = 1 ∧ (s'.mem.blocks 0).amount = 0 := by
  obtain ⟨s, hs, hunread, hamount, hnext⟩ :
      ∃ s, Reached (streams 3 3 1 waitForEvent) anyStep s ∧ unread s.hist 0 = true ∧
        (s.mem.blocks 0).amount = 1 ∧
        ((step (streams 3 3 1 waitForEvent) s (1, .run .wake)).any fun s' =>
          decide (unread s'.hist 0 = true ∧ (s'.mem.blocks 0).amount = 0)) = true :=
    Reach.exists_of_run lateClear (by decide +kernel)
  obtain ⟨s', hs', hp⟩ := (Option.any_eq_true _ _).mp hnext
  obtain ⟨hunread', hamount'⟩ := of_decide_eq_true hp
  exact ⟨s, s', hs, hs', hunread, hunread', hamount, hamount'⟩

end AtomicMessageQueue
