import AtomicMessageQueue.System.Stores
import AtomicMessageQueue.System.Streams

/-! # One writer and one reader

A lone reader acts on emptiness tests that still pass, and it clears the `Amount` of a block before
anybody can retire that block. So with one thread on each side every run satisfies the conditions the
invariants need, and the ring refines an atomic bounded queue.
-/

namespace AtomicMessageQueue

open Function Transition TicketRing BoundedFifo Shares

variable {ι : Type*}

/-! ## The reader -/

/-- The bytes each `read` copied are the start of the message it found, as much of it as its buffer
held; empty messages are skipped. -/
def Copies (copied : List (ℕ × List UInt8)) (msgs : List (List UInt8)) : Prop :=
  List.Forall₂ (fun c msg => c.2 = msg.take c.1) copied (msgs.filter (· ≠ []))

theorem Copies.skip {copied : List (ℕ × List UInt8)} {msgs : List (List UInt8)}
    (h : Copies copied msgs) : Copies copied (msgs ++ [[]]) := by
  simpa [Copies, List.filter_append] using h

theorem Copies.append {copied : List (ℕ × List UInt8)} {msgs : List (List UInt8)}
    (h : Copies copied msgs) {n : ℕ} {msg : List UInt8} (hmsg : msg ≠ []) :
    Copies (copied ++ [(n, msg.take n)]) (msgs ++ [msg]) := by
  have hlast : List.Forall₂ (fun (c : ℕ × List UInt8) msg => c.2 = msg.take c.1)
      [(n, msg.take n)] [msg] := .cons rfl .nil
  simpa [Copies, List.filter_append, hmsg] using List.rel_append h hlast

/-- What the reader has read inside `get_block_read` still holds, and the block it is about to clear
has not been retired. -/
def Pc.Sighted (N : ℕ) (m : MemBuff) (h : List Mark) : Pc → Prop
  | .getBlockRead _ (.test i) => i = m.readStart
  | .getBlockRead _ (.cas i) => i = m.readStart ∧ takes h < publishes h
  | .returnBlock _ (.clear b) =>
      ∃ q, retires h ≤ q ∧ q < takes h ∧ q % N = b ∧ returned h q = true
  | _ => True

/-- Where the reader is in the list of the messages it has taken. -/
def ReadLedger (m : MemBuff) (h : List Mark) : Option Pc → Prop
  | some (.getBlockRead k _) => (∀ ms, k ≠ .holder ms) ∧ Copies (delivered h) (taken h)
  | some (.loadAmount _ _ b) =>
      ∃ ts, taken h = ts ++ [(m.blocks b).contents] ∧ Copies (delivered h) ts
  | some (.loadMin _ b) =>
      ∃ ts, taken h = ts ++ [(m.blocks b).contents] ∧ Copies (delivered h) ts ∧
        (m.blocks b).contents ≠ []
  | some (.loadDwAmount buffSize b) =>
      ∃ ts, taken h = ts ++ [(m.blocks b).contents] ∧ Copies (delivered h) ts ∧
        (m.blocks b).contents ≠ [] ∧ (m.blocks b).amount ≤ buffSize
  | some (.copyOut buffSize dwAmount b bytes) =>
      ∃ ts, taken h = ts ++ [(m.blocks b).contents] ∧ Copies (delivered h) ts ∧
        (m.blocks b).contents ≠ [] ∧ dwAmount = min (m.blocks b).amount buffSize ∧
        bytes = (m.blocks b).contents.take bytes.length ∧ bytes.length ≤ dwAmount
  | _ => Copies (delivered h) (taken h)

/-- The state of a system whose only reader is `r`. -/
structure OneReader (N : ℕ) (r : ι) (s : State ι) : Prop where
  role : ∀ t pc, (s.threads t).pc = some pc → pc.isWrite = false → t = r
  sighted : ∀ pc, (s.threads r).pc = some pc → pc.Sighted N s.mem s.hist
  ledger : ReadLedger s.mem s.hist (s.threads r).pc

theorem oneReader_start {cfg : Config ι} {r : ι} : OneReader cfg.blockCount r (start cfg) :=
  ⟨fun _ _ => nofun, nofun, .nil⟩

section Step

variable {N : ℕ} {s : State ι} {t : ι} {blockSize : ℕ} {wait : WaitStep} {w : WaitEnd}
  {m' : MemBuff} {pc : Pc} {o : Out Pc Ret} {mk : Option Mark}

/-- The reader's own step keeps its ledger. -/
theorem ReadLedger.step (h : ReadLedger s.mem s.hist (some pc)) (hpc : pc.isWrite = false)
    (hcode : CodeStep blockSize wait w s.mem pc m' o mk) :
    ReadLedger m' (mk.toList ++ s.hist) o.pc := by
  cases hcode with
  | take k i hi =>
      cases k with
      | holder ms => exact absurd rfl (h.1 ms)
      | read buffSize ms => exact ⟨taken s.hist, rfl, h.2⟩
  | emptyReturn k =>
      cases k with
      | holder ms => exact absurd rfl (h.1 ms)
      | read buffSize ms => exact h.2
  | timeoutRead k =>
      cases k with
      | holder ms => exact absurd rfl (h.1 ms)
      | read buffSize ms => exact h.2
  | skip buffSize ms b hzero =>
      obtain ⟨ts, htaken, hcopies⟩ := h
      show Copies (delivered s.hist) (taken s.hist)
      rw [htaken, Block.contents_eq_nil.mpr hzero]
      exact hcopies.skip
  | loadAmount buffSize ms b hne =>
      obtain ⟨ts, htaken, hcopies⟩ := h
      exact ⟨ts, htaken, hcopies, fun hnil => hne (Block.contents_eq_nil.mp hnil)⟩
  | minBuffSize buffSize b hlt =>
      obtain ⟨ts, htaken, hcopies, hne⟩ := h
      exact ⟨ts, htaken, hcopies, hne, (Nat.min_eq_right hlt.le).symm, rfl, Nat.zero_le _⟩
  | minAmount buffSize b hge =>
      obtain ⟨ts, htaken, hcopies, hne⟩ := h
      exact ⟨ts, htaken, hcopies, hne, Nat.le_of_not_lt hge⟩
  | loadDwAmount buffSize b =>
      obtain ⟨ts, htaken, hcopies, hne, hle⟩ := h
      exact ⟨ts, htaken, hcopies, hne, (Nat.min_eq_left hle).symm, rfl, Nat.zero_le _⟩
  | copyOut buffSize dwAmount b bytes hlt =>
      obtain ⟨ts, htaken, hcopies, hne, hdw, hbytes, -⟩ := h
      refine ⟨ts, htaken, hcopies, hne, hdw, ?_, ?_⟩
      · have hlen : bytes.length < (s.mem.blocks b).contents.length := by
          rw [Block.contents_length]
          omega
        have hget : (s.mem.blocks b).contents[bytes.length] =
            (s.mem.blocks b).data bytes.length := by
          simp only [Block.contents, List.getElem_map, List.getElem_range]
        rw [List.length_append, List.length_singleton, List.take_add_one,
          List.getElem?_eq_getElem hlen, hget, ← hbytes, Option.toList_some]
      · rw [List.length_append, List.length_singleton]
        exact hlt
  | copiedOut buffSize dwAmount b bytes hge =>
      obtain ⟨ts, htaken, hcopies, hne, hdw, hbytes, hle⟩ := h
      show Copies (delivered s.hist ++ [(buffSize, bytes)]) (taken s.hist)
      -- the copy ends with the message or with the buffer, whichever is shorter
      have hall : bytes = (s.mem.blocks b).contents.take buffSize := by
        rw [hbytes, List.take_eq_take_iff, Block.contents_length]
        omega
      rw [htaken, hall]
      exact hcopies.append hne
  | leaveReturn k =>
      cases k with
      | holder => exact h
      | again buffSize ms => exact ⟨by simp, h⟩
      | read bytes => exact h
  | setDoneRead k => cases k <;> exact h
  | _ => first
    | exact h
    | cases hpc

/-- The reader's own step keeps what it has read. -/
theorem Pc.Sighted.step {pc' : Pc} (h : pc.Sighted N s.mem s.hist) (hr : RingInv N s)
    (hpc : (s.threads t).pc = some pc) (hcode : CodeStep blockSize wait w s.mem pc m' o mk)
    (ho : o.pc = some pc') : pc'.Sighted N m' (mk.toList ++ s.hist) := by
  cases hcode with
  | loadReadStart k =>
      obtain rfl := Option.some.inj ho
      exact rfl
  | message k i hi =>
      obtain rfl := Option.some.inj ho
      obtain rfl : i = s.mem.readStart := h
      exact ⟨rfl, hr.message_iff.mp hi⟩
  | setDoneRead k b =>
      obtain rfl := Option.some.inj ho
      obtain ⟨q, hq, hq', hslot, hticket, -⟩ :=
        hr.held_read ((hr.wf t).reading b (by rw [hpc]; rfl))
      refine ⟨q, hq, hq', hslot, ?_⟩
      show (q == readTicket s.hist b || returned s.hist q) = true
      rw [hticket, beq_self_eq_true, Bool.true_or]
  | claim k => cases k <;> cases ho; trivial
  | timeoutWrite k => cases k <;> cases ho
  | leavePost k => cases k <;> cases ho; trivial
  | emptyReturn k => cases k <;> cases ho
  | timeoutRead k => cases k <;> cases ho
  | take k => cases k <;> cases ho; trivial
  | leaveReturn k => cases k <;> cases ho <;> trivial
  | increment => cases ho
  | decrement => cases ho
  | _ =>
      obtain rfl := Option.some.inj ho
      trivial

/-- A step of the writer keeps what the reader has read. -/
theorem Pc.Sighted.mono {m : MemBuff} {h h' : List Mark} (hpc : pc.Sighted N m h)
    (hsame : SameReads h h') (hstart : m'.readStart = m.readStart)
    (hpublishes : publishes h ≤ publishes h') : pc.Sighted N m' h' := by
  obtain ⟨htakes, hretires, hreturned, -, -⟩ := hsame
  unfold Pc.Sighted at hpc ⊢
  split at hpc
  next => exact hpc.trans hstart.symm
  next =>
    rw [htakes]
    exact ⟨hpc.1.trans hstart.symm, hpc.2.trans_le hpublishes⟩
  next =>
    rw [htakes, hretires, hreturned]
    exact hpc
  next => trivial

/-- The reader's ledger only depends on what the readers have done and on the block it holds. -/
theorem ReadLedger.mono {m : MemBuff} {h h' : List Mark} {l : Option Pc} (hl : ReadLedger m h l)
    (hsame : SameReads h h')
    (hbody : ∀ b, readingAt l = some b → (m'.blocks b).data = (m.blocks b).data ∧
      (m'.blocks b).amount = (m.blocks b).amount) : ReadLedger m' h' l := by
  obtain ⟨-, -, -, htaken, hdelivered⟩ := hsame
  unfold ReadLedger at hl ⊢
  rw [htaken, hdelivered]
  split at hl
  next => exact hl
  next b =>
    obtain ⟨hdata, hamount⟩ := hbody b rfl
    rw [Block.contents_eq hdata hamount]
    exact hl
  next b =>
    obtain ⟨hdata, hamount⟩ := hbody b rfl
    rw [Block.contents_eq hdata hamount]
    exact hl
  next b =>
    obtain ⟨hdata, hamount⟩ := hbody b rfl
    rw [Block.contents_eq hdata hamount, hamount]
    exact hl
  next b bytes =>
    obtain ⟨hdata, hamount⟩ := hbody b rfl
    rw [Block.contents_eq hdata hamount, hamount]
    exact hl
  next => exact hl

end Step

/-- Thread `r` is the only one besides `w` that makes calls. -/
def Config.OneReader (cfg : Config ι) (w r : ι) : Prop :=
  ∀ t c, cfg.calls t c = true → t = w ∨ t = r

/-- A lone reader acts on emptiness tests that still pass and clears `Amount` in time. -/
theorem OneReader.inTime {N : ℕ} {r : ι} {s : State ι} (h : OneReader N r s) (hr : RingInv N s)
    (hi : Stored N s.mem s.hist) (a : ι × Choice) : FreshTake s a ∧ ClearInTime s a := by
  constructor
  · intro i htake
    obtain ⟨v, k, -, hpc, rfl⟩ := htake.inv
    obtain rfl := h.role _ _ hpc rfl
    exact hr.message_iff.mpr (h.sighted _ hpc).2
  · intro b hb hloaded
    obtain ⟨t, c | v⟩ := a
    · cases hb
    · simp only [State.clears] at hb
      split at hb
      next k b' hpc =>
        obtain rfl := Option.some.inj hb
        obtain rfl := h.role _ _ hpc rfl
        obtain ⟨q, hq, hq', hslot, hreturned⟩ := h.sighted _ hpc
        obtain ⟨hlt, hslot', hopen⟩ := hi.ticket _ hloaded
        -- the ticket the reader returned and the one loaded since would share a slot
        have htakes := hr.takes_le
        have hpublishes := hr.publishes_le
        have heq := hr.eq_of_slot hq (by omega) (hr.retires_le_of_open hopen) hlt.le
          (hslot.trans hslot'.symm)
        rw [← heq, hreturned] at hopen
        cases hopen
      next => cases hb

/-- **Step lemma of the reader.** -/
theorem OneReader.step [DecidableEq ι] {cfg : Config ι} {w r : ι} (hcalls : cfg.OneWriter w)
    (hreader : cfg.OneReader w r) (hwr : w ≠ r) {s s' : State ι} {a : ι × Choice}
    (h : OneReader cfg.blockCount r s) (hw : OneWriter cfg.blockCount w s)
    (hr : RingInv cfg.blockCount s) (hi : Intact cfg.blockCount s)
    (hs : step cfg s a = some s') : OneReader cfg.blockCount r s' := by
  have hintime := h.inTime hr hi.stored a
  obtain ⟨t, ch⟩ := a
  rcases step_cases hs with ⟨c, rfl, hpc, hcall, -, rfl⟩ | ⟨v, pc, m', o, mk, rfl, hpc, hcode, rfl⟩
  · rcases hreader t c hcall with rfl | rfl
    · obtain ⟨pBuff, amount, rfl⟩ := hcalls.write c hcall
      have hne : r ≠ t := fun h => hwr h.symm
      refine ⟨forall_pc_update (fun u pc _ => h.role u pc) fun pc hu hread => ?_, fun pc hu => ?_, ?_⟩
      · obtain rfl := Option.some.inj hu
        cases hread
      · simp only [update_of_ne hne] at hu
        exact h.sighted pc hu
      · simp only [update_of_ne hne]
        exact h.ledger
    · obtain ⟨buffSize, ms, rfl⟩ := hcalls.read t c (fun h => hwr h.symm) hcall
      refine ⟨forall_pc_update (fun u pc _ => h.role u pc) fun _ _ _ => rfl, fun pc hu => ?_, ?_⟩
      · simp only [update_self, Option.some.injEq] at hu
        subst hu
        trivial
      · have hl := h.ledger
        rw [hpc] at hl
        simp only [update_self]
        exact ⟨nofun, hl⟩
  · have hrole : ∀ u pc', (update s.threads t ((s.threads t).after o mk) u).pc = some pc' →
        pc'.isWrite = false → u = r :=
      forall_pc_update (fun u pc _ => h.role u pc) fun pc' hu hread => by
        rw [hcode.isWrite hu] at hread
        exact h.role t pc hpc hread
    by_cases ht : t = r
    · subst ht
      have hread : pc.isWrite = false := by
        by_contra hne
        exact hwr ((hw.role t pc hpc).mp (by simpa using hne)).symm
      have hl := h.ledger
      rw [hpc] at hl
      refine ⟨hrole, fun pc' hu => ?_, ?_⟩
      · simp only [update_self] at hu
        exact (h.sighted pc hpc).step hr hpc hcode hu
      · simp only [update_self]
        exact hl.step hread hcode
    · have hwrite : pc.isWrite = true := by
        by_contra hne
        exact ht (h.role t pc hpc (by simpa using hne))
      have hrt : r ≠ t := fun h => ht h.symm
      obtain ⟨hsame, hstart, hpublishes⟩ := hcode.sameReads hwrite s.hist
      refine ⟨hrole, fun pc' hu => ?_, ?_⟩
      · simp only [update_of_ne hrt] at hu
        exact (h.sighted pc' hu).mono hsame hstart hpublishes
      · simp only [update_of_ne hrt]
        refine h.ledger.mono hsame fun b hb => ?_
        exact hi.frame hpc hcode hintime.2 (hi.stored.of_held hr ((hr.wf r).reading b hb)).1

/-! ## The bounded queue -/

/-- The ring has room for whatever is published next. -/
theorem RingInv.publish_room {N : ℕ} {s : State ι} (h : RingInv N s)
    (hlt : publishes s.hist < claims s.hist) : publishes s.hist < takes s.hist + (N - 1) := by
  have := h.room
  have := h.retires_le
  omega

/-- **The ring refines a bounded queue.** In every run of `write` and `read` calls that are in time,
the moves of `m_writeEnd` are the pushes and the moves of `m_readStart` the pops of an atomic queue of
`N - 1` messages. -/
theorem fifo_of_reached [DecidableEq ι] {cfg : Config ι} (hN : 2 ≤ cfg.blockCount)
    (hcalls : cfg.OnlyStreams) {s : State ι}
    (h : Reached cfg (fun s a => Fresh s a ∧ ClearInTime s a) s) :
    ∃ f, BoundedFifo.Reached (cfg.blockCount - 1) f ∧ f.pushed = published s.hist ∧
      f.popped = taken s.hist := by
  refine h.invariant (I := fun s => ∃ f, BoundedFifo.Reached (cfg.blockCount - 1) f ∧
    f.pushed = published s.hist ∧ f.popped = taken s.hist) ⟨_, .init, rfl, rfl⟩
    fun s a s' hreach ih hok hs => ?_
  obtain ⟨f, hf, hpushed, hpopped⟩ := ih
  have hr := ringInv_of_reached hN (hreach.mono fun _ _ h => h.1)
  have hi := (intact_of_reached hN hcalls hreach).stored
  obtain ⟨t, ch⟩ := a
  rcases step_cases hs with ⟨c, rfl, -, -, -, rfl⟩ | ⟨v, pc, m', o, mk, rfl, hpc, hcode, rfl⟩
  · exact ⟨f, hf, hpushed, hpopped⟩
  · cases hcode with
    | publish k i hend =>
        have hposted : posted s.hist (publishes s.hist) = true := by
          refine hr.write.move_fin (t := t) ?_
          show writeHelper (s.threads t).pc = .move (publishes s.hist % cfg.blockCount)
          rw [hpc, ← hr.cursors.writeEnd, hend]
          rfl
        have hroom := hr.publish_room (hr.claimed_of_posted hposted)
        obtain ⟨f', hf', hpush, hpop⟩ := hf.push (s.mem.blocks i).contents (by
          rw [hpushed, hpopped, hi.published_eq, hi.taken_eq, List.length_map, List.length_map,
            List.length_range, List.length_range]
          exact hroom)
        exact ⟨f', hf', hpush.trans (by rw [hpushed]; rfl), hpop.trans hpopped⟩
    | take k i hstart =>
        have hlt := hr.message_of_fresh hok.1.2 (takes_of_pc hpc hstart)
        obtain ⟨-, -, hcontents⟩ :=
          hi.of_posted hr (hr.posted_of_lt hlt) (hr.open_of_takes_le le_rfl)
        obtain ⟨f', hf', hpush, hpop⟩ := hf.pop (x := (s.mem.blocks i).contents) (by
          rw [hpushed, hpopped, hi.published_eq, hi.taken_eq, List.length_map, List.length_range,
            List.getElem?_map, List.getElem?_range hlt, ← hstart, hr.cursors.readStart, hcontents,
            Option.map_some])
        exact ⟨f', hf', hpush.trans hpushed, hpop.trans (by rw [hpopped]; rfl)⟩
    | _ => exact ⟨f, hf, hpushed, hpopped⟩

section Runs

variable [DecidableEq ι] {cfg : Config ι} {w r : ι}

/-- With one writer and one reader every run is in time. -/
theorem spsc_of_reached (hN : 2 ≤ cfg.blockCount) (hwr : w ≠ r) (hcalls : cfg.OneWriter w)
    (hreader : cfg.OneReader w r) {s : State ι} (h : Reached cfg anyStep s) :
    Reached cfg (fun s a => Fresh s a ∧ ClearInTime s a) s ∧ OneReader cfg.blockCount r s := by
  -- the reader's invariant holds along runs that are in time, and it makes the next step so
  have hone : ∀ {s}, Reached cfg (fun s a => Fresh s a ∧ ClearInTime s a) s →
      OneReader cfg.blockCount r s := fun h =>
    h.invariant oneReader_start fun _ _ _ hreach ih _ hs =>
      ih.step hcalls hreader hwr (oneWriter_of_reached hN hcalls hreach)
        (ringInv_of_reached hN (hreach.mono fun _ _ h => h.1))
        (intact_of_reached hN hcalls.onlyStreams hreach) hs
  have hreached : Reached cfg (fun s a => Fresh s a ∧ ClearInTime s a) s :=
    h.strengthen fun s a s' hreach _ _ => by
      have hr := ringInv_of_reached hN (hreach.mono fun _ _ h => h.1)
      obtain ⟨htake, hclear⟩ := (hone hreach).inTime hr
        (intact_of_reached hN hcalls.onlyStreams hreach).stored a
      exact ⟨⟨(oneWriter_of_reached hN hcalls hreach).freshClaim hr a, htake⟩, hclear⟩
  exact ⟨hreached, hone hreached⟩

/-- Only the writer stores messages. -/
theorem authors_of_logged (hN : 2 ≤ cfg.blockCount) (hwr : w ≠ r) (hcalls : cfg.OneWriter w)
    (hreader : cfg.OneReader w r) {p : State ι × CallLog ι} (h : Logged cfg anyStep p) :
    ∀ t ∈ p.2.authors, t = w := by
  refine h.invariant (I := fun p => ∀ t ∈ p.2.authors, t = w) (List.forall_mem_nil _) ?_
  rintro p ⟨t, ch⟩ p' hreach hi - hs
  obtain ⟨hstep, hlog⟩ := noted_eq_some.mp hs
  rw [hlog]
  rcases step_cases hstep with ⟨c, rfl, -, -, -, -⟩ | ⟨v, pc, m', o, mk, rfl, hpc, hcode, -⟩
  · cases c <;> exact hi
  · rw [logged_run hpc hcode]
    have hplain : Reached cfg anyStep p.1 := hreach.forget fun _ _ h => h
    have hw := oneWriter_of_reached hN hcalls (spsc_of_reached hN hwr hcalls hreader hplain).1
    cases hcode with
    | storeAmount pBuff dwAmount b =>
        intro u hu
        rcases List.mem_append.mp hu with hu | hu
        · exact hi u hu
        · exact (List.mem_singleton.mp hu).trans ((hw.role t _ hpc).mp rfl)
    | claim k => cases k <;> exact hi
    | timeoutWrite k => cases k <;> exact hi
    | _ => exact hi

/-- **One writer, one reader: a bounded queue.** In every state of every run the ring stands for an
atomic queue of `N - 1` messages. What is taken is a prefix of what is published, which is a prefix of
what the writer stored: the messages of its calls of `write` that have not timed out, in order and up to
the one it may be in, the first `std::min(amount, BLOCK_SIZE)` bytes each. The reader has copied the
messages it has taken, in order, except the one it may be busy with; and the two never work on the same
block. -/
theorem spsc_fifo (hN : 2 ≤ cfg.blockCount) (hwr : w ≠ r) (hcalls : cfg.OneWriter w)
    (hreader : cfg.OneReader w r) {p : State ι × CallLog ι} (h : Logged cfg anyStep p) :
    (∃ f, BoundedFifo.Reached (cfg.blockCount - 1) f ∧ f.pushed = published p.1.hist ∧
      f.popped = taken p.1.hist) ∧
    (taken p.1.hist).filter (· ≠ []) <+: (published p.1.hist).filter (· ≠ []) ∧
    published p.1.hist <+: written p.1.hist ∧
    written p.1.hist <+: (p.2.writes w).map (WriteCall.message cfg.blockSize) ∧
    (p.2.writes w).length ≤ (written p.1.hist).length + 1 ∧
    (∃ ts, Copies (delivered p.1.hist) ts ∧
      (taken p.1.hist = ts ∨ ∃ msg, taken p.1.hist = ts ++ [msg])) ∧
    ∀ b, b ∈ (p.1.threads w).heldWrite → b ∉ (p.1.threads r).heldRead ∧
      ∀ k, (p.1.threads r).pc ≠ some (.returnBlock k (.clear b)) := by
  obtain ⟨hreached, hone⟩ := spsc_of_reached hN hwr hcalls hreader (h.forget fun _ _ h => h)
  have hr := ringInv_of_reached hN (hreached.mono fun _ _ h => h.1)
  have hi := (intact_of_reached hN hcalls.onlyStreams hreached).stored
  have hw := oneWriter_of_reached hN hcalls hreached
  obtain ⟨hstored, hpending⟩ := stored_of_logged h w
  have hshare : share p.2.authors (written p.1.hist) w = written p.1.hist :=
    share_of_alone (balanced_of_logged h).authors (authors_of_logged hN hwr hcalls hreader h)
  rw [hshare] at hstored hpending
  refine ⟨fifo_of_reached hN hcalls.onlyStreams hreached, ?_, ?_, hstored, hpending, ?_,
    fun b hb => ⟨?_, ?_⟩⟩
  · rw [hi.taken_eq, hi.published_eq]
    exact (map_range_le hr.takes_le).filter _
  · rw [hi.published_eq, hw.written_eq]
    exact map_range_le (hw.publishes_le hr)
  · have hl := hone.ledger
    unfold ReadLedger at hl
    split at hl
    next => exact ⟨_, hl.2, .inl rfl⟩
    next =>
      obtain ⟨ts, htaken, hcopies⟩ := hl
      exact ⟨ts, hcopies, .inr ⟨_, htaken⟩⟩
    next =>
      obtain ⟨ts, htaken, hcopies, -⟩ := hl
      exact ⟨ts, hcopies, .inr ⟨_, htaken⟩⟩
    next =>
      obtain ⟨ts, htaken, hcopies, -⟩ := hl
      exact ⟨ts, hcopies, .inr ⟨_, htaken⟩⟩
    next =>
      obtain ⟨ts, htaken, hcopies, -⟩ := hl
      exact ⟨ts, hcopies, .inr ⟨_, htaken⟩⟩
    next => exact ⟨_, hl, .inl rfl⟩
  · exact fun hb' => hr.held_disjoint hb hb'
  · intro k hpc
    -- the returned ticket is not retired yet, so the writer's would be a whole round ahead
    obtain ⟨q, hq, hq', hslot, -⟩ := hone.sighted _ hpc
    obtain ⟨p, hp, hp', hslot', -⟩ := hr.held_write hb
    have htakes := hr.takes_le
    have hpublishes := hr.publishes_le
    have hretires := hr.retires_le
    have := hr.eq_of_slot hq (by omega) (by omega) hp'.le (hslot.trans hslot'.symm)
    omega

end Runs

theorem streams_oneReader {blockCount : ℕ} {wait : WaitStep} :
    (streams 2 blockCount 1 wait).OneReader 0 1 := by
  intro t c _
  omega

/-- Two messages through a ring of two blocks, the first cut to four bytes; the reader's buffer holds
two. -/
def roundTheRing : List (Fin 2 × Choice) :=
  during 0 (.write letters 6) 19 ++ during 1 (.read 2 1) 19 ++
  during 0 (.write letters 1) 16 ++ during 1 (.read 2 1) 3

theorem spsc_fifo_roundTheRing :
    ∃ p, Logged (streams 2 2 1 waitForEvent) anyStep p ∧ delivered p.1.hist = [(2, [65, 66])] ∧
      (taken p.1.hist).filter (· ≠ []) = [[65, 66, 67, 68], [65]] ∧
      (taken p.1.hist).filter (· ≠ []) <+: (published p.1.hist).filter (· ≠ []) ∧
      published p.1.hist <+: written p.1.hist ∧
      (p.2.writes 0).map WriteCall.amount = [6, 1] ∧
      written p.1.hist <+: (p.2.writes 0).map (WriteCall.message 4) := by
  obtain ⟨p, hp, hdelivered, htaken, hwrites⟩ : ∃ p, Logged (streams 2 2 1 waitForEvent) anyStep p ∧
      delivered p.1.hist = [(2, [65, 66])] ∧
      (taken p.1.hist).filter (· ≠ []) = [[65, 66, 67, 68], [65]] ∧
      (p.2.writes 0).map WriteCall.amount = [6, 1] :=
    Reach.exists_of_run roundTheRing (by decide +kernel)
  have hN : 2 ≤ (streams 2 2 1 waitForEvent).blockCount := by decide
  obtain ⟨-, htaken', hpublished, hstored, -⟩ :=
    spsc_fifo hN (by decide) streams_oneWriter streams_oneReader hp
  exact ⟨p, hp, hdelivered, htaken, htaken', hpublished, hwrites, hstored⟩

end AtomicMessageQueue
