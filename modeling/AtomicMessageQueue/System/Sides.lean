import AtomicMessageQueue.System.Machine

/-! # The two sides of the ring

The write side (claims, `doneWrite` flags, `m_writeEnd`) and the read side (takes, `doneRead` flags,
`m_readEnd`) of the buffer are both instances of a `TicketRing.Side`. `writeSide_step` and
`readSide_step` show that every step of the system is an enabled act on each of them. What links
buffer indices to ticket numbers, `Cursors`, holds in every run without any condition.
-/

namespace AtomicMessageQueue

open Function Transition TicketRing

variable {ι : Type*}

/-! ## Cursors and tickets -/

/-- The links are those of `create`, each cursor is the number of its moves modulo the ring size,
and the latest ticket of a slot is the last one that falls on it. -/
structure Cursors (N : ℕ) (s : State ι) : Prop where
  links : Linked N s.mem
  writeStart : s.mem.writeStart = claims s.hist % N
  writeEnd : s.mem.writeEnd = publishes s.hist % N
  readStart : s.mem.readStart = takes s.hist % N
  readEnd : s.mem.readEnd = retires s.hist % N
  writeTicket : ∀ q, q < claims s.hist → claims s.hist ≤ q + N → writeTicket s.hist (q % N) = q
  readTicket : ∀ q, q < takes s.hist → takes s.hist ≤ q + N → readTicket s.hist (q % N) = q

/-- No access writes a link. -/
theorem CodeStep.links {blockSize : ℕ} {wait : WaitStep} {w : WaitEnd} {m m' : MemBuff} {pc : Pc}
    {o : Out Pc Ret} {mk : Option Mark} (h : CodeStep blockSize wait w m pc m' o mk) (i : ℕ) :
    (m'.blocks i).next = (m.blocks i).next ∧ (m'.blocks i).prev = (m.blocks i).prev := by
  cases h <;> first
    | exact ⟨rfl, rfl⟩
    | (refine ⟨m.get_setBlock Block.next ?_ i, m.get_setBlock Block.prev ?_ i⟩ <;>
        exact fun _ => rfl)

/-- A cursor that moves follows the link of the block it points at. -/
theorem Linked.advance {N : ℕ} {m : MemBuff} (h : Linked N m) (hN : 0 < N) {i q : ℕ}
    (hi : i = q % N) : (m.blocks i).next = (q + 1) % N := by
  rw [h.next i (hi ▸ Nat.mod_lt q hN), hi, succ_mod]

/-- Recording ticket `n` at its slot keeps the latest tickets of the last `N` slots. -/
theorem latest_update {N n i : ℕ} {ticket : ℕ → ℕ} (hi : i = n % N)
    (h : ∀ q, q < n → n ≤ q + N → ticket (q % N) = q) :
    ∀ q, q < n + 1 → n + 1 ≤ q + N → update ticket i n (q % N) = q := by
  rintro q hq hqN
  rcases Nat.lt_succ_iff_lt_or_eq.mp hq with hlt | rfl
  · have hne : q % N ≠ i := by
      intro heq
      have := eq_of_mod_eq (a := q) (N := N) le_rfl (by omega) hlt.le (by omega) (heq.trans hi)
      omega
    rw [update_of_ne hne]
    exact h q hlt (by omega)
  · rw [hi, update_self]

theorem cursors_start {cfg : Config ι} (hN : 2 ≤ cfg.blockCount) :
    Cursors cfg.blockCount (start cfg) := by
  refine ⟨create_linked hN, ?_, ?_, ?_, ?_, nofun, nofun⟩ <;>
    simp only [start, create_eq hN, claims, publishes, takes, retires, Nat.zero_mod, MemBuff.zero]

theorem Cursors.step [DecidableEq ι] {cfg : Config ι} (hN : 0 < cfg.blockCount) {s s' : State ι}
    {a : ι × Choice} (h : Cursors cfg.blockCount s) (hs : step cfg s a = some s') :
    Cursors cfg.blockCount s' := by
  obtain ⟨t, ch⟩ := a
  rcases step_cases hs with ⟨c, -, -, -, -, rfl⟩ | ⟨w, pc, m', o, mk, -, hpc, hcode, rfl⟩
  · exact ⟨h.links, h.writeStart, h.writeEnd, h.readStart, h.readEnd, h.writeTicket, h.readTicket⟩
  · have hlinks : Linked cfg.blockCount m' := h.links.of_links hcode.links
    have hws := h.writeStart
    have hwe := h.writeEnd
    have hrs := h.readStart
    have hre := h.readEnd
    have hwt := h.writeTicket
    have hrt := h.readTicket
    cases hcode with
    | claim k i hi =>
        exact ⟨hlinks, h.links.advance hN (hi.symm.trans hws), hwe, hrs, hre,
          latest_update (hi.symm.trans hws) hwt, hrt⟩
    | publish k i hi =>
        exact ⟨hlinks, hws, h.links.advance hN (hi.symm.trans hwe), hrs, hre, hwt, hrt⟩
    | take k i hi =>
        exact ⟨hlinks, hws, hwe, h.links.advance hN (hi.symm.trans hrs), hre, hwt,
          latest_update (hi.symm.trans hrs) hrt⟩
    | retire k i hi =>
        exact ⟨hlinks, hws, hwe, hrs, h.links.advance hN (hi.symm.trans hre), hwt, hrt⟩
    | _ => exact ⟨hlinks, hws, hwe, hrs, hre, hwt, hrt⟩

/-! ## Program points and held blocks -/

/-- The block a thread is filling or about to post. -/
def Pc.writing : Pc → Option ℕ
  | .copyIn _ _ b _ => some b
  | .storeAmount _ _ b => some b
  | .postBlock _ (.set b) => some b
  | _ => none

/-- The block a thread is reading or about to return. -/
def Pc.reading : Pc → Option ℕ
  | .loadAmount _ _ b => some b
  | .loadMin _ b => some b
  | .loadDwAmount _ b => some b
  | .copyOut _ _ b _ => some b
  | .returnBlock _ (.set b) => some b
  | _ => none

/-- The block being written at an optional program point. -/
def writingAt (pc : Option Pc) : Option ℕ := pc.bind Pc.writing

/-- The block being read at an optional program point. -/
def readingAt (pc : Option Pc) : Option ℕ := pc.bind Pc.reading

/-- The block at which `get_block_write` is about to make its room test. -/
def roomTest : Option Pc → Option ℕ
  | some (.getBlockWrite _ (.test i)) => some i
  | _ => none

/-- The block at which `get_block_read` is about to make its emptiness test. -/
def emptinessTest : Option Pc → Option ℕ
  | some (.getBlockRead _ (.test i)) => some i
  | _ => none

/-- A thread only works on blocks it holds. -/
structure Local.Wf (l : Local) : Prop where
  writing : ∀ b, writingAt l.pc = some b → b ∈ l.heldWrite
  reading : ∀ b, readingAt l.pc = some b → b ∈ l.heldRead

section Code

variable {blockSize : ℕ} {wait : WaitStep} {w : WaitEnd} {m m' : MemBuff} {pc : Pc}
  {o : Out Pc Ret} {mk : Option Mark}

/-- A block being written has just been claimed or was being written before. -/
theorem CodeStep.writing (h : CodeStep blockSize wait w m pc m' o mk) {b : ℕ}
    (hb : writingAt o.pc = some b) :
    mk = some (.claim b) ∨ (pc.writing = some b ∧ ∀ l, Mark.holdWrite mk l = l) := by
  cases h with
  | claim k i =>
      cases k with
      | holder => cases hb
      | write pBuff amount => exact .inl (by rw [Option.some.inj hb])
  | timeoutWrite k => cases k <;> cases hb
  | leavePost k => cases k <;> cases hb
  | emptyReturn k => cases k <;> cases hb
  | timeoutRead k => cases k <;> cases hb
  | take k => cases k <;> cases hb
  | leaveReturn k => cases k <;> cases hb
  | _ => first
    | exact .inr ⟨hb, fun _ => rfl⟩
    | cases hb

/-- A block being read has just been taken or was being read before. -/
theorem CodeStep.reading (h : CodeStep blockSize wait w m pc m' o mk) {b : ℕ}
    (hb : readingAt o.pc = some b) :
    (∃ msg, mk = some (.take b msg)) ∨ (pc.reading = some b ∧ ∀ l, Mark.holdRead mk l = l) := by
  cases h with
  | take k i =>
      cases k with
      | holder ms => cases hb
      | read buffSize ms => exact .inl ⟨_, by rw [Option.some.inj hb]⟩
  | timeoutWrite k => cases k <;> cases hb
  | leavePost k => cases k <;> cases hb
  | emptyReturn k => cases k <;> cases hb
  | timeoutRead k => cases k <;> cases hb
  | claim k => cases k <;> cases hb
  | leaveReturn k => cases k <;> cases hb
  | _ => first
    | exact .inr ⟨hb, fun _ => rfl⟩
    | cases hb

theorem Local.Wf.call {l : Local} {c : Call} (hlegal : c.legal l = true) :
    Local.Wf { l with pc := some c.enter } := by
  constructor <;> intro b hb <;> cases c <;> cases hb
  · exact of_decide_eq_true hlegal
  · exact of_decide_eq_true hlegal

theorem Local.Wf.after {l : Local} (h : l.Wf) (hpc : l.pc = some pc)
    (hcode : CodeStep blockSize wait w m pc m' o mk) : (l.after o mk).Wf := by
  constructor <;> intro b hb
  · rcases hcode.writing hb with rfl | ⟨hold, hmk⟩
    · exact List.mem_cons_self
    · show b ∈ Mark.holdWrite mk l.heldWrite
      rw [hmk]
      exact h.writing b (by rw [hpc]; exact hold)
  · rcases hcode.reading hb with ⟨msg, rfl⟩ | ⟨hold, hmk⟩
    · exact List.mem_cons_self
    · show b ∈ Mark.holdRead mk l.heldRead
      rw [hmk]
      exact h.reading b (by rw [hpc]; exact hold)

end Code

/-- Every thread works only on blocks it holds. -/
theorem wf_step [DecidableEq ι] {cfg : Config ι} {s s' : State ι} {t : ι} {ch : Choice}
    (h : ∀ u, (s.threads u).Wf) (hs : step cfg s (t, ch) = some s') (u : ι) :
    (s'.threads u).Wf := by
  rcases step_cases hs with ⟨c, -, -, -, hlegal, rfl⟩ | ⟨w, pc, m', o, mk, -, hpc, hcode, rfl⟩ <;>
    simp only [update_apply] <;> split
  · exact Local.Wf.call hlegal
  · exact h u
  · exact (h t).after hpc hcode
  · exact h u

/-! ## The two views -/

/-- How one side of the ring is read off a state: its counters, tickets and finished tickets off the
history, its flag off a block, what a thread holds, and what a thread does as a helper. -/
structure View where
  start : List Mark → ℕ
  fin : List Mark → ℕ
  ticket : List Mark → ℕ → ℕ
  done : List Mark → ℕ → Bool
  flag : Block → ℕ
  held : Local → List ℕ
  helper : Option Pc → Helper
  act : MemBuff → Pc → Act

/-- One side of a state. -/
def View.side (v : View) (s : State ι) : Side ι where
  start := v.start s.hist
  fin := v.fin s.hist
  ticket := v.ticket s.hist
  done := fun q => v.done s.hist q = true
  flag := fun i => v.flag (s.mem.blocks i) = 1
  held := fun t => v.held (s.threads t)
  helper := fun t => v.helper (s.threads t).pc

/-- The act of a scheduled thread on one side. -/
def View.actOf (v : View) (s : State ι) : ι × Choice → Act
  | (_, .call _) => .idle
  | (t, .run _) =>
      match (s.threads t).pc with
      | none => .idle
      | some pc => v.act s.mem pc

/-- Where a thread is as a helper of `m_writeEnd`. -/
def writeHelper : Option Pc → Helper
  | some (.postBlock _ .load) => .look
  | some (.postBlock _ (.casDone i)) => .take i
  | some (.postBlock _ (.casEnd i)) => .move i
  | some (.postBlock _ (.test _)) => .look
  | some (.postBlock _ .setEvent) => .look
  | some (.postBlock _ .broadcast) => .look
  | _ => .out

/-- The write side's act in the access at a program point. -/
def writeAct (m : MemBuff) : Pc → Act
  | .getBlockWrite _ (.cas i) => if m.writeStart = i then .grant i else .idle
  | .postBlock _ (.set b) => .finish b
  | .postBlock _ .load => .look
  | .postBlock _ (.casDone i) => if (m.blocks i).doneWrite = 1 then .take i else .leave i
  | .postBlock _ (.casEnd i) => if m.writeEnd = i then .move i else .miss i
  | _ => .idle

/-- Where a thread is as a helper of `m_readEnd`. -/
def readHelper : Option Pc → Helper
  | some (.returnBlock _ (.clear _)) => .look
  | some (.returnBlock _ .load) => .look
  | some (.returnBlock _ (.casDone i)) => .take i
  | some (.returnBlock _ (.casEnd i)) => .move i
  | some (.returnBlock _ (.test _)) => .look
  | some (.returnBlock _ .setEvent) => .look
  | some (.returnBlock _ .broadcast) => .look
  | _ => .out

/-- The read side's act in the access at a program point. -/
def readAct (m : MemBuff) : Pc → Act
  | .getBlockRead _ (.cas i) => if m.readStart = i then .grant i else .idle
  | .returnBlock _ (.set b) => .finish b
  | .returnBlock _ .load => .look
  | .returnBlock _ (.casDone i) => if (m.blocks i).doneRead = 1 then .take i else .leave i
  | .returnBlock _ (.casEnd i) => if m.readEnd = i then .move i else .miss i
  | _ => .idle

/-- The write side: claims posted by their holders and published by helpers. -/
def writeView : View where
  start := claims
  fin := publishes
  ticket := writeTicket
  done := posted
  flag := Block.doneWrite
  held := Local.heldWrite
  helper := writeHelper
  act := writeAct

/-- The read side: takes returned by their holders and retired by helpers. -/
def readView : View where
  start := takes
  fin := retires
  ticket := readTicket
  done := returned
  flag := Block.doneRead
  held := Local.heldRead
  helper := readHelper
  act := readAct

/-- The side of a state after one access of thread `t`. -/
theorem View.side_run [DecidableEq ι] (v : View) (s : State ι) (t : ι) (m' : MemBuff) (l : Local)
    (hist : List Mark) :
    v.side { mem := m', threads := update s.threads t l, hist := hist } =
      { start := v.start hist
        fin := v.fin hist
        ticket := v.ticket hist
        done := fun q => v.done hist q = true
        flag := fun i => v.flag (m'.blocks i) = 1
        held := update (v.side s).held t (v.held l)
        helper := update (v.side s).helper t (v.helper l.pc) } := by
  refine Side.ext rfl rfl rfl rfl rfl ?_ ?_
  · funext u
    exact apply_update (fun _ => v.held) s.threads t l u
  · funext u
    exact apply_update (fun _ (l : Local) => v.helper l.pc) s.threads t l u

/-- An access that concerns only the other side leaves this one as it was. -/
theorem View.side_idle [DecidableEq ι] (v : View) {s : State ι} {t : ι} {m' : MemBuff} {l : Local}
    {hist : List Mark} (hstart : v.start hist = v.start s.hist) (hfin : v.fin hist = v.fin s.hist)
    (hticket : v.ticket hist = v.ticket s.hist) (hdone : v.done hist = v.done s.hist)
    (hflag : ∀ i, v.flag (m'.blocks i) = v.flag (s.mem.blocks i))
    (hheld : v.held l = v.held (s.threads t))
    (hhelper : v.helper l.pc = v.helper (s.threads t).pc) :
    v.side { mem := m', threads := update s.threads t l, hist := hist } = v.side s := by
  rw [v.side_run]
  refine Side.ext hstart hfin hticket ?_ ?_ ?_ ?_
  · simp only [hdone, View.side]
  · simp only [hflag, View.side]
  · rw [hheld]; exact update_eq_self t _
  · rw [hhelper]; exact update_eq_self t _

/-- Storing `v` in one flag sets or clears it among the raised flags. -/
theorem MemBuff.flag_setBlock_update (m : MemBuff) (flag : Block → ℕ) {b v : ℕ} {p : Prop}
    (hp : (v = 1) = p) {f : Block → Block} (hf : ∀ blk, flag (f blk) = v) :
    (fun i => flag ((m.setBlock b f).blocks i) = 1) =
      update (fun i => flag (m.blocks i) = 1) b p := by
  funext i
  simp only [MemBuff.setBlock, update_apply]
  split
  next => rw [hf, hp]
  next => rfl

section Acts

variable [DecidableEq ι] (v : View) {N : ℕ} {s : State ι} {t : ι} {m' : MemBuff} {l : Local} {hist : List Mark}
  {b : ℕ}

/-- A view whose cursor handed out block `b` has done a grant. -/
theorem View.side_grant (hstart : v.start hist = v.start s.hist + 1)
    (hfin : v.fin hist = v.fin s.hist)
    (hticket : v.ticket hist = update (v.ticket s.hist) b (v.start s.hist))
    (hdone : v.done hist = v.done s.hist)
    (hflag : ∀ i, v.flag (m'.blocks i) = v.flag (s.mem.blocks i))
    (hheld : v.held l = b :: v.held (s.threads t))
    (hhelper : v.helper l.pc = v.helper (s.threads t).pc) :
    v.side { mem := m', threads := update s.threads t l, hist := hist } =
      (v.side s).apply N t (.grant b) := by
  rw [v.side_run]
  refine Side.ext hstart hfin hticket ?_ ?_ ?_ ?_
  · simp only [hdone, View.side, Side.apply]
  · simp only [hflag, View.side, Side.apply]
  · rw [hheld]; rfl
  · rw [hhelper]; exact update_eq_self t _

/-- A view whose flag of block `b` was raised by its holder has done a finish. -/
theorem View.side_finish (hstart : v.start hist = v.start s.hist)
    (hfin : v.fin hist = v.fin s.hist) (hticket : v.ticket hist = v.ticket s.hist)
    (hdone : ∀ q, v.done hist q = (q == v.ticket s.hist b || v.done s.hist q))
    (hflag : (fun i => v.flag (m'.blocks i) = 1) =
      update (fun i => v.flag (s.mem.blocks i) = 1) b True)
    (hheld : v.held l = (v.held (s.threads t)).erase b) (hhelper : v.helper l.pc = .look) :
    v.side { mem := m', threads := update s.threads t l, hist := hist } =
      (v.side s).apply N t (.finish b) := by
  rw [v.side_run]
  refine Side.ext hstart hfin hticket ?_ hflag ?_ ?_
  · simp only [hdone, Bool.or_eq_true, beq_iff_eq, View.side, Side.apply]
  · rw [hheld]; rfl
  · rw [hhelper]; rfl

/-- A view whose flag of block `b` was taken down by a helper has done a take. -/
theorem View.side_take (hstart : v.start hist = v.start s.hist)
    (hfin : v.fin hist = v.fin s.hist) (hticket : v.ticket hist = v.ticket s.hist)
    (hdone : v.done hist = v.done s.hist)
    (hflag : (fun i => v.flag (m'.blocks i) = 1) =
      update (fun i => v.flag (s.mem.blocks i) = 1) b False)
    (hheld : v.held l = v.held (s.threads t)) (hhelper : v.helper l.pc = .move b) :
    v.side { mem := m', threads := update s.threads t l, hist := hist } =
      (v.side s).apply N t (.take b) := by
  rw [v.side_run]
  refine Side.ext hstart hfin hticket ?_ hflag ?_ ?_
  · simp only [hdone, View.side, Side.apply]
  · rw [hheld]; exact update_eq_self t _
  · rw [hhelper]; rfl

/-- A view whose trailing cursor was moved by a helper has done a move. -/
theorem View.side_move (hstart : v.start hist = v.start s.hist)
    (hfin : v.fin hist = v.fin s.hist + 1) (hticket : v.ticket hist = v.ticket s.hist)
    (hdone : v.done hist = v.done s.hist)
    (hflag : ∀ i, v.flag (m'.blocks i) = v.flag (s.mem.blocks i))
    (hheld : v.held l = v.held (s.threads t)) (hhelper : v.helper l.pc = .look) :
    v.side { mem := m', threads := update s.threads t l, hist := hist } =
      (v.side s).apply N t (.move b) := by
  rw [v.side_run]
  refine Side.ext hstart hfin hticket ?_ ?_ ?_ ?_
  · simp only [hdone, View.side, Side.apply]
  · simp only [hflag, View.side, Side.apply]
  · rw [hheld]; exact update_eq_self t _
  · rw [hhelper]; rfl

/-- An access that only moves a helper from one place to another. -/
theorem View.side_helper {p : Helper} (hstart : v.start hist = v.start s.hist)
    (hfin : v.fin hist = v.fin s.hist) (hticket : v.ticket hist = v.ticket s.hist)
    (hdone : v.done hist = v.done s.hist)
    (hflag : ∀ i, v.flag (m'.blocks i) = v.flag (s.mem.blocks i))
    (hheld : v.held l = v.held (s.threads t)) (hhelper : v.helper l.pc = p) :
    v.side { mem := m', threads := update s.threads t l, hist := hist } =
      { v.side s with helper := update (v.side s).helper t p } := by
  rw [v.side_run]
  refine Side.ext hstart hfin hticket ?_ ?_ ?_ ?_
  · simp only [hdone, View.side]
  · simp only [hflag, View.side]
  · rw [hheld]; exact update_eq_self t _
  · rw [hhelper]

end Acts

/-- **The write side simulates.** Every step of the system is an enabled act on the write side. -/
theorem writeSide_step [DecidableEq ι] {cfg : Config ι} {s s' : State ι} {t : ι} {ch : Choice}
    (hcur : Cursors cfg.blockCount s) (hwf : (s.threads t).Wf)
    (hs : step cfg s (t, ch) = some s') :
    (writeView.side s).Enabled cfg.blockCount t (writeView.actOf s (t, ch)) ∧
      writeView.side s' =
        (writeView.side s).apply cfg.blockCount t (writeView.actOf s (t, ch)) := by
  rcases step_cases hs with ⟨c, rfl, hpc, -, -, rfl⟩ | ⟨w, pc, m', o, mk, rfl, hpc, hcode, rfl⟩
  · refine ⟨trivial, writeView.side_idle rfl rfl rfl rfl (fun _ => rfl) rfl ?_⟩
    rw [hpc]
    cases c <;> rfl
  · -- a CAS is an act of the side only when it succeeds; a lost one leaves the side as it was
    have hact : writeView.actOf s (t, .run w) = writeAct s.mem pc := by
      simp only [View.actOf, hpc]; rfl
    have hhelper : (writeView.side s).helper t = writeHelper (some pc) := by
      simp only [View.side, hpc]; rfl
    rw [hact]
    cases hcode with
    | claim k i hi =>
        simp only [writeAct, if_pos hi]
        refine ⟨hi.symm.trans hcur.writeStart,
          writeView.side_grant rfl rfl rfl rfl (fun _ => rfl) rfl ?_⟩
        rw [hpc]; cases k <;> rfl
    | claimLost k i hi =>
        simp only [writeAct, if_neg hi]
        refine ⟨trivial, writeView.side_idle rfl rfl rfl rfl (fun _ => rfl) rfl ?_⟩
        rw [hpc]; rfl
    | setDoneWrite k b =>
        exact ⟨⟨hwf.writing b (by rw [hpc]; rfl), hhelper⟩,
          writeView.side_finish rfl rfl rfl (fun _ => rfl)
            (s.mem.flag_setBlock_update _ (eq_true rfl) fun _ => rfl) rfl rfl⟩
    | loadWriteEnd k =>
        refine ⟨hhelper, writeView.side_helper rfl rfl rfl rfl (fun _ => rfl) rfl ?_⟩
        exact congrArg Helper.take hcur.writeEnd
    | takeDoneWrite k i hi =>
        simp only [writeAct, if_pos hi]
        exact ⟨⟨hhelper, hi⟩, writeView.side_take rfl rfl rfl rfl
          (s.mem.flag_setBlock_update _ (eq_false (by decide)) fun _ => rfl) rfl rfl⟩
    | leavePost k i hi =>
        simp only [writeAct, if_neg hi]
        refine ⟨⟨hhelper, hi⟩, writeView.side_helper rfl rfl rfl rfl (fun _ => rfl) rfl ?_⟩
        cases k <;> rfl
    | publish k i hi =>
        simp only [writeAct, if_pos hi]
        exact ⟨⟨hhelper, hcur.writeEnd.symm.trans hi⟩,
          writeView.side_move rfl rfl rfl rfl (fun _ => rfl) rfl rfl⟩
    | publishMissed k i hi =>
        simp only [writeAct, if_neg hi]
        exact ⟨⟨hhelper, fun heq => hi (hcur.writeEnd.trans heq)⟩,
          writeView.side_helper rfl rfl rfl rfl (fun _ => rfl) rfl rfl⟩
    | _ =>
        refine ⟨trivial, writeView.side_idle rfl rfl rfl rfl ?_ rfl ?_⟩
        · first
            | exact fun _ => rfl
            | exact s.mem.get_setBlock Block.doneWrite fun _ => rfl
        · rw [hpc]
          first
            | rfl
            | (cases ‹WriteCaller› <;> rfl)
            | (cases ‹ReadCaller› <;> rfl)
            | (cases ‹ReturnCaller› <;> rfl)

/-- **The read side simulates.** Every step of the system is an enabled act on the read side. -/
theorem readSide_step [DecidableEq ι] {cfg : Config ι} {s s' : State ι} {t : ι} {ch : Choice}
    (hcur : Cursors cfg.blockCount s) (hwf : (s.threads t).Wf)
    (hs : step cfg s (t, ch) = some s') :
    (readView.side s).Enabled cfg.blockCount t (readView.actOf s (t, ch)) ∧
      readView.side s' =
        (readView.side s).apply cfg.blockCount t (readView.actOf s (t, ch)) := by
  rcases step_cases hs with ⟨c, rfl, hpc, -, -, rfl⟩ | ⟨w, pc, m', o, mk, rfl, hpc, hcode, rfl⟩
  · refine ⟨trivial, readView.side_idle rfl rfl rfl rfl (fun _ => rfl) rfl ?_⟩
    rw [hpc]
    cases c <;> rfl
  · -- the accesses of `write` and the write flags are idle on this side
    have hact : readView.actOf s (t, .run w) = readAct s.mem pc := by
      simp only [View.actOf, hpc]; rfl
    have hhelper : (readView.side s).helper t = readHelper (some pc) := by
      simp only [View.side, hpc]; rfl
    rw [hact]
    cases hcode with
    | take k i hi =>
        simp only [readAct, if_pos hi]
        refine ⟨hi.symm.trans hcur.readStart,
          readView.side_grant rfl rfl rfl rfl (fun _ => rfl) rfl ?_⟩
        rw [hpc]; cases k <;> rfl
    | takeLost k i hi =>
        simp only [readAct, if_neg hi]
        refine ⟨trivial, readView.side_idle rfl rfl rfl rfl (fun _ => rfl) rfl ?_⟩
        rw [hpc]; rfl
    | setDoneRead k b =>
        exact ⟨⟨hwf.reading b (by rw [hpc]; rfl), hhelper⟩,
          readView.side_finish rfl rfl rfl (fun _ => rfl)
            (s.mem.flag_setBlock_update _ (eq_true rfl) fun _ => rfl) rfl rfl⟩
    | loadReadEnd k =>
        refine ⟨hhelper, readView.side_helper rfl rfl rfl rfl (fun _ => rfl) rfl ?_⟩
        exact congrArg Helper.take hcur.readEnd
    | takeDoneRead k i hi =>
        simp only [readAct, if_pos hi]
        exact ⟨⟨hhelper, hi⟩, readView.side_take rfl rfl rfl rfl
          (s.mem.flag_setBlock_update _ (eq_false (by decide)) fun _ => rfl) rfl rfl⟩
    | leaveReturn k i hi =>
        simp only [readAct, if_neg hi]
        refine ⟨⟨hhelper, hi⟩, readView.side_helper rfl rfl rfl rfl (fun _ => rfl) rfl ?_⟩
        cases k <;> rfl
    | retire k i hi =>
        simp only [readAct, if_pos hi]
        exact ⟨⟨hhelper, hcur.readEnd.symm.trans hi⟩,
          readView.side_move rfl rfl rfl rfl (fun _ => rfl) rfl rfl⟩
    | retireMissed k i hi =>
        simp only [readAct, if_neg hi]
        exact ⟨⟨hhelper, fun heq => hi (hcur.readEnd.trans heq)⟩,
          readView.side_helper rfl rfl rfl rfl (fun _ => rfl) rfl rfl⟩
    | _ =>
        refine ⟨trivial, readView.side_idle rfl rfl rfl rfl ?_ rfl ?_⟩
        · first
            | exact fun _ => rfl
            | exact s.mem.get_setBlock Block.doneRead fun _ => rfl
        · rw [hpc]
          first
            | rfl
            | (cases ‹WriteCaller› <;> rfl)
            | (cases ‹PostCaller› <;> rfl)
            | (cases ‹ReadCaller› <;> rfl)

end AtomicMessageQueue
