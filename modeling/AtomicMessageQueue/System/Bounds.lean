import Mathlib.Data.Fintype.Basic
import AtomicMessageQueue.System.Exclusion
import AtomicMessageQueue.System.Streams

/-! # Accesses stay inside the segment

A thread keeps block indices and byte counts over any number of steps of the others, so that its
accesses stay inside the segment only if every index in hand is one of the ring and every copy in
progress fits into a block. `Pc.Safe` says so of a program point. It needs none of the orders between
the cursors and holds in every run, also where the ring is lapped or overtaken.

The caller's buffer is another matter. `std::min` returns a reference, so that `read` loads `Amount`
once to compare it with `buffSize` and once more to use it. A copy stays within the buffer as long as
no `write` stores a larger `Amount` between the two.
-/

namespace AtomicMessageQueue

open Function Transition

variable {ι : Type*}

/-! ## What a thread has in hand -/

/-- The index into `m_blocks` that a thread has in hand. -/
def Pc.index : Pc → Option ℕ
  | .getBlockWrite _ (.test i) => some i
  | .getBlockWrite _ (.cas i) => some i
  | .copyIn _ _ b _ => some b
  | .storeAmount _ _ b => some b
  | .postBlock _ (.set b) => some b
  | .postBlock _ (.casDone i) => some i
  | .postBlock _ (.casEnd i) => some i
  | .postBlock _ (.test i) => some i
  | .getBlockRead _ (.test i) => some i
  | .getBlockRead _ (.cas i) => some i
  | .loadAmount _ _ b => some b
  | .loadMin _ b => some b
  | .loadDwAmount _ b => some b
  | .copyOut _ _ b _ => some b
  | .returnBlock _ (.set b) => some b
  | .returnBlock _ (.clear b) => some b
  | .returnBlock _ (.casDone i) => some i
  | .returnBlock _ (.casEnd i) => some i
  | .returnBlock _ (.test i) => some i
  | _ => none

/-- The copy in progress fits into a block. So does what `std::min` has chosen on the way out. -/
def Pc.Fits (blockSize : ℕ) : Pc → Prop
  | .copyIn _ dwAmount _ done => done ≤ dwAmount ∧ dwAmount ≤ blockSize
  | .storeAmount _ dwAmount _ => dwAmount ≤ blockSize
  | .copyOut _ dwAmount _ bytes => bytes.length ≤ dwAmount ∧ dwAmount ≤ blockSize
  | _ => True

/-- The copy in progress fits into the caller's buffer, and would if `Amount` were loaded now. -/
def Pc.FitsBuffer (m : MemBuff) : Pc → Prop
  | .loadDwAmount buffSize b => (m.blocks b).amount ≤ buffSize
  | .copyOut buffSize dwAmount _ _ => dwAmount ≤ buffSize
  | _ => True

/-- What a thread has in hand at a program point keeps its next access inside the segment. -/
structure Pc.Safe (N blockSize : ℕ) (pc : Pc) : Prop where
  index : ∀ i, pc.index = some i → i < N
  fits : pc.Fits blockSize

/-- The cursors are indices of the ring. -/
structure CursorsBelow (N : ℕ) (m : MemBuff) : Prop where
  writeStart : m.writeStart < N
  writeEnd : m.writeEnd < N
  readStart : m.readStart < N
  readEnd : m.readEnd < N

theorem Cursors.below {N : ℕ} {s : State ι} (h : Cursors N s) (hN : 0 < N) : CursorsBelow N s.mem where
  writeStart := h.writeStart ▸ Nat.mod_lt _ hN
  writeEnd := h.writeEnd ▸ Nat.mod_lt _ hN
  readStart := h.readStart ▸ Nat.mod_lt _ hN
  readEnd := h.readEnd ▸ Nat.mod_lt _ hN

section Code

variable {N blockSize : ℕ} {wait : WaitStep} {w : WaitEnd} {m m' : MemBuff} {pc : Pc}
  {o : Out Pc Ret} {mk : Option Mark}

/-- An index in hand was in hand before, or has just been loaded from a cursor. -/
theorem CodeStep.index_lt (h : CodeStep blockSize wait w m pc m' o mk) (hcur : CursorsBelow N m)
    (hpc : ∀ i, pc.index = some i → i < N) {pc' : Pc} (ho : o.pc = some pc') {i : ℕ}
    (hi : pc'.index = some i) : i < N := by
  cases h with
  | loadWriteStart k =>
      cases ho
      exact Option.some.inj hi ▸ hcur.writeStart
  | loadWriteEnd k =>
      cases ho
      exact Option.some.inj hi ▸ hcur.writeEnd
  | loadReadStart k =>
      cases ho
      exact Option.some.inj hi ▸ hcur.readStart
  | loadReadEnd k =>
      cases ho
      exact Option.some.inj hi ▸ hcur.readEnd
  | claim k i =>
      cases k <;> cases ho
      exact hpc _ hi
  | take k i =>
      cases k <;> cases ho
      exact hpc _ hi
  | timeoutWrite k | emptyReturn k | timeoutRead k => cases k <;> cases ho
  | leavePost k => cases k <;> cases ho; cases hi
  | leaveReturn k => cases k <;> cases ho <;> cases hi
  | increment | decrement => cases ho
  | _ =>
      cases ho
      first
        | exact hpc _ hi
        | cases hi

/-- A copy in progress fits: `write` cuts its message to the size of a block when it is handed one,
`read` copies what it has loaded as `Amount`, or less. -/
theorem CodeStep.fits (h : CodeStep blockSize wait w m pc m' o mk)
    (hamount : ∀ i, (m.blocks i).amount ≤ blockSize) (hpc : pc.Fits blockSize) {pc' : Pc}
    (ho : o.pc = some pc') : pc'.Fits blockSize := by
  cases h with
  | claim k i =>
      cases k <;> cases ho
      exact ⟨Nat.zero_le _, Nat.min_le_right _ _⟩
  | copyIn pBuff dwAmount b done hdone =>
      cases ho
      exact ⟨hdone, hpc.2⟩
  | copiedIn pBuff dwAmount b done hdone =>
      cases ho
      exact hpc.2
  | minBuffSize buffSize b hlt =>
      cases ho
      exact ⟨Nat.zero_le _, hlt.le.trans (hamount b)⟩
  | loadDwAmount buffSize b =>
      cases ho
      exact ⟨Nat.zero_le _, hamount b⟩
  | copyOut buffSize dwAmount b bytes hlen =>
      cases ho
      refine ⟨?_, hpc.2⟩
      rw [List.length_append, List.length_singleton]
      exact hlen
  | take k i => cases k <;> cases ho; trivial
  | timeoutWrite k | emptyReturn k | timeoutRead k => cases k <;> cases ho
  | leavePost k => cases k <;> cases ho; trivial
  | leaveReturn k => cases k <;> cases ho <;> trivial
  | increment | decrement => cases ho
  | _ => cases ho; trivial

/-- An access keeps every `Amount` within a block. -/
theorem CodeStep.amount_le (h : CodeStep blockSize wait w m pc m' o mk)
    (hamount : ∀ i, (m.blocks i).amount ≤ blockSize) (hpc : pc.Fits blockSize) (i : ℕ) :
    (m'.blocks i).amount ≤ blockSize := by
  cases h with
  | storeAmount pBuff dwAmount b =>
      rw [MemBuff.setBlock_blocks]
      split
      · exact hpc
      · exact hamount i
  | clearAmount k b =>
      rw [MemBuff.setBlock_blocks]
      split
      · exact Nat.zero_le _
      · exact hamount i
  | _ => first
    | exact hamount i
    | (refine (m.get_setBlock Block.amount ?_ i).trans_le (hamount i)
       exact fun _ => rfl)

/-- The thread that has taken a step fits into its caller's buffer: `std::min` has compared with
`buffSize` what it has not yet loaded. -/
theorem CodeStep.fitsBuffer (h : CodeStep blockSize wait w m pc m' o mk) (hpc : pc.FitsBuffer m)
    {pc' : Pc} (ho : o.pc = some pc') : pc'.FitsBuffer m' := by
  cases h with
  | minBuffSize buffSize b =>
      cases ho
      exact Nat.le_refl buffSize
  | minAmount buffSize b hle =>
      cases ho
      exact Nat.le_of_not_lt hle
  | loadDwAmount buffSize b =>
      cases ho
      exact hpc
  | copyOut buffSize dwAmount b bytes hlen =>
      cases ho
      exact hpc
  | claim k i | take k i => cases k <;> cases ho; trivial
  | timeoutWrite k | emptyReturn k | timeoutRead k => cases k <;> cases ho
  | leavePost k => cases k <;> cases ho; trivial
  | leaveReturn k => cases k <;> cases ho <;> trivial
  | increment | decrement => cases ho
  | _ => cases ho; trivial

/-- Another thread goes on fitting into its caller's buffer, unless the step stores a larger `Amount`
in the block it is about to load. -/
theorem CodeStep.fitsBuffer_other (h : CodeStep blockSize wait w m pc m' o mk) {pc' : Pc}
    (hpc' : pc'.FitsBuffer m)
    (hmin : ∀ pBuff dwAmount buffSize b, pc = .storeAmount pBuff dwAmount b →
      pc' = .loadDwAmount buffSize b → dwAmount ≤ buffSize) : pc'.FitsBuffer m' := by
  cases pc' with
  | loadDwAmount buffSize c =>
      change (m'.blocks c).amount ≤ buffSize
      cases h with
      | storeAmount pBuff dwAmount b =>
          rw [MemBuff.setBlock_blocks]
          split
          next hcb =>
            subst hcb
            exact hmin pBuff dwAmount buffSize c rfl rfl
          next => exact hpc'
      | clearAmount k b =>
          rw [MemBuff.setBlock_blocks]
          split
          · exact Nat.zero_le _
          · exact hpc'
      | _ => first
        | exact hpc'
        | (refine (m.get_setBlock Block.amount ?_ c).trans_le hpc'
           exact fun _ => rfl)
  | _ => exact hpc'

end Code

/-! ## What lies outside -/

/-- The block with other bytes behind its `Data`. -/
def Block.before (blockSize : ℕ) (blk behind : Block) : Block :=
  { blk with data := fun k => if k < blockSize then blk.data k else behind.data k }

/-- The buffer of `N` blocks among other contents of the memory. -/
def MemBuff.among (N blockSize : ℕ) (outside : ℕ → Block) (m : MemBuff) : MemBuff :=
  { m with
    blocks := fun i => if i < N then (m.blocks i).before blockSize (outside i) else outside i }

section Outside

variable {N blockSize : ℕ} {outside : ℕ → Block} {m : MemBuff} {b i : ℕ}

theorem MemBuff.among_blocks (hi : i < N) :
    (m.among N blockSize outside).blocks i = (m.blocks i).before blockSize (outside i) :=
  if_pos hi

theorem MemBuff.among_setBlock (hb : b < N) {f : Block → Block}
    (hf : ∀ blk behind : Block, f (blk.before blockSize behind) = (f blk).before blockSize behind) :
    (m.among N blockSize outside).setBlock b f = (m.setBlock b f).among N blockSize outside := by
  unfold MemBuff.among MemBuff.setBlock
  congr 1
  funext i
  by_cases hi : i = b
  · subst hi
    simp only [update_self, if_pos hb, hf]
  · simp only [update_of_ne hi]

theorem Block.before_contents {behind blk : Block} (h : blk.amount ≤ blockSize) :
    (blk.before blockSize behind).contents = blk.contents := by
  refine List.map_congr_left fun k hk => ?_
  have hk' : k < blk.amount := List.mem_range.mp hk
  exact if_pos (hk'.trans_le h)

/-- A store into `Data` leaves the bytes behind it alone. -/
theorem Block.before_store {k : ℕ} (hk : k < blockSize) (byte : UInt8) (blk behind : Block) :
    { blk.before blockSize behind with
        data := update (blk.before blockSize behind).data k byte } =
      ({ blk with data := update blk.data k byte } : Block).before blockSize behind := by
  simp only [Block.before, Block.mk.injEq, true_and]
  funext j
  by_cases hj : j = k
  · subst hj
    simp only [update_self, if_pos hk]
  · simp only [update_of_ne hj]

/-- **An access stays inside the segment**: what lies behind the last block, and behind the `Data` of
each block, is neither read nor written. -/
theorem CodeStep.among {wait : WaitStep} {w : WaitEnd} {m' : MemBuff} {pc : Pc} {o : Out Pc Ret}
    {mk : Option Mark} (h : CodeStep blockSize wait w m pc m' o mk) (hpc : pc.Safe N blockSize)
    (hamount : ∀ i, (m.blocks i).amount ≤ blockSize) (outside : ℕ → Block) :
    CodeStep blockSize wait w (m.among N blockSize outside) pc (m'.among N blockSize outside) o mk := by
  have hb : ∀ i, pc.index = some i →
      (m.among N blockSize outside).blocks i = (m.blocks i).before blockSize (outside i) :=
    fun i hi => MemBuff.among_blocks (hpc.index i hi)
  cases h with
  -- guards that look at a block
  | full k i h => exact .full k i (by rw [hb i rfl]; exact h)
  | room k i h => exact .room k i (by rw [hb i rfl]; exact h)
  | leavePost k i h => exact .leavePost k i (by rw [hb i rfl]; exact h)
  | skip buffSize ms b h => exact .skip buffSize ms b (by rw [hb b rfl]; exact h)
  | loadAmount buffSize ms b h => exact .loadAmount buffSize ms b (by rw [hb b rfl]; exact h)
  | minBuffSize buffSize b h => exact .minBuffSize buffSize b (by rw [hb b rfl]; exact h)
  | minAmount buffSize b h => exact .minAmount buffSize b (by rw [hb b rfl]; exact h)
  | leaveReturn k i h => exact .leaveReturn k i (by rw [hb i rfl]; exact h)
  | testWriteStart k i h => exact .testWriteStart k i (by rw [hb i rfl]; exact h)
  | testWriteStartNe k i h => exact .testWriteStartNe k i (by rw [hb i rfl]; exact h)
  -- loads from a block
  | claim k i h =>
      have hstep : CodeStep blockSize wait w (m.among N blockSize outside) _ _ _ _ :=
        .claim k i h
      rw [hb i rfl] at hstep
      exact hstep
  | publish k i h =>
      have hstep : CodeStep blockSize wait w (m.among N blockSize outside) _ _ _ _ :=
        .publish k i h
      rw [hb i rfl, Block.before_contents (hamount i)] at hstep
      exact hstep
  | take k i h =>
      have hstep : CodeStep blockSize wait w (m.among N blockSize outside) _ _ _ _ :=
        .take k i h
      rw [hb i rfl, Block.before_contents (hamount i)] at hstep
      exact hstep
  | retire k i h =>
      have hstep : CodeStep blockSize wait w (m.among N blockSize outside) _ _ _ _ :=
        .retire k i h
      rw [hb i rfl] at hstep
      exact hstep
  | loadDwAmount buffSize b =>
      have hstep : CodeStep blockSize wait w (m.among N blockSize outside) _ _ _ _ :=
        .loadDwAmount buffSize b
      rw [hb b rfl] at hstep
      exact hstep
  | copyOut buffSize dwAmount b bytes h =>
      have hlen : bytes.length < blockSize := h.trans_le hpc.fits.2
      have hstep : CodeStep blockSize wait w (m.among N blockSize outside) _ _ _ _ :=
        .copyOut buffSize dwAmount b bytes h
      rw [hb b rfl, show ((m.blocks b).before blockSize (outside b)).data bytes.length =
        (m.blocks b).data bytes.length from if_pos hlen] at hstep
      exact hstep
  -- stores into a block
  | copyIn pBuff dwAmount b done h =>
      rw [← MemBuff.among_setBlock (hpc.index b rfl)]
      · exact .copyIn pBuff dwAmount b done h
      · exact fun blk behind => Block.before_store (h.trans_le hpc.fits.2) _ blk behind
  | storeAmount pBuff dwAmount b =>
      rw [← MemBuff.among_setBlock (hpc.index b rfl)]
      · exact .storeAmount pBuff dwAmount b
      · exact fun _ _ => rfl
  | setDoneWrite k b =>
      rw [← MemBuff.among_setBlock (hpc.index b rfl)]
      · exact .setDoneWrite k b
      · exact fun _ _ => rfl
  | takeDoneWrite k i h =>
      rw [← MemBuff.among_setBlock (hpc.index i rfl)]
      · exact .takeDoneWrite k i (by rw [hb i rfl]; exact h)
      · exact fun _ _ => rfl
  | setDoneRead k b =>
      rw [← MemBuff.among_setBlock (hpc.index b rfl)]
      · exact .setDoneRead k b
      · exact fun _ _ => rfl
  | clearAmount k b =>
      rw [← MemBuff.among_setBlock (hpc.index b rfl)]
      · exact .clearAmount k b
      · exact fun _ _ => rfl
  | takeDoneRead k i h =>
      rw [← MemBuff.among_setBlock (hpc.index i rfl)]
      · exact .takeDoneRead k i (by rw [hb i rfl]; exact h)
      · exact fun _ _ => rfl
  | _ => constructor <;> assumption

end Outside

/-! ## Runs -/

/-- A block held for writing was held before or has just been claimed. -/
theorem Mark.mem_holdWrite {mk : Option Mark} {held : List ℕ} {b : ℕ} (h : b ∈ Mark.holdWrite mk held) :
    mk = some (.claim b) ∨ b ∈ held := by
  unfold Mark.holdWrite at h
  split at h
  · rcases List.mem_cons.mp h with rfl | h
    · exact .inl rfl
    · exact .inr h
  · exact .inr (List.mem_of_mem_erase h)
  · exact .inr h

/-- A block held for reading was held before or has just been taken. -/
theorem Mark.mem_holdRead {mk : Option Mark} {held : List ℕ} {b : ℕ} (h : b ∈ Mark.holdRead mk held) :
    (∃ msg, mk = some (.take b msg)) ∨ b ∈ held := by
  unfold Mark.holdRead at h
  split at h
  · rcases List.mem_cons.mp h with rfl | h
    · exact .inl ⟨_, rfl⟩
    · exact .inr h
  · exact .inr (List.mem_of_mem_erase h)
  · exact .inr h

/-- A thread is safe where it is, and the blocks it may go on to give back are blocks of the ring. -/
structure Local.Safe (N blockSize : ℕ) (l : Local) : Prop where
  pc : ∀ pc, l.pc = some pc → pc.Safe N blockSize
  heldWrite : ∀ b ∈ l.heldWrite, b < N
  heldRead : ∀ b ∈ l.heldRead, b < N

/-- The messages `write` has stored and those `read` has copied out fit into a block. -/
structure Copied (blockSize : ℕ) (hist : List Mark) : Prop where
  written : ∀ msg ∈ written hist, msg.length ≤ blockSize
  delivered : ∀ r ∈ delivered hist, r.2.length ≤ blockSize

section Threads

variable {N blockSize : ℕ} {wait : WaitStep} {w : WaitEnd} {m m' : MemBuff} {pc : Pc}
  {o : Out Pc Ret} {mk : Option Mark} {l : Local}

/-- The block handed out by a CAS is the one the thread has in hand. -/
theorem CodeStep.index_of_claim (h : CodeStep blockSize wait w m pc m' o mk) {b : ℕ}
    (hmk : mk = some (.claim b)) : pc.index = some b := by
  cases h with
  | claim k i => cases hmk; rfl
  | _ => cases hmk

theorem CodeStep.index_of_take (h : CodeStep blockSize wait w m pc m' o mk) {b : ℕ} {msg : List UInt8}
    (hmk : mk = some (.take b msg)) : pc.index = some b := by
  cases h with
  | take k i => cases hmk; rfl
  | _ => cases hmk

theorem Local.Safe.call (h : l.Safe N blockSize) {c : Call} (hlegal : c.legal l = true) :
    Local.Safe N blockSize { l with pc := some c.enter } := by
  refine ⟨?_, h.heldWrite, h.heldRead⟩
  rintro _ ⟨⟩
  cases c with
  | postBlock b =>
      refine ⟨?_, trivial⟩
      rintro _ ⟨⟩
      exact h.heldWrite b (of_decide_eq_true hlegal)
  | returnBlock b =>
      refine ⟨?_, trivial⟩
      rintro _ ⟨⟩
      exact h.heldRead b (of_decide_eq_true hlegal)
  | _ =>
      refine ⟨?_, trivial⟩
      rintro _ ⟨⟩

theorem Local.Safe.after (h : l.Safe N blockSize) (hpc : l.pc = some pc)
    (hcode : CodeStep blockSize wait w m pc m' o mk) (hcur : CursorsBelow N m)
    (hamount : ∀ i, (m.blocks i).amount ≤ blockSize) : (l.after o mk).Safe N blockSize := by
  have hsafe := h.pc pc hpc
  refine ⟨fun pc' ho => ⟨fun i => hcode.index_lt hcur hsafe.index ho, hcode.fits hamount hsafe.fits ho⟩,
    fun b hb => ?_, fun b hb => ?_⟩
  · rcases Mark.mem_holdWrite hb with hmk | hb
    · exact hsafe.index b (hcode.index_of_claim hmk)
    · exact h.heldWrite b hb
  · rcases Mark.mem_holdRead hb with ⟨msg, hmk⟩ | hb
    · exact hsafe.index b (hcode.index_of_take hmk)
    · exact h.heldRead b hb

theorem Copied.after {hist : List Mark} (h : Copied blockSize hist)
    (hcode : CodeStep blockSize wait w m pc m' o mk) (hfits : pc.Fits blockSize) :
    Copied blockSize (mk.toList ++ hist) := by
  cases hcode with
  | storeAmount pBuff dwAmount b =>
      refine ⟨fun msg hmsg => ?_, h.delivered⟩
      rcases List.mem_append.mp hmsg with hmsg | hmsg
      · exact h.written msg hmsg
      · rw [List.mem_singleton.mp hmsg, List.length_map, List.length_range]
        exact hfits
  | copiedOut buffSize dwAmount b bytes =>
      refine ⟨h.written, fun r hr => ?_⟩
      rcases List.mem_append.mp hr with hr | hr
      · exact h.delivered r hr
      · rw [List.mem_singleton.mp hr]
        exact hfits.1.trans hfits.2
  | _ => exact ⟨h.written, h.delivered⟩

end Threads

/-- Every thread is safe, every `Amount` and every finished copy fits into a block. -/
structure Bounded (cfg : Config ι) (s : State ι) : Prop where
  threads : ∀ t, (s.threads t).Safe cfg.blockCount cfg.blockSize
  amount : ∀ i, (s.mem.blocks i).amount ≤ cfg.blockSize
  copied : Copied cfg.blockSize s.hist

theorem bounded_start {cfg : Config ι} (hN : 2 ≤ cfg.blockCount) : Bounded cfg (start cfg) where
  threads _ := ⟨by simp [start], by simp [start], by simp [start]⟩
  amount i := (create_block hN i).2.2 ▸ Nat.zero_le _
  copied := ⟨by simp [start, written], by simp [start, delivered]⟩

theorem Bounded.step [DecidableEq ι] {cfg : Config ι} {s s' : State ι} {a : ι × Choice}
    (h : Bounded cfg s) (hcur : CursorsBelow cfg.blockCount s.mem) (hs : step cfg s a = some s') :
    Bounded cfg s' := by
  obtain ⟨t, ch⟩ := a
  rcases step_cases hs with ⟨c, -, -, -, hlegal, rfl⟩ | ⟨w, pc, m', o, mk, -, hpc, hcode, rfl⟩
  · refine ⟨fun u => ?_, h.amount, h.copied⟩
    simp only [update_apply]
    split
    · exact (h.threads t).call hlegal
    · exact h.threads u
  · have hfits := ((h.threads t).pc pc hpc).fits
    refine ⟨fun u => ?_, hcode.amount_le h.amount hfits, h.copied.after hcode hfits⟩
    simp only [update_apply]
    split
    · exact (h.threads t).after hpc hcode hcur h.amount
    · exact h.threads u

theorem bounded_of_reached [DecidableEq ι] {cfg : Config ι} (hN : 2 ≤ cfg.blockCount) {s : State ι}
    (h : Reached cfg anyStep s) : Bounded cfg s :=
  h.invariant (bounded_start hN) fun _ _ _ hreach hi _ hs =>
    hi.step ((cursors_of_reached hN hreach).below (Nat.zero_lt_of_lt hN)) hs

/-- **No access leaves the segment**, in any run of any threads. Every thread is safe where it is, its
next access is the same whatever lies behind the blocks and behind their `Data`, and no copy is longer
than a block. -/
theorem segment_in_bounds [DecidableEq ι] {cfg : Config ι} (hN : 2 ≤ cfg.blockCount) {s : State ι}
    (h : Reached cfg anyStep s) :
    CursorsBelow cfg.blockCount s.mem ∧
    (∀ i < cfg.blockCount, (s.mem.blocks i).next = ((create cfg.blockCount).blocks i).next ∧
      (s.mem.blocks i).prev = ((create cfg.blockCount).blocks i).prev) ∧
    (∀ i, (s.mem.blocks i).amount ≤ cfg.blockSize) ∧
    (∀ t pc, (s.threads t).pc = some pc → pc.Safe cfg.blockCount cfg.blockSize ∧
      ∀ w m' o mk outside, codeStep cfg.blockSize cfg.wait w s.mem pc = some (m', o, mk) →
        codeStep cfg.blockSize cfg.wait w (s.mem.among cfg.blockCount cfg.blockSize outside) pc =
          some (m'.among cfg.blockCount cfg.blockSize outside, o, mk)) ∧
    (∀ msg ∈ written s.hist, msg.length ≤ cfg.blockSize) ∧
    ∀ r ∈ delivered s.hist, r.2.length ≤ cfg.blockSize := by
  have hcur := cursors_of_reached hN h
  have hb := bounded_of_reached hN h
  have hlinks := create_linked hN
  refine ⟨hcur.below (Nat.zero_lt_of_lt hN), fun i hi => ?_, hb.amount, fun t pc hpc => ?_,
    hb.copied.written, hb.copied.delivered⟩
  · exact ⟨(hcur.links.next i hi).trans (hlinks.next i hi).symm,
      (hcur.links.prev i hi).trans (hlinks.prev i hi).symm⟩
  · have hsafe := (hb.threads t).pc pc hpc
    refine ⟨hsafe, fun w m' o mk outside hcode => ?_⟩
    exact ((codeStep_inv hcode).among hsafe hb.amount outside).eq

/-! ## The caller's buffer -/

/-- The buffer size and the block of a `read` between the two loads of `std::min`. -/
def Local.comparing (l : Local) : Option (ℕ × ℕ) :=
  match l.pc with
  | some (.loadDwAmount buffSize b) => some (buffSize, b)
  | _ => none

/-- The `Amount` a `write` is about to store, and the block. -/
def Local.storing (l : Local) : Option (ℕ × ℕ) :=
  match l.pc with
  | some (.storeAmount _ dwAmount b) => some (dwAmount, b)
  | _ => none

/-- No `write` stores in a block an `Amount` above the buffer size of a `read` that is between the two
loads of `std::min` on that block. -/
def MinStands (s : State ι) (a : ι × Choice) : Prop :=
  ∀ w ∈ (s.threads a.1).storing, ∀ u, ∀ r ∈ (s.threads u).comparing, r.2 = w.2 → w.1 ≤ r.1

instance [Fintype ι] (s : State ι) (a : ι × Choice) : Decidable (MinStands s a) :=
  inferInstanceAs (Decidable (∀ w ∈ (s.threads a.1).storing, ∀ u, ∀ r ∈ (s.threads u).comparing,
    r.2 = w.2 → w.1 ≤ r.1))

/-- Copies out stay within the callers' buffers. -/
structure Buffered (s : State ι) : Prop where
  threads : ∀ t pc, (s.threads t).pc = some pc → pc.FitsBuffer s.mem
  delivered : ∀ r ∈ delivered s.hist, r.2.length ≤ r.1

theorem CodeStep.delivered_le {blockSize : ℕ} {wait : WaitStep} {w : WaitEnd} {m m' : MemBuff} {pc : Pc}
    {o : Out Pc Ret} {mk : Option Mark} (h : CodeStep blockSize wait w m pc m' o mk)
    (hfits : pc.Fits blockSize) (hpc : pc.FitsBuffer m) {hist : List Mark}
    (hhist : ∀ r ∈ delivered hist, r.2.length ≤ r.1) :
    ∀ r ∈ delivered (mk.toList ++ hist), r.2.length ≤ r.1 := by
  cases h with
  | copiedOut buffSize dwAmount b bytes =>
      intro r hr
      rcases List.mem_append.mp hr with hr | hr
      · exact hhist r hr
      · rw [List.mem_singleton.mp hr]
        exact hfits.1.trans hpc
  | _ => exact hhist

theorem Buffered.step [DecidableEq ι] {cfg : Config ι} {s s' : State ι} {a : ι × Choice}
    (h : Buffered s) (hb : Bounded cfg s) (hmin : MinStands s a) (hs : step cfg s a = some s') :
    Buffered s' := by
  obtain ⟨t, ch⟩ := a
  rcases step_cases hs with ⟨c, -, -, -, -, rfl⟩ | ⟨w, pc, m', o, mk, -, hpc, hcode, rfl⟩
  · refine ⟨forall_pc_update (fun u pc _ => h.threads u pc) fun pc hpc => ?_, h.delivered⟩
    obtain rfl := Option.some.inj hpc
    cases c <;> trivial
  · have hbuffer := h.threads t pc hpc
    refine ⟨forall_pc_update (fun u pc' _ hpc' => ?_) fun pc' => hcode.fitsBuffer hbuffer,
      hcode.delivered_le ((hb.threads t).pc pc hpc).fits hbuffer h.delivered⟩
    refine hcode.fitsBuffer_other (h.threads u pc' hpc') fun pBuff dwAmount buffSize b hstore hload => ?_
    refine hmin (dwAmount, b) ?_ u (buffSize, b) ?_ rfl
    · rw [Local.storing, hpc, hstore]
      rfl
    · rw [Local.comparing, hpc', hload]
      rfl

/-- **Every copy stays in bounds** in a run in which no `write` stores a larger `Amount` between the two
loads of `std::min`. The cursors are indices of the ring, the links are those `create` wrote, and every
`Amount` fits into a block. So every thread is safe where it is and its next access is the same whatever
lies behind the blocks and behind their `Data`; `write` has stored no more than `BLOCK_SIZE` bytes at a
time; a `read` copies no more than that and no more than its buffer holds. -/
theorem accesses_in_bounds [DecidableEq ι] {cfg : Config ι} (hN : 2 ≤ cfg.blockCount) {s : State ι}
    (h : Reached cfg MinStands s) :
    CursorsBelow cfg.blockCount s.mem ∧
    (∀ i < cfg.blockCount, (s.mem.blocks i).next = ((create cfg.blockCount).blocks i).next ∧
      (s.mem.blocks i).prev = ((create cfg.blockCount).blocks i).prev) ∧
    (∀ i, (s.mem.blocks i).amount ≤ cfg.blockSize) ∧
    (∀ t pc, (s.threads t).pc = some pc → pc.Safe cfg.blockCount cfg.blockSize ∧ pc.FitsBuffer s.mem ∧
      ∀ w m' o mk outside, codeStep cfg.blockSize cfg.wait w s.mem pc = some (m', o, mk) →
        codeStep cfg.blockSize cfg.wait w (s.mem.among cfg.blockCount cfg.blockSize outside) pc =
          some (m'.among cfg.blockCount cfg.blockSize outside, o, mk)) ∧
    (∀ msg ∈ written s.hist, msg.length ≤ cfg.blockSize) ∧
    ∀ r ∈ delivered s.hist, r.2.length ≤ min r.1 cfg.blockSize := by
  have hbuffered : Buffered s := by
    refine h.invariant ⟨by simp [start], by simp [start, delivered]⟩ fun _ _ _ hreach hi hok hs => ?_
    exact hi.step (bounded_of_reached hN (hreach.mono fun _ _ _ => trivial)) hok hs
  obtain ⟨hcur, hlinks, hamount, hthreads, hwrite, hread⟩ :=
    segment_in_bounds hN (h.mono fun _ _ _ => trivial)
  refine ⟨hcur, hlinks, hamount, fun t pc hpc => ?_, hwrite, fun r hr => ?_⟩
  · obtain ⟨hsafe, hnext⟩ := hthreads t pc hpc
    exact ⟨hsafe, hbuffered.threads t pc hpc, hnext⟩
  · exact le_min (hbuffered.delivered r hr) (hread r hr)

/-- Writer 1 tests block 0 for room in a ring of two blocks. Writer 0 and the reader take the ring once
round, with messages cut to four bytes and a buffer of two; then writer 1 claims block 0. -/
def wrapped : List (Fin 3 × Choice) :=
  during 1 (.write letters 6) 2 ++ during 0 (.write letters 6) 19 ++ during 2 (.read 2 1) 19 ++
  during 0 (.write letters 6) 19 ++ during 2 (.read 9 1) 22 ++ runs 1 4

theorem accesses_in_bounds_wrapped :
    ∃ s, Reached (streams 3 2 2 waitForEvent) MinStands s ∧ (s.threads 1).pc.bind Pc.index = some 0 ∧
      written s.hist = [[65, 66, 67, 68], [65, 66, 67, 68]] ∧
      delivered s.hist = [(2, [65, 66]), (9, [65, 66, 67, 68])] ∧ CursorsBelow 2 s.mem ∧
      (∀ msg ∈ written s.hist, msg.length ≤ 4) ∧
      ∀ r ∈ delivered s.hist, r.2.length ≤ min r.1 4 := by
  obtain ⟨s, hs, hindex, hwritten, hdelivered⟩ :
      ∃ s, Reached (streams 3 2 2 waitForEvent) MinStands s ∧
        (s.threads 1).pc.bind Pc.index = some 0 ∧
        written s.hist = [[65, 66, 67, 68], [65, 66, 67, 68]] ∧
        delivered s.hist = [(2, [65, 66]), (9, [65, 66, 67, 68])] :=
    Reach.exists_of_run wrapped (by decide +kernel)
  have hN : 2 ≤ (streams 3 2 2 waitForEvent).blockCount := by decide
  obtain ⟨hcur, -, -, -, hwrite, hread⟩ := accesses_in_bounds hN hs
  exact ⟨s, hs, hindex, hwritten, hdelivered, hcur, hwrite, hread⟩

/-- Writer 1 claims block 0 on a test made before writer 0 and the reader took the ring of two blocks
round, so that writer 0 finds room in block 1 while its message of one byte is unread there. It comes
as far as its store of `Amount`; the reader, with a buffer of one byte, takes the block and finds that
the old message fits. Writer 0 stores 4. -/
def lateAmount : List (Fin 3 × Choice) :=
  during 1 (.write letters 4) 2 ++ during 0 (.write letters 1) 16 ++ during 2 (.read 9 1) 19 ++
  during 0 (.write letters 1) 16 ++ runs 1 1 ++ during 0 (.write letters 4) 8 ++
  during 2 (.read 1 1) 5 ++ runs 0 1 ++ runs 2 6

/-- The reader copies four bytes into a buffer of one. -/
theorem buffer_overrun :
    ∃ s, Reached (streams 3 2 2 waitForEvent) anyStep s ∧
      ∃ r ∈ delivered s.hist, ¬r.2.length ≤ min r.1 4 := by
  obtain ⟨s, hs, hdelivered⟩ :
      ∃ s, Reached (streams 3 2 2 waitForEvent) anyStep s ∧
        delivered s.hist = [(9, [65]), (1, [65, 66, 67, 68])] :=
    Reach.exists_of_run lateAmount (by decide +kernel)
  exact ⟨s, hs, (1, [65, 66, 67, 68]), by simp [hdelivered], by decide⟩

end AtomicMessageQueue
