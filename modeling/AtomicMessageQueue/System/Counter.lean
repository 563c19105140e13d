import AtomicMessageQueue.Lib.Tally
import AtomicMessageQueue.Sequential.MessageCount
import AtomicMessageQueue.System.Streams
import Mathlib.Algebra.Order.BigOperators.Group.Finset

/-! # The message counter under interleaving

`write` counts its message after publishing it, and `read` counts it off after giving its block back.
Between the two, readers can take a message that no writer has counted. `Balance` says what the counter
is off by in every state: the writes and reads caught between their change of the ring and their change
of the counter. The counter stays above zero as long as a `read` does not count off while more
messages are uncounted than there are to read or being read.
-/

namespace AtomicMessageQueue

open Function Transition

/-! ## What the counter is off by -/

/-- How often `incrementCount` has run. -/
def increments : List Mark → ℕ
  | [] => 0
  | .increment _ :: h => increments h + 1
  | _ :: h => increments h

/-- How often `decrementCount` has run. -/
def decrements : List Mark → ℕ
  | [] => 0
  | .decrement :: h => decrements h + 1
  | _ :: h => decrements h

/-- The numbers of the claims that have been posted and not been taken, published or not. -/
def waitingTickets (h : List Mark) : Finset ℕ :=
  (Finset.range (claims h)).filter fun q => takes h ≤ q ∧ posted h q = true

/-- How many messages have been posted and not been taken. -/
def waiting (h : List Mark) : ℕ := (waitingTickets h).card

theorem mem_waitingTickets {h : List Mark} {q : ℕ} :
    q ∈ waitingTickets h ↔ q < claims h ∧ takes h ≤ q ∧ posted h q = true := by
  rw [waitingTickets, Finset.mem_filter, Finset.mem_range]

/-- A `write` that has posted its message and not counted it yet. -/
def uncounted : Option Pc → ℕ
  | some (.postBlock (.write _) (.set _)) => 0
  | some (.postBlock (.write _) _) => 1
  | some (.increment _) => 1
  | _ => 0

/-- A `read` that has taken a message and not counted it off yet. -/
def unfinished : Option Pc → ℕ
  | some (.loadAmount _ _ _) => 1
  | some (.loadMin _ _) => 1
  | some (.loadDwAmount _ _) => 1
  | some (.copyOut _ _ _ _) => 1
  | some (.returnBlock (.read _) _) => 1
  | some (.decrement _) => 1
  | _ => 0

@[simp] theorem uncounted_none : uncounted none = 0 := rfl

@[simp] theorem unfinished_none : unfinished none = 0 := rfl

variable {ι : Type*}

section Sums

variable [Fintype ι]

/-- The writes whose message has been posted and not been counted. -/
def State.uncounted (s : State ι) : ℕ := ∑ t, AtomicMessageQueue.uncounted (s.threads t).pc

/-- The reads whose message has been taken and not been counted off. -/
def State.unfinished (s : State ι) : ℕ := ∑ t, AtomicMessageQueue.unfinished (s.threads t).pc

theorem sum_pc_update [DecidableEq ι] (f : Option Pc → ℕ) (threads : ι → Local) (t : ι) (l : Local) :
    ∑ u, f (update threads t l u).pc + f (threads t).pc = ∑ u, f (threads u).pc + f l.pc := by
  have heq : (fun u => f (update threads t l u).pc) =
      update (fun u => f (threads u).pc) t (f l.pc) := by
    funext u
    exact apply_update (fun _ (l : Local) => f l.pc) threads t l u
  rw [heq]
  exact Tally.sum_update_add Finset.univ _ (Finset.mem_univ t) _

/-- The scheduled access is `decrementCount`. -/
def State.countsOff (s : State ι) : ι × Choice → Bool
  | (_, .call _) => false
  | (t, .run _) =>
      match (s.threads t).pc with
      | some (.decrement _) => true
      | _ => false

/-- When a `read` counts its message off, fewer messages are posted and uncounted than there are to
read or being read. -/
def CountsOffCounted (s : State ι) (a : ι × Choice) : Prop :=
  s.countsOff a = true → s.uncounted < waiting s.hist + s.unfinished

instance (s : State ι) (a : ι × Choice) : Decidable (CountsOffCounted s a) :=
  inferInstanceAs (Decidable (_ → _))

end Sums

/-! ## Threads that send no empty message -/

/-- Threads call nothing but `write` of at least one byte and `read`. -/
def Config.NonEmpty (cfg : Config ι) : Prop :=
  ∀ t c, cfg.calls t c = true → (∃ pBuff amount, c = .write pBuff amount ∧ 0 < amount) ∨
    ∃ buffSize ms, c = .read buffSize ms

theorem Config.NonEmpty.onlyStreams {cfg : Config ι} (h : cfg.NonEmpty) : cfg.OnlyStreams := by
  intro t c hc
  rcases h t c hc with ⟨pBuff, amount, rfl, -⟩ | ⟨buffSize, ms, rfl⟩
  · exact .inl ⟨pBuff, amount, rfl⟩
  · exact .inr ⟨buffSize, ms, rfl⟩

/-- A program point inside a `write` of at least one byte, or inside a `read`. -/
def Pc.Streams : Pc → Prop
  | .getBlockWrite k _ => ∃ pBuff amount, k = .write pBuff amount ∧ 0 < amount
  | .copyIn _ dwAmount _ _ => 0 < dwAmount
  | .storeAmount _ dwAmount _ => 0 < dwAmount
  | .postBlock k _ => k ≠ .holder
  | .getBlockRead k _ => ∃ buffSize ms, k = .read buffSize ms
  | .returnBlock k _ => k ≠ .holder
  | _ => True

section Code

variable {blockSize : ℕ} {wait : WaitStep} {w : WaitEnd} {m m' : MemBuff} {pc pc' : Pc}
  {o : Out Pc Ret} {mk : Option Mark}

theorem CodeStep.streams (hsize : 0 < blockSize) (h : CodeStep blockSize wait w m pc m' o mk)
    (hpc : pc.Streams) (ho : o.pc = some pc') : pc'.Streams := by
  cases h with
  | claim k i hi =>
      obtain ⟨pBuff, amount, rfl, hpos⟩ := hpc
      obtain rfl := Option.some.inj ho
      exact lt_min hpos hsize
  | storeAmount pBuff dwAmount b =>
      obtain rfl := Option.some.inj ho
      exact nofun
  | take k i hi =>
      obtain ⟨buffSize, ms, rfl⟩ := hpc
      obtain rfl := Option.some.inj ho
      trivial
  | timeoutWrite k => cases k <;> cases ho
  | leavePost k => cases k <;> cases ho; trivial
  | emptyReturn k => cases k <;> cases ho
  | timeoutRead k => cases k <;> cases ho
  | leaveReturn k =>
      cases k <;> cases ho
      · exact ⟨_, _, rfl⟩
      · trivial
  | skip => obtain rfl := Option.some.inj ho; exact nofun
  | copiedOut => obtain rfl := Option.some.inj ho; exact nofun
  | increment => cases ho
  | decrement => cases ho
  | _ =>
      obtain rfl := Option.some.inj ho
      exact hpc

end Code

/-! ## The messages waiting in the ring -/

section Waiting

variable {N : ℕ} {s : State ι} {t : ι}

/-- A claim that has just been made has not been posted. -/
theorem waiting_claim (hr : RingInv N s) (b : ℕ) : waiting (.claim b :: s.hist) = waiting s.hist := by
  refine congrArg Finset.card (Finset.ext fun q => ?_)
  simp only [mem_waitingTickets, claims, takes, posted]
  constructor
  · rintro ⟨-, hq, hpost⟩
    exact ⟨hr.claimed_of_posted hpost, hq, hpost⟩
  · rintro ⟨hlt, hq, hpost⟩
    exact ⟨hlt.trans (Nat.lt_succ_self _), hq, hpost⟩

/-- Posting a held block adds one message. -/
theorem waiting_post (hr : RingInv N s) {b : ℕ} (hb : b ∈ (s.threads t).heldWrite) :
    waiting (.setDoneWrite b :: s.hist) = waiting s.hist + 1 := by
  obtain ⟨p, hp, hp', -, hticket⟩ := hr.held_write hb
  have hopen : posted s.hist p ≠ true := hticket ▸ hr.write.held_open t b hb
  have hinsert : waitingTickets (.setDoneWrite b :: s.hist) = insert p (waitingTickets s.hist) := by
    ext q
    simp only [Finset.mem_insert, mem_waitingTickets, claims, takes, posted, hticket, Bool.or_eq_true,
      beq_iff_eq]
    constructor
    · rintro ⟨hq, hq', rfl | hpost⟩
      · exact .inl rfl
      · exact .inr ⟨hq, hq', hpost⟩
    · rintro (rfl | ⟨hq, hq', hpost⟩)
      · exact ⟨hp', hr.takes_le.trans hp, .inl rfl⟩
      · exact ⟨hq, hq', .inr hpost⟩
  rw [waiting, hinsert, Finset.card_insert_of_notMem fun h => hopen (mem_waitingTickets.mp h).2.2,
    waiting]

/-- A take removes one message. -/
theorem waiting_take (hr : RingInv N s) (hlt : takes s.hist < publishes s.hist) (b : ℕ)
    (msg : List UInt8) : waiting s.hist = waiting (.take b msg :: s.hist) + 1 := by
  have hposted := hr.posted_of_lt hlt
  have hinsert : waitingTickets s.hist =
      insert (takes s.hist) (waitingTickets (.take b msg :: s.hist)) := by
    ext q
    simp only [Finset.mem_insert, mem_waitingTickets, claims, takes, posted]
    constructor
    · rintro ⟨hq, hq', hpost⟩
      rcases hq'.eq_or_lt with rfl | hlt
      · exact .inl rfl
      · exact .inr ⟨hq, hlt, hpost⟩
    · rintro (rfl | ⟨hq, hq', hpost⟩)
      · exact ⟨hr.claimed_of_posted hposted, le_rfl, hposted⟩
      · exact ⟨hq, Nat.le_of_succ_le hq', hpost⟩
  have hnew : takes s.hist ∉ waitingTickets (.take b msg :: s.hist) := by
    intro h
    exact absurd (mem_waitingTickets.mp h).2.1 (Nat.not_succ_le_self _)
  rw [waiting, hinsert, Finset.card_insert_of_notMem hnew, waiting]

/-- Fewer messages wait than the ring has blocks. -/
theorem waiting_lt (hr : RingInv N s) : waiting s.hist < N := by
  have hsub : waitingTickets s.hist ⊆ Finset.Ico (takes s.hist) (claims s.hist) := by
    intro q hq
    obtain ⟨hq, hq', -⟩ := mem_waitingTickets.mp hq
    exact Finset.mem_Ico.mpr ⟨hq', hq⟩
  have hcard := Finset.card_le_card hsub
  rw [Nat.card_Ico] at hcard
  have := hr.room
  have := hr.retires_le
  have := hr.takes_le
  have := hr.publishes_le
  rw [waiting]
  omega

end Waiting

/-! ## The balance -/

/-- No block with a message is empty, and the counter is off by exactly the writes and reads that have
changed the ring and not yet the counter. -/
structure Balance [Fintype ι] (s : State ι) : Prop where
  streams : ∀ t pc, (s.threads t).pc = some pc → pc.Streams
  full : ∀ b, loaded s.hist b = true → (s.mem.blocks b).amount ≠ 0
  count : s.mem.msgCount = UInt32.ofNat (increments s.hist) - UInt32.ofNat (decrements s.hist)
  balance : increments s.hist + s.uncounted = decrements s.hist + waiting s.hist + s.unfinished

section Steps

variable {N blockSize : ℕ} {wait : WaitStep} {w : WaitEnd} {s : State ι} {t : ι} {m' : MemBuff}
  {pc : Pc} {o : Out Pc Ret} {mk : Option Mark}

/-- No access that clears in time empties a block that holds a message. -/
theorem full_step (hfull : ∀ b, loaded s.hist b = true → (s.mem.blocks b).amount ≠ 0)
    (hclear : ClearInTime s (t, .run w)) (hpc : (s.threads t).pc = some pc) (hstreams : pc.Streams)
    (hcode : CodeStep blockSize wait w s.mem pc m' o mk) {i : ℕ}
    (hi : loaded (mk.toList ++ s.hist) i = true) : (m'.blocks i).amount ≠ 0 := by
  cases hcode with
  | storeAmount pBuff dwAmount b =>
      by_cases hib : i = b
      · subst hib
        simp only [MemBuff.setBlock, update_self]
        exact Nat.pos_iff_ne_zero.mp hstreams
      · simp only [MemBuff.setBlock, update_of_ne hib]
        refine hfull i (Eq.trans ?_ hi)
        exact (if_neg hib).symm
  | clearAmount k b =>
      have hib : i ≠ b := by
        rintro rfl
        exact hfull i hi (hclear i (clears_of_pc hpc) hi)
      simp only [MemBuff.setBlock, update_of_ne hib]
      exact hfull i hi
  | setDoneRead k b =>
      refine (s.mem.get_setBlock Block.amount ?_ i).symm ▸ hfull i ?_
      · exact fun _ => rfl
      · by_cases hib : i = b
        · simp only [Option.toList, List.cons_append, loaded, if_pos hib] at hi
          cases hi
        · exact Eq.trans (if_neg hib).symm hi
  | _ => first
    | exact hfull i hi
    | (refine (s.mem.get_setBlock Block.amount ?_ i).symm ▸ hfull i hi
       exact fun _ => rfl)

/-- **What an access does to the balance.** A `write` that posts adds a message and becomes uncounted,
a take turns a message into an unfinished read, and the counter changes settle them. -/
theorem account_step (hr : RingInv N s) (htake : FreshTake s (t, .run w))
    (hskip : ∀ b, pc.reading = some b → (s.mem.blocks b).amount ≠ 0)
    (hpc : (s.threads t).pc = some pc) (hstreams : pc.Streams)
    (hcode : CodeStep blockSize wait w s.mem pc m' o mk) :
    increments (mk.toList ++ s.hist) + uncounted o.pc +
        (decrements s.hist + waiting s.hist + unfinished (some pc)) =
      increments s.hist + uncounted (some pc) +
        (decrements (mk.toList ++ s.hist) + waiting (mk.toList ++ s.hist) + unfinished o.pc) := by
  cases hcode with
  | claim k i hi =>
      obtain ⟨pBuff, amount, rfl, -⟩ := hstreams
      show increments s.hist + 0 + (decrements s.hist + waiting s.hist + 0) = increments s.hist + 0 +
        (decrements s.hist + waiting (.claim i :: s.hist) + 0)
      rw [waiting_claim hr]
  | setDoneWrite k b =>
      cases k with
      | holder => exact absurd rfl hstreams
      | write dwAmount =>
          have hpost := waiting_post hr ((hr.wf t).writing b (by rw [hpc]; rfl))
          show increments s.hist + 1 + (decrements s.hist + waiting s.hist + 0) =
            increments s.hist + 0 + (decrements s.hist + waiting (.setDoneWrite b :: s.hist) + 0)
          omega
  | take k i hi =>
      obtain ⟨buffSize, ms, rfl⟩ := hstreams
      have htaken := waiting_take hr (hr.message_of_fresh htake (takes_of_pc hpc hi)) i
        (s.mem.blocks i).contents
      show increments s.hist + 0 + (decrements s.hist + waiting s.hist + 0) = increments s.hist + 0 +
        (decrements s.hist + waiting (.take i (s.mem.blocks i).contents :: s.hist) + 1)
      omega
  | skip buffSize ms b hzero => exact absurd hzero (hskip b rfl)
  | increment dwAmount =>
      show increments s.hist + 1 + 0 + (decrements s.hist + waiting s.hist + 0) =
        increments s.hist + 1 + (decrements s.hist + waiting s.hist + 0)
      rfl
  | decrement bytes =>
      show increments s.hist + 0 + (decrements s.hist + waiting s.hist + 1) =
        increments s.hist + 0 + (decrements s.hist + 1 + waiting s.hist + 0)
      omega
  | _ =>
      -- the other accesses keep both sides, whoever the caller is
      first
        | rfl
        | (cases ‹WriteCaller› <;> rfl)
        | (cases ‹PostCaller› <;> rfl)
        | (cases ‹ReadCaller› <;> rfl)
        | (cases ‹ReturnCaller› <;> rfl)

/-- Only the two counter changes touch `m_msgCount`. -/
theorem count_step (hcode : CodeStep blockSize wait w s.mem pc m' o mk)
    (hcount : s.mem.msgCount = UInt32.ofNat (increments s.hist) - UInt32.ofNat (decrements s.hist)) :
    m'.msgCount = UInt32.ofNat (increments (mk.toList ++ s.hist)) -
      UInt32.ofNat (decrements (mk.toList ++ s.hist)) := by
  cases hcode with
  | increment dwAmount =>
      show s.mem.msgCount + 1 = UInt32.ofNat (increments s.hist + 1) - UInt32.ofNat (decrements s.hist)
      rw [hcount, UInt32.ofNat_add]
      grind
  | decrement bytes =>
      show s.mem.msgCount - 1 = UInt32.ofNat (increments s.hist) - UInt32.ofNat (decrements s.hist + 1)
      rw [hcount, UInt32.ofNat_add]
      grind
  | _ => exact hcount

end Steps

section Run

variable [Fintype ι] {cfg : Config ι}

theorem balance_start (hN : 2 ≤ cfg.blockCount) : Balance (start cfg) where
  streams := nofun
  full := nofun
  count := by
    show (create cfg.blockCount).msgCount = _
    rw [create_eq hN]
    exact (UInt32.sub_self 0).symm
  balance := by
    simp only [State.uncounted, State.unfinished, start, uncounted, unfinished, Finset.sum_const_zero]
    rfl

variable [DecidableEq ι] {s s' : State ι} {a : ι × Choice}

/-- **Step lemma of the counter.** -/
theorem Balance.step (h : Balance s) (hcalls : cfg.NonEmpty) (hsize : 0 < cfg.blockSize)
    (hr : RingInv cfg.blockCount s) (hi : Intact cfg.blockCount s) (htake : FreshTake s a)
    (hclear : ClearInTime s a) (hs : step cfg s a = some s') : Balance s' := by
  obtain ⟨t, ch⟩ := a
  rcases step_cases hs with ⟨c, rfl, hpc, hcall, -, rfl⟩ | ⟨w, pc, m', o, mk, rfl, hpc, hcode, rfl⟩
  · refine ⟨forall_pc_update (fun u pc _ => h.streams u pc) fun pc hpc' => ?_, h.full, h.count, ?_⟩
    · obtain rfl := Option.some.inj hpc'
      rcases hcalls t c hcall with ⟨pBuff, amount, rfl, hpos⟩ | ⟨buffSize, ms, rfl⟩
      · exact ⟨pBuff, amount, rfl, hpos⟩
      · exact ⟨buffSize, ms, rfl⟩
    · have huncounted := sum_pc_update uncounted s.threads t
        { s.threads t with pc := some c.enter }
      have hunfinished := sum_pc_update unfinished s.threads t
        { s.threads t with pc := some c.enter }
      have hstart : uncounted (some c.enter) = 0 ∧ unfinished (some c.enter) = 0 := by
        rcases hcalls t c hcall with ⟨_, _, rfl, -⟩ | ⟨_, _, rfl⟩ <;> exact ⟨rfl, rfl⟩
      rw [hpc] at huncounted hunfinished
      have hbalance := h.balance
      simp only [State.uncounted, State.unfinished] at hbalance ⊢
      simp only [hstart.1, hstart.2, uncounted_none, unfinished_none] at huncounted hunfinished
      omega
  · have hstreams := h.streams t pc hpc
    refine ⟨forall_pc_update (fun u pc _ => h.streams u pc)
      fun pc' ho => hcode.streams hsize hstreams ho,
      fun i hi' => full_step h.full hclear hpc hstreams hcode hi', count_step hcode h.count, ?_⟩
    · -- a block that is being read holds a message, so no read skips it
      have hskip : ∀ b, pc.reading = some b → (s.mem.blocks b).amount ≠ 0 := by
        intro b hb
        have hheld : b ∈ (s.threads t).heldRead := (hr.wf t).reading b (by rw [hpc]; exact hb)
        exact h.full b (hi.stored.of_held hr hheld).1
      have haccount := account_step hr htake hskip hpc hstreams hcode
      have huncounted := sum_pc_update uncounted s.threads t ((s.threads t).after o mk)
      have hunfinished := sum_pc_update unfinished s.threads t ((s.threads t).after o mk)
      rw [hpc, show ((s.threads t).after o mk).pc = o.pc from rfl] at huncounted hunfinished
      have hbalance := h.balance
      simp only [State.uncounted, State.unfinished] at hbalance ⊢
      omega

/-- **Run lemma of the counter.** -/
theorem balance_of_reached (hN : 2 ≤ cfg.blockCount) (hcalls : cfg.NonEmpty) (hsize : 0 < cfg.blockSize)
    (h : Reached cfg (fun s a => Fresh s a ∧ ClearInTime s a) s) : Balance s :=
  h.invariant (balance_start hN) fun _ _ _ hreach hi hok hs =>
    hi.step hcalls hsize (ringInv_of_reached hN (hreach.mono fun _ _ h => h.1))
      (intact_of_reached hN hcalls.onlyStreams hreach) hok.1.2 hok.2 hs

omit [DecidableEq ι] in
/-- At most one read of each thread is unfinished. -/
theorem State.unfinished_le (s : State ι) : s.unfinished ≤ Fintype.card ι := by
  rw [State.unfinished, Fintype.card, Finset.card_eq_sum_ones]
  refine Finset.sum_le_sum fun t _ => ?_
  unfold AtomicMessageQueue.unfinished
  split <;> decide

/-- **A `read` counts off only what has been counted**, in a run in which each does so while fewer
messages are uncounted than there are to read or being read. -/
theorem decrements_le (hN : 2 ≤ cfg.blockCount) (hcalls : cfg.NonEmpty) (hsize : 0 < cfg.blockSize)
    (h : Reached cfg (fun s a => (Fresh s a ∧ ClearInTime s a) ∧ CountsOffCounted s a) s) :
    decrements s.hist ≤ increments s.hist := by
  refine h.invariant (I := fun s => decrements s.hist ≤ increments s.hist) le_rfl
    fun s a s' hreach ih hok hs => ?_
  have hbalance := (balance_of_reached hN hcalls hsize (hreach.mono fun _ _ h => h.1)).balance
  obtain ⟨t, ch⟩ := a
  rcases step_cases hs with ⟨c, -, -, -, -, rfl⟩ | ⟨w, pc, m', o, mk, rfl, hpc, hcode, rfl⟩
  · exact ih
  · cases hcode with
    | decrement bytes =>
        have hcounted := hok.2 (by simp only [State.countsOff, hpc])
        show decrements s.hist + 1 ≤ increments s.hist
        omega
    | increment dwAmount => exact Nat.le_succ_of_le ih
    | _ => exact ih

/-- A `read` that counts off too early takes the counter below the number of counted messages. -/
theorem lt_decrements_of_early (hN : 2 ≤ cfg.blockCount) (hcalls : cfg.NonEmpty)
    (hsize : 0 < cfg.blockSize) (h : Reached cfg (fun s a => Fresh s a ∧ ClearInTime s a) s)
    (hearly : ¬ CountsOffCounted s a) (hs : step cfg s a = some s') :
    increments s'.hist < decrements s'.hist := by
  have hbalance := (balance_of_reached hN hcalls hsize h).balance
  simp only [CountsOffCounted, Classical.not_imp, not_lt] at hearly
  obtain ⟨hoff, hle⟩ := hearly
  obtain ⟨t, ch⟩ := a
  rcases step_cases hs with ⟨c, rfl, -, -, -, rfl⟩ | ⟨w, pc, m', o, mk, rfl, hpc, hcode, rfl⟩
  · cases hoff
  · simp only [State.countsOff, hpc] at hoff
    cases hcode with
    | decrement bytes =>
        show increments s.hist < decrements s.hist + 1
        omega
    | _ => cases hoff

/-- **The counter does not wrap**, in a run whose CASes act on tests that still hold, whose readers clear
`Amount` in time, and in which each `read` counts off while fewer messages are posted and uncounted
than there are to read or being read. The messages counted and not counted off are fewer than blocks
and threads together; if these are at most `2 ^ 31`, the counter holds their number, and so does what
`getMessageCount` returns. -/
theorem msgCount_not_wrapped (hN : 2 ≤ cfg.blockCount) (hcalls : cfg.NonEmpty)
    (hsize : 0 < cfg.blockSize)
    (h : Reached cfg (fun s a => (Fresh s a ∧ ClearInTime s a) ∧ CountsOffCounted s a) s) :
    decrements s.hist ≤ increments s.hist ∧
      increments s.hist < decrements s.hist + (cfg.blockCount + Fintype.card ι) ∧
      (cfg.blockCount + Fintype.card ι ≤ 2 ^ 31 →
        s.mem.msgCount.toNat = increments s.hist - decrements s.hist ∧
        ∀ timeout, MessageQueue.getMessageCount ⟨true, timeout, s.mem⟩ = s.mem.msgCount.toNat) := by
  have hle := decrements_le hN hcalls hsize h
  have hreach := h.mono fun _ _ h => h.1
  have hinv := balance_of_reached hN hcalls hsize hreach
  have hwaiting := waiting_lt (ringInv_of_reached hN (hreach.mono fun _ _ h => h.1))
  have hbalance := hinv.balance
  have hunfinished := s.unfinished_le
  have hlt : increments s.hist < decrements s.hist + (cfg.blockCount + Fintype.card ι) := by omega
  refine ⟨hle, hlt, fun hint => ?_⟩
  have hcount : s.mem.msgCount = UInt32.ofNat (increments s.hist - decrements s.hist) := by
    rw [hinv.count, UInt32.ofNat_sub hle]
  have htoNat : s.mem.msgCount.toNat = increments s.hist - decrements s.hist := by
    rw [hcount, UInt32.toNat_ofNat_of_lt']
    rw [UInt32.size]
    omega
  refine ⟨htoNat, fun timeout => ?_⟩
  simp only [MessageQueue.getMessageCount, Bool.true_eq_false, if_false]
  exact Int.bmod_eq_of_le (by omega) (by omega)

end Run

/-- Of `n` threads, those below `writers` call `write` of at least one byte, the others `read`. -/
def senders (n blockCount writers : ℕ) : Config (Fin n) where
  blockCount := blockCount
  blockSize := 4
  wait := waitForEvent
  calls := fun t c => match c with
    | .write _ amount => t < writers ∧ 0 < amount
    | .read _ _ => writers ≤ t
    | _ => false

theorem senders_nonEmpty {n blockCount writers : ℕ} : (senders n blockCount writers).NonEmpty := by
  intro t c hc
  cases c <;> simp only [senders, Bool.false_eq_true, decide_eq_true_eq] at hc
  · exact .inl ⟨_, _, rfl, hc.2⟩
  · exact .inr ⟨_, _, rfl⟩

/-- The writer has published a second message and not counted it; the reader has read the first one and
counted it off. -/
def oneUncounted : List (Fin 2 × Choice) :=
  during 0 (.write letters 1) 16 ++ during 0 (.write letters 2) 11 ++ during 1 (.read 4 1) 19

theorem msgCount_not_wrapped_oneUncounted :
    ∃ s, Reached (senders 2 3 1)
        (fun s a => (Fresh s a ∧ ClearInTime s a) ∧ CountsOffCounted s a) s ∧
      s.uncounted = 1 ∧ decrements s.hist = 1 ∧ decrements s.hist ≤ increments s.hist ∧
      increments s.hist < decrements s.hist + 5 ∧
      s.mem.msgCount.toNat = increments s.hist - decrements s.hist := by
  obtain ⟨s, hs, huncounted, hdecrements⟩ : ∃ s, Reached (senders 2 3 1)
      (fun s a => (Fresh s a ∧ ClearInTime s a) ∧ CountsOffCounted s a) s ∧
      s.uncounted = 1 ∧ decrements s.hist = 1 := Reach.exists_of_run oneUncounted (by decide +kernel)
  obtain ⟨hle, hlt, hcount⟩ := msgCount_not_wrapped (by decide) senders_nonEmpty (by decide) hs
  exact ⟨s, hs, huncounted, hdecrements, hle, hlt, (hcount (by decide)).1⟩

/-- The writer has published its message and not counted it; the reader reads it to the end. -/
def readEarly : List (Fin 2 × Choice) :=
  during 0 (.write letters 1) 10 ++ during 1 (.read 4 1) 17

/-- The counter wraps below zero, and `getMessageCount` returns its error value. -/
theorem msgCount_wraps :
    ∃ s, Reached (senders 2 3 1) (fun s a => Fresh s a ∧ ClearInTime s a) s ∧
      increments s.hist < decrements s.hist ∧ s.mem.msgCount = 4294967295 ∧
      MessageQueue.getMessageCount ⟨true, 0, s.mem⟩ = -1 :=
  Reach.exists_of_run readEarly (by decide +kernel)

end AtomicMessageQueue
