import AtomicMessageQueue.Lib.Tally
import AtomicMessageQueue.System.Laps
import AtomicMessageQueue.System.Spsc
import Mathlib.Algebra.BigOperators.Intervals

/-! # Every message exactly once

Any number of threads write and read. What `write` has stored is delivered once by some `read`, or is
with a `read` that has taken it, or waits in the ring, or is about to be published; nothing is lost and
nothing is delivered twice. That holds as long as no CAS comes a round of the ring after its load and
no `read` clears `Amount` late.
-/

namespace AtomicMessageQueue

open Function Transition TicketRing Finset

variable {ι : Type*}

/-! ## Where a message is -/

/-- The block whose message a `read` is about to copy or copying. -/
def Pc.finds : Pc → Option ℕ
  | .loadAmount _ _ b => some b
  | .loadMin _ b => some b
  | .loadDwAmount _ b => some b
  | .copyOut _ _ b _ => some b
  | _ => none

/-- The message taken and not copied out yet at an optional program point. -/
def findingAt (m : MemBuff) (pc : Option Pc) : Option (List UInt8) :=
  (pc.bind Pc.finds).map fun b => (m.blocks b).contents

/-- How often a thread has taken `msg` and not copied it out yet. -/
def found (m : MemBuff) (msg : List UInt8) (l : Local) : ℕ :=
  if findingAt m l.pc = some msg then 1 else 0

/-- The claims whose message `write` has stored. -/
def filled : List Mark → ℕ → Bool
  | [], _ => false
  | .fill b _ :: h, q => q == writeTicket h b || filled h q
  | _ :: h, q => filled h q

/-- How often `msg` has been stored under claim number `q`. -/
def stores (h : List Mark) (msg : List UInt8) (q : ℕ) : ℕ :=
  if filled h q = true ∧ payload h q = msg then 1 else 0

/-- How often `msg` is stored in a block that has not been published yet. -/
def unpublished (h : List Mark) (msg : List UInt8) : ℕ :=
  ∑ q ∈ Ico (publishes h) (claims h), stores h msg q

/-! ## From `write` to the ring -/

/-- The messages stored are those of the claims that have been filled, and such a claim keeps its block
loaded until a reader returns it. -/
structure Written (N : ℕ) (h : List Mark) : Prop where
  lt : ∀ q, filled h q = true → q < claims h
  kept : ∀ q, filled h q = true → returned h q = true ∨ loaded h (q % N) = true
  ofPosted : ∀ q, posted h q = true → filled h q = true
  ofLoaded : ∀ b, loaded h b = true → filled h (writeTicket h b) = true
  count : ∀ msg, (written h).count msg = ∑ q ∈ range (claims h), stores h msg q

theorem written_start {N : ℕ} : Written N [] where
  lt _ h := by cases h
  kept _ h := by cases h
  ofPosted _ h := by cases h
  ofLoaded _ h := by cases h
  count _ := rfl

section Write

variable {N : ℕ} {s : State ι} {t : ι} {b : ℕ} {msg : List UInt8}

theorem Written.claim (h : Written N s.hist) (hb : loaded s.hist b = false) :
    Written N (.claim b :: s.hist) where
  lt q hq := (h.lt q hq).trans (Nat.lt_succ_self _)
  kept := h.kept
  ofPosted := h.ofPosted
  ofLoaded i hi := by
    have hib : i ≠ b := by
      rintro rfl
      exact absurd (hi.symm.trans hb) (by decide)
    show filled s.hist (update (writeTicket s.hist) b (claims s.hist) i) = true
    rw [update_of_ne hib]
    exact h.ofLoaded i hi
  count m := by
    have hlast : stores s.hist m (claims s.hist) = 0 := by
      refine if_neg fun hfilled => ?_
      exact absurd (h.lt _ hfilled.1) (lt_irrefl _)
    show (written s.hist).count m = ∑ q ∈ range (claims s.hist + 1), stores s.hist m q
    rw [sum_range_succ, h.count m, hlast, Nat.add_zero]

/-- A message goes into a claim that has not been filled. -/
theorem Written.fill (h : Written N s.hist) (hr : RingInv N s)
    (hheld : b ∈ (s.threads t).heldWrite) (hempty : loaded s.hist b = false) :
    Written N (.fill b msg :: s.hist) := by
  obtain ⟨q, hq, hq', hslot, hticket⟩ := hr.held_write hheld
  have hnew : filled s.hist q = false := by
    by_contra hne
    rcases h.kept q (by simpa using hne) with hret | hl
    · have := hr.taken_of_returned hret
      have := hr.takes_le
      omega
    · rw [hslot, hempty] at hl
      cases hl
  have hfilled : ∀ p, filled (.fill b msg :: s.hist) p = true ↔ p = q ∨ filled s.hist p = true := by
    intro p
    simp only [filled, hticket, Bool.or_eq_true, beq_iff_eq]
  refine ⟨fun p hp => ?_, fun p hp => ?_, fun p hp => ?_, fun i hi => ?_, fun m => ?_⟩
  · rcases (hfilled p).mp hp with rfl | hp
    · exact hq'
    · exact h.lt p hp
  · show returned s.hist p = true ∨ (if p % N = b then true else loaded s.hist (p % N)) = true
    rcases (hfilled p).mp hp with rfl | hp
    · exact .inr (if_pos hslot)
    · refine (h.kept p hp).imp_right fun hl => ?_
      rw [hl, ite_self]
  · exact (hfilled p).mpr (.inr (h.ofPosted p hp))
  · refine (hfilled _).mpr ?_
    by_cases hib : i = b
    · exact .inl (by rw [hib]; exact hticket)
    · exact .inr (h.ofLoaded i (by simpa only [loaded, if_neg hib] using hi))
  · -- only the summand of the claim that is filled changes
    have hterm : stores (.fill b msg :: s.hist) m =
        update (stores s.hist m) q (if msg = m then 1 else 0) := by
      funext p
      unfold stores
      by_cases hpq : p = q
      · subst hpq
        simp only [update_self, hfilled, true_or, true_and, payload, hticket]
      · simp only [update_of_ne hpq, hfilled, hpq, false_or, payload, hticket]
    have hold : stores s.hist m q = 0 := by
      refine if_neg fun hstored => ?_
      exact absurd (hstored.1.symm.trans hnew) (by decide)
    have hsum := Tally.sum_update_add (range (claims s.hist)) (stores s.hist m) (mem_range.mpr hq')
      (if msg = m then 1 else 0)
    show (written s.hist ++ [msg]).count m = ∑ p ∈ range (claims s.hist), _
    rw [hold, Nat.add_zero] at hsum
    rw [hterm, hsum, List.count_append, h.count m, List.count_singleton]
    simp only [beq_iff_eq]

theorem Written.post (h : Written N s.hist) (hb : loaded s.hist b = true) :
    Written N (.setDoneWrite b :: s.hist) where
  lt := h.lt
  kept := h.kept
  ofPosted q hq := by
    simp only [posted, Bool.or_eq_true, beq_iff_eq] at hq
    rcases hq with rfl | hq
    · exact h.ofLoaded b hb
    · exact h.ofPosted q hq
  ofLoaded := h.ofLoaded
  count := h.count

/-- A reader gives up a block, and its claim is returned. -/
theorem Written.giveUp (h : Written N s.hist) (hr : RingInv N s)
    (hheld : b ∈ (s.threads t).heldRead) : Written N (.setDoneRead b :: s.hist) where
  lt := h.lt
  kept q hq := by
    obtain ⟨p, hp, hp', hslot, hticket, hopen⟩ := hr.held_read hheld
    simp only [returned, Bool.or_eq_true, beq_iff_eq, loaded, hticket]
    rcases h.kept q hq with hret | hl
    · exact .inl (.inr hret)
    · by_cases hqb : q % N = b
      · left
        by_cases hret : returned s.hist q = true
        · exact .inr hret
        · left
          -- two open tickets with the slot of `b` are the same
          have htakes := hr.takes_le
          have hpublishes := hr.publishes_le
          exact hr.eq_of_slot (hr.retires_le_of_open (by simpa using hret)) (h.lt q hq).le hp
            (by omega) (hqb.trans hslot.symm)
      · exact .inr (by rw [if_neg hqb]; exact hl)
  ofPosted := h.ofPosted
  ofLoaded i hi := by
    by_cases hib : i = b
    · simp only [loaded, if_pos hib] at hi
      cases hi
    · exact h.ofLoaded i (by simpa only [loaded, if_neg hib] using hi)
  count := h.count

/-- **Step lemma of the messages stored.** -/
theorem Written.step [DecidableEq ι] {cfg : Config ι} {s' : State ι} {a : ι × Choice}
    (h : Written cfg.blockCount s.hist) (hr : RingInv cfg.blockCount s)
    (hi : Intact cfg.blockCount s) (hs : step cfg s a = some s') :
    Written cfg.blockCount s'.hist := by
  obtain ⟨t, ch⟩ := a
  rcases step_cases hs with ⟨c, rfl, -, -, -, rfl⟩ | ⟨w, pc, m', o, mk, rfl, hpc, hcode, rfl⟩
  · exact h
  · have hfilled := hi.filled t pc hpc
    cases hcode with
    | claim k i hi' =>
        refine h.claim ?_
        rw [← hi', hr.cursors.writeStart]
        exact hi.stored.start_not_loaded hr
    | storeAmount pBuff dwAmount b =>
        exact h.fill hr ((hr.wf t).writing b (by rw [hpc]; rfl)) hfilled.1
    | setDoneWrite k b => exact h.post hfilled
    | setDoneRead k b => exact h.giveUp hr ((hr.wf t).reading b (by rw [hpc]; rfl))
    | _ => exact ⟨h.lt, h.kept, h.ofPosted, h.ofLoaded, h.count⟩

theorem count_map_range (f : ℕ → List UInt8) (n : ℕ) (msg : List UInt8) :
    ((List.range n).map f).count msg = ∑ q ∈ range n, if f q = msg then 1 else 0 := by
  induction n with
  | zero => rfl
  | succ n ih =>
      rw [List.range_succ, List.map_append, List.count_append, ih, sum_range_succ, List.map_singleton,
        List.count_singleton]
      simp only [beq_iff_eq]

/-- What has been stored has been published, or is in a block that has not. -/
theorem Written.count_eq (h : Written N s.hist) (hr : RingInv N s) (hi : Stored N s.mem s.hist)
    (msg : List UInt8) :
    (written s.hist).count msg = (published s.hist).count msg + unpublished s.hist msg := by
  have hpublished : (published s.hist).count msg =
      ∑ q ∈ range (publishes s.hist), stores s.hist msg q := by
    rw [hi.published_eq, count_map_range]
    refine sum_congr rfl fun q hq => ?_
    have hfilled : filled s.hist q = true := h.ofPosted q (hr.posted_of_lt (mem_range.mp hq))
    simp only [stores, hfilled, true_and]
  rw [h.count msg, hpublished]
  exact (sum_range_add_sum_Ico _ hr.publishes_le).symm

end Write

/-! ## From the ring to `read` -/

/-- How far a `read` has come. -/
def Pc.Copying (m : MemBuff) : Pc → Prop
  | .getBlockRead k _ => ∀ ms, k ≠ .holder ms
  | .loadMin _ b => (m.blocks b).contents ≠ []
  | .loadDwAmount buffSize b => (m.blocks b).contents ≠ [] ∧ (m.blocks b).amount ≤ buffSize
  | .copyOut buffSize dwAmount b bytes => (m.blocks b).contents ≠ [] ∧
      dwAmount = min (m.blocks b).amount buffSize ∧
      bytes = (m.blocks b).contents.take bytes.length ∧ bytes.length ≤ dwAmount
  | _ => True

/-- What has been taken has been delivered or is with a `read`; empty messages are skipped. -/
structure Delivered [Fintype ι] (s : State ι) : Prop where
  copying : ∀ t pc, (s.threads t).pc = some pc → pc.Copying s.mem
  count : ∃ ts, Copies (delivered s.hist) ts ∧ ∀ msg, msg ≠ [] →
    (taken s.hist).count msg = ts.count msg + ∑ t, found s.mem msg (s.threads t)

section Read

variable {N : ℕ} {s : State ι} {t : ι} {b : ℕ} {blockSize : ℕ} {wait : WaitStep} {w : WaitEnd}
  {m m' : MemBuff} {pc pc' : Pc} {o : Out Pc Ret} {mk : Option Mark} {msg : List UInt8}

theorem Pc.reading_of_finds (h : pc.finds = some b) : pc.reading = some b := by
  cases pc with
  | loadAmount buffSize ms b => exact h
  | loadMin buffSize b => exact h
  | loadDwAmount buffSize b => exact h
  | copyOut buffSize dwAmount b bytes => exact h
  | _ => cases h

/-- How far a `read` has come depends on the block it has found only. -/
theorem Pc.Copying.mono (h : pc.Copying m) (hbody : ∀ b, pc.finds = some b →
    (m'.blocks b).data = (m.blocks b).data ∧ (m'.blocks b).amount = (m.blocks b).amount) :
    pc.Copying m' := by
  unfold Pc.Copying at h ⊢
  split at h
  next => exact h
  next b =>
    obtain ⟨hdata, hamount⟩ := hbody b rfl
    rw [Block.contents_eq hdata hamount]
    exact h
  next b =>
    obtain ⟨hdata, hamount⟩ := hbody b rfl
    rw [Block.contents_eq hdata hamount, hamount]
    exact h
  next b bytes =>
    obtain ⟨hdata, hamount⟩ := hbody b rfl
    rw [Block.contents_eq hdata hamount, hamount]
    exact h
  next => trivial

/-- A `read` gets on with its copy. -/
theorem Pc.Copying.step (h : pc.Copying m) (hcode : CodeStep blockSize wait w m pc m' o mk)
    (ho : o.pc = some pc') : pc'.Copying m' := by
  cases hcode with
  | loadAmount buffSize ms b hne =>
      obtain rfl := Option.some.inj ho
      exact fun hnil => hne (Block.contents_eq_nil.mp hnil)
  | minBuffSize buffSize b hlt =>
      obtain rfl := Option.some.inj ho
      exact ⟨h, (Nat.min_eq_right hlt.le).symm, rfl, Nat.zero_le _⟩
  | minAmount buffSize b hge =>
      obtain rfl := Option.some.inj ho
      exact ⟨h, Nat.le_of_not_lt hge⟩
  | loadDwAmount buffSize b =>
      obtain rfl := Option.some.inj ho
      exact ⟨h.1, (Nat.min_eq_left h.2).symm, rfl, Nat.zero_le _⟩
  | copyOut buffSize dwAmount b bytes hlt =>
      obtain rfl := Option.some.inj ho
      obtain ⟨hne, hdw, hbytes, -⟩ := h
      refine ⟨hne, hdw, ?_, ?_⟩
      · have hlen : bytes.length < (m.blocks b).contents.length := by
          rw [Block.contents_length]
          omega
        have hget : (m.blocks b).contents[bytes.length] = (m.blocks b).data bytes.length := by
          simp only [Block.contents, List.getElem_map, List.getElem_range]
        rw [List.length_append, List.length_singleton, List.take_add_one,
          List.getElem?_eq_getElem hlen, hget, ← hbytes, Option.toList_some]
      · rw [List.length_append, List.length_singleton]
        exact hlt
  | claim k => cases k <;> cases ho; trivial
  | timeoutWrite k => cases k <;> cases ho
  | leavePost k => cases k <;> cases ho; trivial
  | emptyReturn k => cases k <;> cases ho
  | timeoutRead k => cases k <;> cases ho
  | take k => cases k <;> cases ho; trivial
  | leaveReturn k =>
      cases k with
      | holder => cases ho
      | read bytes =>
          obtain rfl := Option.some.inj ho
          trivial
      | again buffSize ms =>
          obtain rfl := Option.some.inj ho
          intro _ hk
          cases hk
  | increment => cases ho
  | decrement => cases ho
  | _ =>
      obtain rfl := Option.some.inj ho
      first
        | exact h
        | trivial

/-- A mark of `read`: it has taken a block or copied one out. -/
def Mark.ofRead : Option Mark → Bool
  | some (.take _ _) => true
  | some (.copied _ _) => true
  | _ => false

theorem taken_of_not_ofRead (h : Mark.ofRead mk = false) (hist : List Mark) :
    taken (mk.toList ++ hist) = taken hist ∧ delivered (mk.toList ++ hist) = delivered hist := by
  cases mk with
  | none => exact ⟨rfl, rfl⟩
  | some mk =>
      cases mk with
      | take => cases h
      | copied => cases h
      | _ => exact ⟨rfl, rfl⟩

/-- A `read` has found a message where it takes one, and has not where it has copied it out or skips an
empty block. -/
theorem CodeStep.finding (hcode : CodeStep blockSize wait w m pc m' o mk) (h : pc.Copying m) :
    (∃ b c, mk = some (.take b c) ∧ findingAt m (some pc) = none ∧ findingAt m' o.pc = some c) ∨
    (∃ n c, c ≠ [] ∧ mk = some (.copied n (c.take n)) ∧ findingAt m (some pc) = some c ∧
      findingAt m' o.pc = none) ∨
    (Mark.ofRead mk = false ∧ (findingAt m' o.pc = findingAt m (some pc) ∨
      findingAt m (some pc) = some [] ∧ findingAt m' o.pc = none)) := by
  cases hcode with
  | take k i hi =>
      cases k with
      | holder ms => exact absurd rfl (h ms)
      | read buffSize ms => exact .inl ⟨i, (m.blocks i).contents, rfl, rfl, rfl⟩
  | copiedOut buffSize dwAmount b bytes hge =>
      obtain ⟨hne, hdw, hbytes, hle⟩ := h
      -- the copy ends with the message or with the buffer, whichever is shorter
      have hall : bytes = (m.blocks b).contents.take buffSize := by
        rw [hbytes, List.take_eq_take_iff, Block.contents_length]
        omega
      refine .inr (.inl ⟨buffSize, (m.blocks b).contents, hne, ?_, rfl, rfl⟩)
      rw [← hall]
  | skip buffSize ms b hzero =>
      refine .inr (.inr ⟨rfl, .inr ⟨?_, rfl⟩⟩)
      exact congrArg some (Block.contents_eq_nil.mpr hzero)
  | claim k => cases k <;> exact .inr (.inr ⟨rfl, .inl rfl⟩)
  | timeoutWrite k => cases k <;> exact .inr (.inr ⟨rfl, .inl rfl⟩)
  | leavePost k => cases k <;> exact .inr (.inr ⟨rfl, .inl rfl⟩)
  | emptyReturn k => cases k <;> exact .inr (.inr ⟨rfl, .inl rfl⟩)
  | timeoutRead k => cases k <;> exact .inr (.inr ⟨rfl, .inl rfl⟩)
  | leaveReturn k => cases k <;> exact .inr (.inr ⟨rfl, .inl rfl⟩)
  | _ => exact .inr (.inr ⟨rfl, .inl rfl⟩)

/-- What an access takes out of the ring it delivers, or leaves with the `read` that makes it. -/
theorem CodeStep.delivers (hcode : CodeStep blockSize wait w m pc m' o mk) (h : pc.Copying m)
    {hist : List Mark} {ts : List (List UInt8)} (hcopies : Copies (delivered hist) ts) :
    ∃ ts', Copies (delivered (mk.toList ++ hist)) ts' ∧ ∀ msg, msg ≠ [] →
      (taken (mk.toList ++ hist)).count msg + ts.count msg +
          (if findingAt m (some pc) = some msg then 1 else 0) =
        (taken hist).count msg + ts'.count msg +
          if findingAt m' o.pc = some msg then 1 else 0 := by
  rcases hcode.finding h with ⟨b, c, rfl, hold, hnew⟩ | ⟨n, c, hc, rfl, hold, hnew⟩ | ⟨hmk, hsame⟩
  · refine ⟨ts, hcopies, fun msg _ => ?_⟩
    have hcount : (taken (.take b c :: hist)).count msg =
        (taken hist).count msg + if c = msg then 1 else 0 := by
      simp only [taken, List.count_append, List.count_singleton, beq_iff_eq]
    show (taken (.take b c :: hist)).count msg + _ + _ = _
    rw [hcount, hold, hnew]
    simp only [reduceCtorEq, if_false, Option.some.injEq]
    omega
  · refine ⟨ts ++ [c], hcopies.append hc, fun msg _ => ?_⟩
    show (taken hist).count msg + _ + _ = _
    rw [hold, hnew, List.count_append, List.count_singleton]
    simp only [reduceCtorEq, if_false, Option.some.injEq, beq_iff_eq]
    omega
  · obtain ⟨htaken, hdelivered⟩ := taken_of_not_ofRead hmk hist
    refine ⟨ts, hdelivered ▸ hcopies, fun msg hmsg => ?_⟩
    rw [htaken]
    rcases hsame with hsame | ⟨hold, hnew⟩
    · rw [hsame]
    · have hne : ¬ some [] = some msg := fun heq => hmsg (Option.some.inj heq).symm
      rw [hold, hnew, if_neg hne]
      rfl

/-- A block that a thread reads is loaded, so that no access changes its body. -/
theorem Intact.body_of_finds (h : Intact N s) (hr : RingInv N s) (hpc : (s.threads t).pc = some pc)
    (hcode : CodeStep blockSize wait w s.mem pc m' o mk) (hclear : ClearInTime s (t, .run w)) {u : ι}
    (hb : (s.threads u).pc.bind Pc.finds = some b) :
    (m'.blocks b).data = (s.mem.blocks b).data ∧ (m'.blocks b).amount = (s.mem.blocks b).amount := by
  obtain ⟨q, hq, hfinds⟩ := Option.bind_eq_some_iff.mp hb
  refine h.frame hpc hcode hclear (h.stored.of_held hr ((hr.wf u).reading b ?_)).1
  rw [hq]
  exact Pc.reading_of_finds hfinds

theorem Intact.finding_of_ne (h : Intact N s) (hr : RingInv N s) (hpc : (s.threads t).pc = some pc)
    (hcode : CodeStep blockSize wait w s.mem pc m' o mk) (hclear : ClearInTime s (t, .run w)) (u : ι) :
    findingAt m' (s.threads u).pc = findingAt s.mem (s.threads u).pc := by
  unfold findingAt
  cases hb : (s.threads u).pc.bind Pc.finds with
  | none => rfl
  | some b =>
      obtain ⟨hdata, hamount⟩ := h.body_of_finds hr hpc hcode hclear hb
      exact congrArg some (Block.contents_eq hdata hamount)

variable [Fintype ι] {s' : State ι} {cfg : Config ι}

theorem delivered_start : Delivered (start cfg) := by
  refine ⟨fun _ _ h => ?_, [], .nil, fun msg _ => ?_⟩
  · cases h
  · have hnone : ∀ t, found (start cfg).mem msg ((start cfg).threads t) = 0 := fun _ => rfl
    simp only [hnone, sum_const_zero]
    rfl

variable [DecidableEq ι]

/-- The messages with the threads change where a thread makes a step. -/
theorem sum_found_update (hothers : ∀ u, u ≠ t → findingAt m' (s.threads u).pc =
      findingAt s.mem (s.threads u).pc) (l : Local) (msg : List UInt8) :
    ∑ u, found m' msg (update s.threads t l u) + found s.mem msg (s.threads t) =
      ∑ u, found s.mem msg (s.threads u) + found m' msg l := by
  have heq : (fun u => found m' msg (update s.threads t l u)) =
      update (fun u => found s.mem msg (s.threads u)) t (found m' msg l) := by
    funext u
    by_cases hut : u = t
    · subst hut
      simp only [update_self]
    · simp only [update_of_ne hut, found, hothers u hut]
  rw [heq]
  exact Tally.sum_update_add Finset.univ _ (Finset.mem_univ t) _

/-- **Step lemma of the deliveries.** -/
theorem Delivered.step (hcalls : cfg.OnlyStreams) (h : Delivered s)
    (hr : RingInv cfg.blockCount s) (hi : Intact cfg.blockCount s) {a : ι × Choice}
    (hclear : ClearInTime s a) (hs : step cfg s a = some s') : Delivered s' := by
  obtain ⟨t, ch⟩ := a
  rcases step_cases hs with ⟨c, rfl, hpc, hcall, -, rfl⟩ | ⟨w, pc, m', o, mk, rfl, hpc, hcode, rfl⟩
  · obtain ⟨ts, hcopies, hcount⟩ := h.count
    refine ⟨forall_pc_update (fun u pc _ => h.copying u pc) fun pc hpc' => ?_,
      ts, hcopies, fun msg hmsg => ?_⟩
    · obtain rfl := Option.some.inj hpc'
      rcases hcalls t c hcall with ⟨_, _, rfl⟩ | ⟨_, _, rfl⟩
      · trivial
      · intro _ hk
        cases hk
    · have hsum : ∑ u, found s.mem msg (update s.threads t { s.threads t with pc := some c.enter } u) +
          found s.mem msg (s.threads t) = ∑ u, found s.mem msg (s.threads u) +
            found s.mem msg { s.threads t with pc := some c.enter } :=
        sum_found_update (fun _ _ => rfl) _ msg
      have hold : found s.mem msg (s.threads t) = 0 := by
        unfold found
        rw [hpc]
        rfl
      have hnew : found s.mem msg { s.threads t with pc := some c.enter } = 0 := by
        rcases hcalls t c hcall with ⟨_, _, rfl⟩ | ⟨_, _, rfl⟩ <;> rfl
      have := hcount msg hmsg
      show (taken s.hist).count msg = ts.count msg +
        ∑ u, found s.mem msg (update s.threads t { s.threads t with pc := some c.enter } u)
      omega
  · have hothers : ∀ u, u ≠ t → findingAt m' (s.threads u).pc =
        findingAt s.mem (s.threads u).pc := fun u _ => hi.finding_of_ne hr hpc hcode hclear u
    obtain ⟨ts, hcopies, hcount⟩ := h.count
    obtain ⟨ts', hcopies', hbalance⟩ := hcode.delivers (h.copying t pc hpc) hcopies
    refine ⟨forall_pc_update (fun u q _ hq => (h.copying u q hq).mono fun b hb =>
        hi.body_of_finds hr hpc hcode hclear (by rw [hq]; exact hb))
      (fun q hq => (h.copying t pc hpc).step hcode hq), ts', hcopies', fun msg hmsg => ?_⟩
    have hsum := sum_found_update hothers ((s.threads t).after o mk) msg
    have hold : found s.mem msg (s.threads t) =
        if findingAt s.mem (some pc) = some msg then 1 else 0 := by
      unfold found
      rw [hpc]
    have hnew : found m' msg ((s.threads t).after o mk) =
        if findingAt m' o.pc = some msg then 1 else 0 := rfl
    have hbefore := hcount msg hmsg
    have hstep := hbalance msg hmsg
    show (taken (mk.toList ++ s.hist)).count msg = ts'.count msg +
      ∑ u, found m' msg (update s.threads t ((s.threads t).after o mk) u)
    omega

end Read

/-! ## What holds of every run -/

/-- No CAS on a leading cursor comes a round of the ring after its load, and no `read` clears `Amount`
late. -/
def InTime (N : ℕ) (p : State ι × Notes ι) (a : ι × Choice) : Prop :=
  InLap N p a ∧ ClearInTime p.1 a

instance (N : ℕ) (p : State ι × Notes ι) (a : ι × Choice) : Decidable (InTime N p a) :=
  inferInstanceAs (Decidable (_ ∧ _))

/-- What has been taken is the start of what has been published. -/
theorem Stored.take_published {N : ℕ} {s : State ι} (h : Stored N s.mem s.hist) (hr : RingInv N s) :
    (published s.hist).take (takes s.hist) = taken s.hist := by
  rw [h.published_eq, h.taken_eq, ← List.map_take, List.take_range, min_eq_left hr.takes_le]

section Runs

variable [DecidableEq ι] {cfg : Config ι} {s : State ι} {p : State ι × Notes ι}

theorem written_of_reached (hN : 2 ≤ cfg.blockCount) (hcalls : cfg.OnlyStreams)
    (h : Reached cfg (fun s a => Fresh s a ∧ ClearInTime s a) s) :
    Written cfg.blockCount s.hist := by
  refine h.invariant (I := fun s => Written cfg.blockCount s.hist) written_start ?_
  exact fun s a s' hreach hi _ hs => hi.step
    (ringInv_of_reached hN (hreach.mono fun _ _ h => h.1)) (intact_of_reached hN hcalls hreach) hs

variable [Fintype ι]

theorem delivered_of_reached (hN : 2 ≤ cfg.blockCount) (hcalls : cfg.OnlyStreams)
    (h : Reached cfg (fun s a => Fresh s a ∧ ClearInTime s a) s) : Delivered s := by
  refine h.invariant delivered_start ?_
  exact fun s a s' hreach hi hok hs => hi.step hcalls
    (ringInv_of_reached hN (hreach.mono fun _ _ h => h.1)) (intact_of_reached hN hcalls hreach)
    hok.2 hs

/-- The ring stands for a bounded queue, and each message that `write` has stored is delivered by one
`read`, or taken and not copied out yet, or published and not taken, or not published yet. -/
structure Accounted (N : ℕ) (s : State ι) : Prop where
  fifo : ∃ f, BoundedFifo.Reached (N - 1) f ∧ f.pushed = published s.hist ∧ f.popped = taken s.hist
  once : ∃ ts, Copies (delivered s.hist) ts ∧ ∀ msg, msg ≠ [] →
    (written s.hist).count msg = ts.count msg + ∑ t, found s.mem msg (s.threads t) +
      ((published s.hist).drop (takes s.hist)).count msg + unpublished s.hist msg

theorem accounted_of_noted (hN : 2 ≤ cfg.blockCount) (hcalls : cfg.OnlyStreams)
    (h : Noted cfg (InTime cfg.blockCount) p) : Accounted cfg.blockCount p.1 := by
  have hlaps : Noted cfg (fun p a => InLap cfg.blockCount p a ∧ ClearInTime p.1 a) p := h
  have hreached := fresh_of_inLap hN hlaps
  have hr := ringInv_of_reached hN (hreached.mono fun _ _ h => h.1)
  have hi := (intact_of_reached hN hcalls hreached).stored
  obtain ⟨ts, hcopies, hcount⟩ := (delivered_of_reached hN hcalls hreached).count
  refine ⟨fifo_of_reached hN hcalls hreached, ts, hcopies, fun msg hmsg => ?_⟩
  have hwritten := (written_of_reached hN hcalls hreached).count_eq hr hi msg
  have hsplit : (published p.1.hist).count msg = (taken p.1.hist).count msg +
      ((published p.1.hist).drop (takes p.1.hist)).count msg := by
    rw [← hi.take_published hr, ← List.count_append, List.take_append_drop]
  have hfound := hcount msg hmsg
  omega

/-- **Every message exactly once,** however many threads write and read. -/
theorem delivery_of_noted (hN : 2 ≤ cfg.blockCount) (hcalls : cfg.OnlyStreams)
    (h : Noted cfg (InTime cfg.blockCount) p) :
    (∃ f, BoundedFifo.Reached (cfg.blockCount - 1) f ∧ f.pushed = published p.1.hist ∧
      f.popped = taken p.1.hist) ∧
    ∃ ts, Copies (delivered p.1.hist) ts ∧ ∀ msg, msg ≠ [] →
      (written p.1.hist).count msg = ts.count msg + ∑ t, found p.1.mem msg (p.1.threads t) +
        ((published p.1.hist).drop (takes p.1.hist)).count msg + unpublished p.1.hist msg :=
  have haccounted := accounted_of_noted hN hcalls h
  ⟨haccounted.fifo, haccounted.once⟩

end Runs

/-- Two messages of two writers; one reader is copying the first while another has found the second. -/
def twoWriters : List (Fin 4 × Choice) :=
  during 0 (.write letters 3) 18 ++ during 1 (.write letters 2) 15 ++
  during 2 (.read 4 1) 5 ++ during 3 (.read 4 1) 3

theorem streams_onlyStreams {n blockCount writers : ℕ} {wait : WaitStep} :
    (streams n blockCount writers wait).OnlyStreams := by
  intro t c hc
  cases c with
  | write pBuff amount => exact .inl ⟨_, _, rfl⟩
  | read buffSize ms => exact .inr ⟨_, _, rfl⟩
  | _ => cases hc

theorem delivery_of_noted_twoWriters :
    ∃ p ts, Noted (streams 4 3 2 waitForEvent) (InTime 3) p ∧ Copies (delivered p.1.hist) ts ∧
      (written p.1.hist).count [65, 66] = 1 ∧
      1 = ts.count [65, 66] + ∑ t, found p.1.mem [65, 66] (p.1.threads t) +
        ((published p.1.hist).drop (takes p.1.hist)).count [65, 66] +
        unpublished p.1.hist [65, 66] := by
  obtain ⟨p, hp, hwritten⟩ : ∃ p, Noted (streams 4 3 2 waitForEvent) (InTime 3) p ∧
      (written p.1.hist).count [65, 66] = 1 :=
    Reach.exists_of_run twoWriters (by decide +kernel)
  obtain ⟨-, ts, hcopies, hcount⟩ := delivery_of_noted (by decide) streams_onlyStreams hp
  have hmsg := hcount [65, 66] (by decide)
  rw [hwritten] at hmsg
  exact ⟨p, ts, hp, hcopies, hwritten, hmsg⟩

end AtomicMessageQueue
