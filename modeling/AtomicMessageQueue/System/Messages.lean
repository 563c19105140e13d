import AtomicMessageQueue.System.Exclusion

/-! # Messages stay intact

What `write` stored in a block is what every later stage finds there: at its publication, when it is
taken, and while a reader copies it. The one access that could change it is the store `Amount = 0` of
`return_block`, which comes after the block has been given up. `Intact` holds in every run in which
that store does not come late, whatever the numbers of `write` and `read` calls in progress.
-/

namespace AtomicMessageQueue

open Function Transition TicketRing

variable {ι : Type*}

/-! ## The late store -/

/-- The block whose `Amount` a step of `return_block` is about to clear. -/
def State.clears (s : State ι) : ι × Choice → Option ℕ
  | (_, .call _) => none
  | (t, .run _) =>
      match (s.threads t).pc with
      | some (.returnBlock _ (.clear b)) => some b
      | _ => none

/-- The store `Amount = 0` of `return_block` does not hit a block in which a `write` has stored a
non-empty message since. -/
def ClearInTime (s : State ι) (a : ι × Choice) : Prop :=
  ∀ b ∈ s.clears a, loaded s.hist b = true → (s.mem.blocks b).amount = 0

instance (s : State ι) (a : ι × Choice) : Decidable (ClearInTime s a) :=
  inferInstanceAs (Decidable (∀ b ∈ s.clears a, _))

theorem clears_of_pc {s : State ι} {t : ι} {w : WaitEnd} {k : ReturnCaller} {b : ℕ}
    (hpc : (s.threads t).pc = some (.returnBlock k (.clear b))) :
    b ∈ s.clears (t, .run w) := by
  simp only [State.clears, hpc, Option.mem_def]

/-! ## What an access writes into a block -/

/-- Only the copy of a `write`, its store of `Amount` and the clearing of `Amount` in `return_block`
write into the body of a block. -/
theorem CodeStep.body {blockSize : ℕ} {wait : WaitStep} {w : WaitEnd} {m m' : MemBuff} {pc : Pc}
    {o : Out Pc Ret} {mk : Option Mark} (h : CodeStep blockSize wait w m pc m' o mk) (i : ℕ) :
    ((m'.blocks i).data = (m.blocks i).data ∧ (m'.blocks i).amount = (m.blocks i).amount) ∨
      (∃ pBuff dwAmount done, pc = .copyIn pBuff dwAmount i done) ∨
      (∃ pBuff dwAmount, pc = .storeAmount pBuff dwAmount i ∧
        (m'.blocks i).data = (m.blocks i).data) ∨
      (∃ k, pc = .returnBlock k (.clear i) ∧ (m'.blocks i).data = (m.blocks i).data ∧
        (m'.blocks i).amount = 0) := by
  cases h with
  | copyIn pBuff dwAmount b done =>
      by_cases hib : i = b
      · subst hib
        exact .inr (.inl ⟨_, _, _, rfl⟩)
      · refine .inl ?_
        simp only [MemBuff.setBlock, update_of_ne hib, and_self]
  | storeAmount pBuff dwAmount b =>
      by_cases hib : i = b
      · subst hib
        refine .inr (.inr (.inl ⟨_, _, rfl, ?_⟩))
        simp only [MemBuff.setBlock, update_self]
      · refine .inl ?_
        simp only [MemBuff.setBlock, update_of_ne hib, and_self]
  | clearAmount k b =>
      by_cases hib : i = b
      · subst hib
        refine .inr (.inr (.inr ⟨_, rfl, ?_⟩))
        simp only [MemBuff.setBlock, update_self, and_self]
      · refine .inl ?_
        simp only [MemBuff.setBlock, update_of_ne hib, and_self]
  | _ => first
    | exact .inl ⟨rfl, rfl⟩
    | (refine .inl ⟨m.get_setBlock Block.data ?_ i, m.get_setBlock Block.amount ?_ i⟩ <;>
        exact fun _ => rfl)

/-! ## The invariant -/

/-- What the blocks hold. From the store of `Amount` in `write` until a reader returns it, a block
holds exactly the message of its latest claim. -/
structure Stored (N : ℕ) (m : MemBuff) (h : List Mark) : Prop where
  ticket : ∀ b, loaded h b = true →
    writeTicket h b < claims h ∧ writeTicket h b % N = b ∧ returned h (writeTicket h b) = false
  contents : ∀ b, loaded h b = true → (m.blocks b).contents = payload h (writeTicket h b)
  posted_loaded : ∀ q, posted h q = true → returned h q = true ∨ loaded h (q % N) = true
  published_eq : published h = (List.range (publishes h)).map (payload h)
  taken_eq : taken h = (List.range (takes h)).map (payload h)

/-- What a `write` has done so far at a program point. -/
def Pc.Filled (m : MemBuff) (h : List Mark) : Pc → Prop
  | .copyIn pBuff dwAmount b done => loaded h b = false ∧ done ≤ dwAmount ∧
      ∀ k, k < done → (m.blocks b).data k = pBuff k
  | .storeAmount pBuff dwAmount b => loaded h b = false ∧
      ∀ k, k < dwAmount → (m.blocks b).data k = pBuff k
  | .postBlock _ (.set b) => loaded h b = true
  | _ => True

/-- What `write` stores stays in its block. -/
structure Intact (N : ℕ) (s : State ι) : Prop where
  stored : Stored N s.mem s.hist
  filled : ∀ t pc, (s.threads t).pc = some pc → pc.Filled s.mem s.hist

section Facts

variable {N : ℕ} {s : State ι}

/-- The block that will be claimed next holds no message. -/
theorem Stored.start_not_loaded (h : Stored N s.mem s.hist) (hr : RingInv N s) :
    loaded s.hist (claims s.hist % N) = false := by
  by_contra hne
  obtain ⟨hlt, hslot, hopen⟩ := h.ticket _ (by simpa using hne)
  have hle : retires s.hist ≤ claims s.hist :=
    hr.retires_le.trans (hr.takes_le.trans hr.publishes_le)
  have := hr.eq_of_slot (hr.retires_le_of_open hopen) hlt.le hle le_rfl hslot
  omega

/-- A posted claim that no reader has returned has its message in its block. -/
theorem Stored.of_posted (h : Stored N s.mem s.hist) (hr : RingInv N s) {q : ℕ}
    (hq : posted s.hist q = true) (hopen : returned s.hist q = false) :
    loaded s.hist (q % N) = true ∧ writeTicket s.hist (q % N) = q ∧
      (s.mem.blocks (q % N)).contents = payload s.hist q := by
  have hlt := hr.claimed_of_posted hq
  have hloaded : loaded s.hist (q % N) = true :=
    (h.posted_loaded q hq).resolve_left (by rw [hopen]; exact Bool.false_ne_true)
  have hticket : writeTicket s.hist (q % N) = q := by
    refine hr.cursors.writeTicket q hlt ?_
    have := hr.room
    have := hr.retires_le_of_open hopen
    omega
  exact ⟨hloaded, hticket, by rw [h.contents _ hloaded, hticket]⟩

/-- A claim that is published and not yet taken has not been returned. -/
theorem RingInv.open_of_takes_le (hr : RingInv N s) {q : ℕ} (hq : takes s.hist ≤ q) :
    returned s.hist q = false := by
  by_contra hne
  have := hr.taken_of_returned (q := q) (by simpa using hne)
  omega

/-- A published message that nobody has taken is in its block. -/
theorem Stored.of_unread (h : Stored N s.mem s.hist) (hr : RingInv N s) {i : ℕ}
    (hi : unread s.hist i = true) : loaded s.hist i = true := by
  obtain ⟨q, hq, hq', rfl⟩ := (hr.unread_iff i).mp hi
  exact (h.of_posted hr (hr.posted_of_lt hq') (hr.open_of_takes_le hq)).1

/-- A block held by a reader still holds the message of its take. -/
theorem Stored.of_held (h : Stored N s.mem s.hist) (hr : RingInv N s) {t : ι} {b : ℕ}
    (hb : b ∈ (s.threads t).heldRead) :
    loaded s.hist b = true ∧
      (s.mem.blocks b).contents = payload s.hist (readTicket s.hist b) := by
  obtain ⟨q, hq, hq', hslot, hticket, hopen⟩ := hr.held_read hb
  have htakes := hr.takes_le
  obtain ⟨hloaded, -, hcontents⟩ := h.of_posted hr (hr.posted_of_lt (by omega)) hopen
  rw [hslot] at hloaded hcontents
  exact ⟨hloaded, by rw [hcontents, hticket]⟩

end Facts

/-! ## Steps -/

section Steps

variable {N : ℕ} {s : State ι} {t : ι} {blockSize : ℕ} {wait : WaitStep} {w : WaitEnd}
  {m' : MemBuff} {pc : Pc} {o : Out Pc Ret} {mk : Option Mark}

/-- **Frame.** No access that clears in time changes the body of a block that holds a message. -/
theorem Intact.frame (h : Intact N s) (hpc : (s.threads t).pc = some pc)
    (hcode : CodeStep blockSize wait w s.mem pc m' o mk) (hclear : ClearInTime s (t, .run w))
    {i : ℕ} (hi : loaded s.hist i = true) :
    (m'.blocks i).data = (s.mem.blocks i).data ∧
      (m'.blocks i).amount = (s.mem.blocks i).amount := by
  have hfilled := h.filled t pc hpc
  rcases hcode.body i with hsame | ⟨_, _, _, rfl⟩ | ⟨_, _, rfl, -⟩ | ⟨k, rfl, hdata, hzero⟩
  · exact hsame
  · exact absurd (hi.symm.trans hfilled.1) (by decide)
  · exact absurd (hi.symm.trans hfilled.1) (by decide)
  · exact ⟨hdata, hzero.trans (hclear i (clears_of_pc hpc) hi).symm⟩

/-- No access of another thread changes the bytes of a block held for writing. -/
theorem RingInv.data_of_ne (hr : RingInv N s) (hpc : (s.threads t).pc = some pc)
    (hcode : CodeStep blockSize wait w s.mem pc m' o mk) {u : ι} (hu : u ≠ t) {i : ℕ}
    (hi : i ∈ (s.threads u).heldWrite) : (m'.blocks i).data = (s.mem.blocks i).data := by
  rcases hcode.body i with ⟨hdata, -⟩ | ⟨_, _, _, rfl⟩ | ⟨_, _, -, hdata⟩ | ⟨_, -, hdata, -⟩
  · exact hdata
  · have hheld : i ∈ (s.threads t).heldWrite := (hr.wf t).writing i (by rw [hpc]; rfl)
    exact absurd (hr.write.held_unique u t i hi hheld) hu
  · exact hdata
  · exact hdata

/-- A claim hands out a block that holds no message. -/
theorem Stored.claim (h : Stored N s.mem s.hist) (hr : RingInv N s) {i : ℕ}
    (hi : i = claims s.hist % N) {m' : MemBuff} (hm : m'.blocks = s.mem.blocks) :
    Stored N m' (.claim i :: s.hist) := by
  have hne : ∀ b, loaded s.hist b = true → b ≠ i := by
    rintro b hb rfl
    rw [hi, h.start_not_loaded hr] at hb
    cases hb
  refine ⟨fun b hb => ?_, fun b hb => ?_, h.posted_loaded, h.published_eq, h.taken_eq⟩
  · obtain ⟨hlt, hslot, hopen⟩ := h.ticket b hb
    have hticket : writeTicket (.claim i :: s.hist) b = writeTicket s.hist b :=
      update_of_ne (hne b hb) _ _
    rw [hticket]
    exact ⟨hlt.trans (Nat.lt_succ_self _), hslot, hopen⟩
  · have hticket : writeTicket (.claim i :: s.hist) b = writeTicket s.hist b :=
      update_of_ne (hne b hb) _ _
    rw [hticket, hm]
    exact h.contents b hb

/-- Recording a message at a ticket from `n` on leaves the payloads below `n` alone. -/
theorem map_payload_update {f : ℕ → List UInt8} {n q : ℕ} {msg : List UInt8} (hq : n ≤ q) :
    (List.range n).map (update f q msg) = (List.range n).map f := by
  refine List.map_congr_left fun p hp => ?_
  rw [update_of_ne]
  have := List.mem_range.mp hp
  omega

/-- The store of `Amount` completes the message of a block held for writing. -/
theorem Stored.fill (h : Stored N s.mem s.hist) (hr : RingInv N s) {b : ℕ}
    (hheld : b ∈ (s.threads t).heldWrite) {msg : List UInt8} {m' : MemBuff}
    (hb : (m'.blocks b).contents = msg)
    (hother : ∀ i, i ≠ b → (m'.blocks i).contents = (s.mem.blocks i).contents) :
    Stored N m' (.fill b msg :: s.hist) := by
  obtain ⟨q, hq, hq', hslot, hticket⟩ := hr.held_write hheld
  have htakes := hr.takes_le
  have hloaded : ∀ i, loaded (.fill b msg :: s.hist) i = true → i = b ∨ loaded s.hist i = true := by
    intro i hi
    by_cases hib : i = b
    · exact .inl hib
    · exact .inr (by simpa only [loaded, if_neg hib] using hi)
  refine ⟨fun i hi => ?_, fun i hi => ?_, fun p hp => ?_, ?_, ?_⟩
  · rcases hloaded i hi with rfl | hi
    · show writeTicket s.hist i < claims s.hist ∧ writeTicket s.hist i % N = i ∧
        returned s.hist (writeTicket s.hist i) = false
      rw [hticket]
      exact ⟨hq', hslot, hr.open_of_takes_le (htakes.trans hq)⟩
    · exact h.ticket i hi
  · show (m'.blocks i).contents =
      update (payload s.hist) (writeTicket s.hist b) msg (writeTicket s.hist i)
    by_cases hib : i = b
    · rw [hib, update_self]
      exact hb
    · have hi : loaded s.hist i = true := (hloaded i hi).resolve_left hib
      have hne : writeTicket s.hist i ≠ writeTicket s.hist b := by
        intro heq
        exact hib (by rw [← (h.ticket i hi).2.1, heq, hticket, hslot])
      rw [update_of_ne hne, hother i hib]
      exact h.contents i hi
  · refine (h.posted_loaded p hp).imp_right fun hl => ?_
    show (if p % N = b then true else loaded s.hist (p % N)) = true
    rw [hl, ite_self]
  · show published s.hist =
      (List.range (publishes s.hist)).map (update (payload s.hist) (writeTicket s.hist b) msg)
    rw [map_payload_update (by rw [hticket]; exact hq)]
    exact h.published_eq
  · show taken s.hist =
      (List.range (takes s.hist)).map (update (payload s.hist) (writeTicket s.hist b) msg)
    rw [map_payload_update (by rw [hticket]; exact htakes.trans hq)]
    exact h.taken_eq

/-- What is published is the message of the next ticket. -/
theorem Stored.publish (h : Stored N s.mem s.hist) (hr : RingInv N s) {i : ℕ}
    (hmove : writeHelper (s.threads t).pc = .move i) (hi : s.mem.writeEnd = i) {m' : MemBuff}
    (hm : m'.blocks = s.mem.blocks) :
    Stored N m' (.publish i (s.mem.blocks i).contents :: s.hist) := by
  have hslot : publishes s.hist % N = i := hr.cursors.writeEnd.symm.trans hi
  have hposted : posted s.hist (publishes s.hist) = true :=
    hr.write.move_fin (t := t) (show writeHelper _ = .move (publishes s.hist % N) by
      rw [hslot]; exact hmove)
  obtain ⟨-, -, hcontents⟩ := h.of_posted hr hposted (hr.open_of_takes_le hr.takes_le)
  refine ⟨h.ticket, fun b hb => ?_, h.posted_loaded, ?_, h.taken_eq⟩
  · rw [hm]
    exact h.contents b hb
  · show published s.hist ++ [(s.mem.blocks i).contents] =
      (List.range (publishes s.hist + 1)).map (payload s.hist)
    rw [List.range_succ, List.map_append, h.published_eq, ← hslot, hcontents, List.map_singleton]

/-- What is taken is the message of the next ticket. -/
theorem Stored.take (h : Stored N s.mem s.hist) (hr : RingInv N s)
    (hlt : takes s.hist < publishes s.hist) {i : ℕ} (hi : s.mem.readStart = i) {m' : MemBuff}
    (hm : m'.blocks = s.mem.blocks) :
    Stored N m' (.take i (s.mem.blocks i).contents :: s.hist) := by
  have hslot : takes s.hist % N = i := hr.cursors.readStart.symm.trans hi
  obtain ⟨-, -, hcontents⟩ := h.of_posted hr (hr.posted_of_lt hlt) (hr.open_of_takes_le le_rfl)
  refine ⟨h.ticket, fun b hb => ?_, h.posted_loaded, h.published_eq, ?_⟩
  · rw [hm]
    exact h.contents b hb
  · show taken s.hist ++ [(s.mem.blocks i).contents] =
      (List.range (takes s.hist + 1)).map (payload s.hist)
    rw [List.range_succ, List.map_append, h.taken_eq, ← hslot, hcontents, List.map_singleton]

/-- Posting a loaded block. -/
theorem Stored.post (h : Stored N s.mem s.hist) (hr : RingInv N s) {b : ℕ}
    (hheld : b ∈ (s.threads t).heldWrite) (hb : loaded s.hist b = true) {m' : MemBuff}
    (hsame : ∀ i, (m'.blocks i).contents = (s.mem.blocks i).contents) :
    Stored N m' (.setDoneWrite b :: s.hist) := by
  obtain ⟨q, -, -, hslot, hticket⟩ := hr.held_write hheld
  refine ⟨h.ticket, fun i hi => (hsame i).trans (h.contents i hi), fun p hp => ?_, h.published_eq,
    h.taken_eq⟩
  simp only [posted, Bool.or_eq_true, beq_iff_eq] at hp
  rcases hp with rfl | hp
  · rw [hticket, hslot]
    exact .inr hb
  · exact h.posted_loaded p hp

/-- A reader gives up a block it holds, and with it the message of its take. -/
theorem Stored.giveUp (h : Stored N s.mem s.hist) (hr : RingInv N s) {b : ℕ}
    (hheld : b ∈ (s.threads t).heldRead) {m' : MemBuff}
    (hsame : ∀ i, (m'.blocks i).contents = (s.mem.blocks i).contents) :
    Stored N m' (.setDoneRead b :: s.hist) := by
  obtain ⟨q, hq, hq', hslot, hticket, hopen⟩ := hr.held_read hheld
  have hloaded : ∀ i, loaded (.setDoneRead b :: s.hist) i = true →
      i ≠ b ∧ loaded s.hist i = true := by
    intro i hi
    by_cases hib : i = b
    · simp only [loaded, if_pos hib] at hi
      cases hi
    · exact ⟨hib, by simpa only [loaded, if_neg hib] using hi⟩
  refine ⟨fun i hi => ?_, fun i hi => ?_, fun p hp => ?_, h.published_eq, h.taken_eq⟩
  · obtain ⟨hib, hi⟩ := hloaded i hi
    obtain ⟨hlt, hslot', hopen'⟩ := h.ticket i hi
    refine ⟨hlt, hslot', ?_⟩
    have hne : writeTicket s.hist i ≠ q := fun heq => hib (by rw [← hslot', heq, hslot])
    show (writeTicket s.hist i == readTicket s.hist b || returned s.hist (writeTicket s.hist i)) =
      false
    rw [hopen', hticket, Bool.or_false]
    simpa using hne
  · exact (hsame i).trans (h.contents i (hloaded i hi).2)
  · simp only [returned, Bool.or_eq_true, beq_iff_eq, loaded]
    rcases h.posted_loaded p hp with hret | hl
    · exact .inl (.inr hret)
    · by_cases hpb : p % N = b
      · left
        by_cases hret : returned s.hist p = true
        · exact .inr hret
        · left
          -- two open tickets with the slot of `b` are the same
          have htakes := hr.takes_le
          have hpublishes := hr.publishes_le
          rw [hticket]
          exact hr.eq_of_slot (hr.retires_le_of_open (by simpa using hret))
            (hr.claimed_of_posted hp).le hq (by omega) (hpb.trans hslot.symm)
      · exact .inr (by rw [if_neg hpb]; exact hl)

/-- A block's load changes only by a `write` that stores `Amount` and a reader that gives it up. -/
theorem CodeStep.loaded {m : MemBuff} (h : CodeStep blockSize wait w m pc m' o mk) (hist : List Mark)
    (i : ℕ) :
    loaded (mk.toList ++ hist) i = loaded hist i ∨
      (∃ pBuff dwAmount, pc = .storeAmount pBuff dwAmount i) ∨
      ∃ k, pc = .returnBlock k (.set i) := by
  cases h with
  | storeAmount pBuff dwAmount b =>
      by_cases hib : i = b
      · exact .inr (.inl ⟨_, _, by rw [hib]⟩)
      · exact .inl (if_neg hib)
  | setDoneRead k b =>
      by_cases hib : i = b
      · exact .inr (.inr ⟨_, by rw [hib]⟩)
      · exact .inl (if_neg hib)
  | _ => exact .inl rfl

/-- Every access keeps what the blocks hold. -/
theorem Intact.stored_step (h : Intact N s) (hr : RingInv N s) (htake : FreshTake s (t, .run w))
    (hclear : ClearInTime s (t, .run w)) (hpc : (s.threads t).pc = some pc)
    (hcode : CodeStep blockSize wait w s.mem pc m' o mk) : Stored N m' (mk.toList ++ s.hist) := by
  have hfilled := h.filled t pc hpc
  have hframe : ∀ i, loaded s.hist i = true →
      (m'.blocks i).contents = (s.mem.blocks i).contents := fun i hi =>
    Block.contents_eq (h.frame hpc hcode hclear hi).1 (h.frame hpc hcode hclear hi).2
  cases hcode with
  | claim k i hi => exact h.stored.claim hr (hi.symm.trans hr.cursors.writeStart) rfl
  | storeAmount pBuff dwAmount b =>
      obtain ⟨-, hdata⟩ := hfilled
      refine h.stored.fill hr ((hr.wf t).writing b (by rw [hpc]; rfl)) ?_ fun i hi => ?_
      · simp only [MemBuff.setBlock, update_self, Block.contents]
        exact List.map_congr_left fun k hk => hdata k (List.mem_range.mp hk)
      · simp only [MemBuff.setBlock, update_of_ne hi]
  | setDoneWrite k b =>
      refine h.stored.post hr ((hr.wf t).writing b (by rw [hpc]; rfl)) hfilled fun i => ?_
      refine s.mem.get_setBlock Block.contents ?_ i
      exact fun _ => rfl
  | publish k i hi => exact h.stored.publish hr (t := t) (by rw [hpc]; rfl) hi rfl
  | take k i hi => exact h.stored.take hr (hr.message_of_fresh htake (takes_of_pc hpc hi)) hi rfl
  | setDoneRead k b =>
      refine h.stored.giveUp hr ((hr.wf t).reading b (by rw [hpc]; rfl)) fun i => ?_
      refine s.mem.get_setBlock Block.contents ?_ i
      exact fun _ => rfl
  | _ =>
      exact ⟨h.stored.ticket, fun b hb => (hframe b hb).trans (h.stored.contents b hb),
        h.stored.posted_loaded, h.stored.published_eq, h.stored.taken_eq⟩

/-- A thread finds its own progress after each of its accesses. -/
theorem Intact.filled_self (h : Intact N s) (hr : RingInv N s) (hpc : (s.threads t).pc = some pc)
    (hcode : CodeStep blockSize wait w s.mem pc m' o mk) {pc' : Pc} (ho : o.pc = some pc') :
    pc'.Filled m' (mk.toList ++ s.hist) := by
  have hfilled := h.filled t pc hpc
  cases hcode with
  | claim k i hi =>
      cases k with
      | holder => cases ho
      | write pBuff amount =>
          obtain rfl := Option.some.inj ho
          refine ⟨?_, Nat.zero_le _, fun k hk => absurd hk (Nat.not_lt_zero k)⟩
          rw [← hi, hr.cursors.writeStart]
          exact h.stored.start_not_loaded hr
  | copyIn pBuff dwAmount b done hlt =>
      obtain rfl := Option.some.inj ho
      obtain ⟨hl, -, hdata⟩ := hfilled
      refine ⟨hl, hlt, fun k hk => ?_⟩
      simp only [MemBuff.setBlock, update_self]
      rcases Nat.lt_succ_iff_lt_or_eq.mp hk with hk | rfl
      · rw [update_of_ne (by omega)]
        exact hdata k hk
      · rw [update_self]
  | copiedIn pBuff dwAmount b done hge =>
      obtain rfl := Option.some.inj ho
      obtain ⟨hl, -, hdata⟩ := hfilled
      exact ⟨hl, fun k hk => hdata k (by omega)⟩
  | storeAmount pBuff dwAmount b =>
      obtain rfl := Option.some.inj ho
      exact if_pos rfl
  | leavePost k => cases k <;> cases ho; trivial
  | timeoutWrite k => cases k <;> cases ho
  | emptyReturn k => cases k <;> cases ho
  | timeoutRead k => cases k <;> cases ho
  | take k => cases k <;> cases ho; trivial
  | leaveReturn k => cases k <;> cases ho <;> trivial
  | increment => cases ho
  | decrement => cases ho
  | _ =>
      obtain rfl := Option.some.inj ho
      trivial

/-- A thread's progress is not disturbed by another thread. -/
theorem Intact.filled_other (h : Intact N s) (hr : RingInv N s) (hpc : (s.threads t).pc = some pc)
    (hcode : CodeStep blockSize wait w s.mem pc m' o mk) {u : ι} (hu : u ≠ t) {pc' : Pc}
    (hu' : (s.threads u).pc = some pc') : pc'.Filled m' (mk.toList ++ s.hist) := by
  have hfilled := h.filled u pc' hu'
  have hload : ∀ i, i ∈ (s.threads u).heldWrite →
      loaded (mk.toList ++ s.hist) i = loaded s.hist i := by
    intro i hi
    rcases hcode.loaded s.hist i with heq | ⟨_, _, rfl⟩ | ⟨_, rfl⟩
    · exact heq
    · exact absurd (hr.write.held_unique u t i hi ((hr.wf t).writing i (by rw [hpc]; rfl))) hu
    · exact (hr.held_disjoint hi ((hr.wf t).reading i (by rw [hpc]; rfl))).elim
  have hheld : ∀ i, pc'.writing = some i → i ∈ (s.threads u).heldWrite := fun i hi =>
    (hr.wf u).writing i (by rw [hu']; exact hi)
  cases pc' with
  | copyIn pBuff dwAmount b done =>
      have hb := hheld b rfl
      obtain ⟨hl, hle, hdata⟩ := hfilled
      refine ⟨(hload b hb).trans hl, hle, fun k hk => ?_⟩
      rw [hr.data_of_ne hpc hcode hu hb]
      exact hdata k hk
  | storeAmount pBuff dwAmount b =>
      have hb := hheld b rfl
      obtain ⟨hl, hdata⟩ := hfilled
      refine ⟨(hload b hb).trans hl, fun k hk => ?_⟩
      rw [hr.data_of_ne hpc hcode hu hb]
      exact hdata k hk
  | postBlock k p =>
      cases p with
      | set b => exact (hload b (hheld b rfl)).trans hfilled
      | _ => trivial
  | _ => trivial

end Steps

/-! ## Runs -/

/-- Threads call nothing but `write` and `read`. -/
def Config.OnlyStreams (cfg : Config ι) : Prop :=
  ∀ t c, cfg.calls t c = true → (∃ pBuff amount, c = .write pBuff amount) ∨
    ∃ buffSize ms, c = .read buffSize ms

theorem intact_start {cfg : Config ι} : Intact cfg.blockCount (start cfg) :=
  ⟨⟨nofun, nofun, nofun, rfl, rfl⟩, nofun⟩

/-- **Step lemma of the messages.** -/
theorem Intact.step [DecidableEq ι] {cfg : Config ι} (hcalls : cfg.OnlyStreams) {s s' : State ι}
    {a : ι × Choice} (h : Intact cfg.blockCount s) (hr : RingInv cfg.blockCount s)
    (htake : FreshTake s a) (hclear : ClearInTime s a) (hs : step cfg s a = some s') :
    Intact cfg.blockCount s' := by
  obtain ⟨t, ch⟩ := a
  rcases step_cases hs with ⟨c, rfl, hpc, hcall, -, rfl⟩ | ⟨w, pc, m', o, mk, rfl, hpc, hcode, rfl⟩
  · refine ⟨h.stored, forall_pc_update (fun u pc _ => h.filled u pc) fun pc hpc' => ?_⟩
    obtain rfl := Option.some.inj hpc'
    rcases hcalls t c hcall with ⟨_, _, rfl⟩ | ⟨_, _, rfl⟩ <;> trivial
  · exact ⟨h.stored_step hr htake hclear hpc hcode,
      forall_pc_update (fun u pc hut => h.filled_other hr hpc hcode hut)
        fun pc => h.filled_self hr hpc hcode⟩

/-- **Run lemma of the messages.** -/
theorem intact_of_reached [DecidableEq ι] {cfg : Config ι} (hN : 2 ≤ cfg.blockCount)
    (hcalls : cfg.OnlyStreams) {s : State ι}
    (h : Reached cfg (fun s a => Fresh s a ∧ ClearInTime s a) s) : Intact cfg.blockCount s :=
  h.invariant intact_start fun _ _ _ hreach hi hok hs =>
    hi.step hcalls (ringInv_of_reached hN (hreach.mono fun _ _ h => h.1)) hok.1.2 hok.2 hs

end AtomicMessageQueue
