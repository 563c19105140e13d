import AtomicMessageQueue.Lib.Shares
import AtomicMessageQueue.System.Delivery

/-! # The order of each writer

Writers claim blocks in one order, fill and post them in another, and are helped by each other, and still
what has been published of the messages of one writer is what that writer has stored first, in the order
in which it has stored them. Each reader copies out what it has taken in the order in which it has taken
it. So between any writer and any reader no message overtakes another.
-/

namespace AtomicMessageQueue

open Function Transition TicketRing Shares

variable {ι : Type*}

/-! ## Who has done what -/

/-- The threads that have made the claims and the takes, oldest first, and for each thread the messages
its `write` has stored and what its `read` has copied out. -/
structure Origins (ι : Type*) where
  writers : List ι
  readers : List ι
  stored : ι → List (List UInt8)
  copied : ι → List (ℕ × List UInt8)

/-- Nothing has been done. -/
def Origins.start : Origins ι where
  writers := []
  readers := []
  stored := fun _ => []
  copied := fun _ => []

section Sign

variable [DecidableEq ι]

/-- What is noted when a step of thread `t` leaves a mark. -/
def Origins.sign (n : Origins ι) (t : ι) : Option Mark → Origins ι
  | some (.claim _) => { n with writers := n.writers ++ [t] }
  | some (.fill _ msg) => { n with stored := update n.stored t (n.stored t ++ [msg]) }
  | some (.take _ _) => { n with readers := n.readers ++ [t] }
  | some (.copied buffSize bytes) =>
      { n with copied := update n.copied t (n.copied t ++ [(buffSize, bytes)]) }
  | _ => n

/-- The mark a scheduled step leaves. -/
def State.markOf (cfg : Config ι) (s : State ι) : ι × Choice → Option Mark
  | (_, .call _) => none
  | (t, .run w) =>
      match (s.threads t).pc with
      | none => none
      | some pc =>
          match codeStep cfg.blockSize cfg.wait w s.mem pc with
          | none => none
          | some (_, _, mark) => mark

/-- What is noted of a step. -/
def signed (cfg : Config ι) (p : State ι × Notes ι) (a : ι × Choice) (n : Origins ι) : Origins ι :=
  n.sign a.1 (p.1.markOf cfg a)

/-- The states reached, with the notes of the run and who has done what. -/
abbrev Signed (cfg : Config ι) (ok : State ι × Notes ι → ι × Choice → Prop) :
    (State ι × Notes ι) × Origins ι → Prop :=
  Reach (noted (noted (step cfg) note) (signed cfg)) (fun p a => ok p.1 a)
    ((start cfg, .start), .start)

omit [DecidableEq ι] in
theorem State.markOf_eq {cfg : Config ι} {s : State ι} {t : ι} {w : WaitEnd} {pc : Pc} {m' : MemBuff}
    {o : Out Pc Ret} {mk : Option Mark} (hpc : (s.threads t).pc = some pc)
    (hcode : CodeStep cfg.blockSize cfg.wait w s.mem pc m' o mk) : s.markOf cfg (t, .run w) = mk := by
  simp only [State.markOf, hpc, hcode.eq]

end Sign

/-! ## What a writer owes to the ring -/

/-- The block into which a `write` is about to store its message. -/
def Pc.fills : Pc → Option ℕ
  | .copyIn _ _ b _ => some b
  | .storeAmount _ _ b => some b
  | _ => none

/-- The claims as places that are reserved and filled. -/
def desk (s : State ι) (n : Origins ι) : Desk ι (List UInt8) where
  authors := n.writers
  value q := if filled s.hist q = true then some (payload s.hist q) else none
  due t := ((s.threads t).pc.bind Pc.fills).map (writeTicket s.hist)
  sent := n.stored

/-- Only `write` claims blocks. -/
def Pc.WritesOnly : Pc → Prop
  | .getBlockWrite k _ => k ≠ .holder
  | _ => True

/-- A mark of `write`: it has claimed a block or filled one. -/
def Mark.ofWrite : Option Mark → Bool
  | some (.claim _) => true
  | some (.fill _ _) => true
  | _ => false

section Code

variable {blockSize : ℕ} {wait : WaitStep} {w : WaitEnd} {m m' : MemBuff} {pc pc' : Pc}
  {o : Out Pc Ret} {mk : Option Mark} {b : ℕ}

theorem Pc.writing_of_fills (h : pc.fills = some b) : pc.writing = some b := by
  cases pc with
  | copyIn => exact h
  | storeAmount => exact h
  | _ => cases h

theorem Pc.WritesOnly.step (h : pc.WritesOnly) (hcode : CodeStep blockSize wait w m pc m' o mk)
    (ho : o.pc = some pc') : pc'.WritesOnly := by
  cases hcode with
  | claim k => cases k <;> cases ho; trivial
  | timeoutWrite k => cases k <;> cases ho
  | leavePost k => cases k <;> cases ho; trivial
  | emptyReturn k => cases k <;> cases ho
  | timeoutRead k => cases k <;> cases ho
  | take k => cases k <;> cases ho; trivial
  | leaveReturn k => cases k <;> cases ho <;> trivial
  | increment => cases ho
  | decrement => cases ho
  | _ =>
      obtain rfl := Option.some.inj ho
      exact h

/-- A `write` owes its message from its claim to the store of `Amount`. -/
theorem CodeStep.fills (hcode : CodeStep blockSize wait w m pc m' o mk) (h : pc.WritesOnly) :
    (∃ b, m.writeStart = b ∧ mk = some (.claim b) ∧ pc.fills = none ∧ o.pc.bind Pc.fills = some b) ∨
    (∃ b msg, mk = some (.fill b msg) ∧ pc.fills = some b ∧ o.pc.bind Pc.fills = none) ∨
    (Mark.ofWrite mk = false ∧ o.pc.bind Pc.fills = pc.fills) := by
  cases hcode with
  | claim k i hi =>
      cases k with
      | holder => exact absurd rfl h
      | write pBuff amount => exact .inl ⟨i, hi, rfl, rfl, rfl⟩
  | storeAmount pBuff dwAmount b => exact .inr (.inl ⟨b, _, rfl, rfl, rfl⟩)
  | timeoutWrite k => cases k <;> exact .inr (.inr ⟨rfl, rfl⟩)
  | leavePost k => cases k <;> exact .inr (.inr ⟨rfl, rfl⟩)
  | emptyReturn k => cases k <;> exact .inr (.inr ⟨rfl, rfl⟩)
  | timeoutRead k => cases k <;> exact .inr (.inr ⟨rfl, rfl⟩)
  | take k => cases k <;> exact .inr (.inr ⟨rfl, rfl⟩)
  | leaveReturn k => cases k <;> exact .inr (.inr ⟨rfl, rfl⟩)
  | _ => exact .inr (.inr ⟨rfl, rfl⟩)

end Code

/-! ## The invariant -/

/-- What a thread has done stands in the ring in its order. -/
structure Ordered (s : State ι) (n : Origins ι) [DecidableEq ι] : Prop where
  writesOnly : ∀ t pc, (s.threads t).pc = some pc → pc.WritesOnly
  writers : n.writers.length = claims s.hist
  fair : (desk s n).Fair
  readers : n.readers.length = (taken s.hist).length
  copies : ∀ t, ∃ ms, Copies (n.copied t) ms ∧
    share n.readers (taken s.hist) t = ms ++ (findingAt s.mem (s.threads t).pc).toList

section Step

variable [DecidableEq ι] {cfg : Config ι} {s s' : State ι} {n : Origins ι} {t : ι} {b : ℕ}
  {msg : List UInt8} {w : WaitEnd} {m' : MemBuff} {pc : Pc} {o : Out Pc Ret} {mk : Option Mark}
  {N : ℕ}

theorem ordered_start : Ordered (start cfg) (.start : Origins ι) where
  writesOnly _ _ h := by cases h
  writers := rfl
  fair := by
    refine ⟨fun _ _ h => ?_, fun _ _ h => ?_, fun _ _ => rfl, fun _ => rfl⟩
    · cases h
    · cases h
  readers := rfl
  copies _ := ⟨[], .nil, rfl⟩

/-- A claim reserves a place. -/
theorem desk_claim (hr : RingInv N s) (hclaims : n.writers.length = claims s.hist)
    (hb : s.mem.writeStart = b) {l : Local} (hl : l.pc.bind Pc.fills = some b) :
    desk { mem := m', threads := update s.threads t l, hist := .claim b :: s.hist }
      (n.sign t (some (.claim b))) = (desk s n).reserve t := by
  simp only [desk, Desk.reserve, Desk.mk.injEq]
  refine ⟨rfl, rfl, ?_, rfl⟩
  funext u
  by_cases hut : u = t
  · subst hut
    rw [update_self, update_self, hl, hclaims]
    exact congrArg some (update_self _ _ _)
  · rw [update_of_ne hut, update_of_ne hut]
    cases hu : (s.threads u).pc.bind Pc.fills with
    | none => rfl
    | some i =>
        obtain ⟨q, hq, hfills⟩ := Option.bind_eq_some_iff.mp hu
        have hheld := (hr.wf u).writing i (by rw [hq]; exact Pc.writing_of_fills hfills)
        have hib : i ≠ b := by
          rintro rfl
          rw [← hb, hr.cursors.writeStart] at hheld
          exact hr.write.start_not_held u hheld
        exact congrArg some (update_of_ne hib _ _)

/-- The store of `Amount` puts the message into its place. -/
theorem desk_fill {l : Local} (hl : l.pc.bind Pc.fills = none) :
    desk { mem := m', threads := update s.threads t l, hist := .fill b msg :: s.hist }
      (n.sign t (some (.fill b msg))) = (desk s n).put t (writeTicket s.hist b) msg := by
  simp only [desk, Desk.put, Desk.mk.injEq]
  refine ⟨rfl, ?_, ?_, rfl⟩
  · funext q
    simp only [filled, payload, Bool.or_eq_true, beq_iff_eq]
    by_cases hq : q = writeTicket s.hist b
    · rw [if_pos (.inl hq), hq, update_self, update_self]
    · simp only [hq, false_or, update_of_ne hq]
  · funext u
    by_cases hut : u = t
    · subst hut
      rw [update_self, update_self, hl, Option.map_none]
    · rw [update_of_ne hut, update_of_ne hut]
      rfl

/-- Other accesses leave the places alone. -/
theorem desk_same (hmk : Mark.ofWrite mk = false) {l : Local}
    (hl : l.pc.bind Pc.fills = (s.threads t).pc.bind Pc.fills) :
    desk { mem := m', threads := update s.threads t l, hist := mk.toList ++ s.hist }
      (n.sign t mk) = desk s n ∧ (n.sign t mk).writers = n.writers ∧
      claims (mk.toList ++ s.hist) = claims s.hist := by
  have hdue : (fun u => ((update s.threads t l u).pc.bind Pc.fills).map (writeTicket s.hist)) =
      fun u => ((s.threads u).pc.bind Pc.fills).map (writeTicket s.hist) := by
    funext u
    by_cases hut : u = t
    · subst hut
      rw [update_self, hl]
    · rw [update_of_ne hut]
  cases mk with
  | none => exact ⟨by simp only [desk, Desk.mk.injEq]; exact ⟨rfl, rfl, hdue, rfl⟩, rfl, rfl⟩
  | some mk =>
      cases mk with
      | claim => cases hmk
      | fill => cases hmk
      | _ => exact ⟨by simp only [desk, Desk.mk.injEq]; exact ⟨rfl, rfl, hdue, rfl⟩, rfl, rfl⟩

theorem Origins.sign_not_ofRead (hmk : Mark.ofRead mk = false) :
    (n.sign t mk).readers = n.readers ∧ (n.sign t mk).copied = n.copied := by
  cases mk with
  | none => exact ⟨rfl, rfl⟩
  | some mk =>
      cases mk with
      | take => cases hmk
      | copied => cases hmk
      | _ => exact ⟨rfl, rfl⟩

/-- What a thread takes and copies out does not count for the others. -/
theorem Origins.sign_of_ne {u : ι} (hut : u ≠ t) (hlen : n.readers.length = (taken s.hist).length) :
    (n.sign t mk).copied u = n.copied u ∧
      share (n.sign t mk).readers (taken (mk.toList ++ s.hist)) u =
        share n.readers (taken s.hist) u := by
  cases hmk : Mark.ofRead mk with
  | false =>
      obtain ⟨hreaders, hcopied⟩ := n.sign_not_ofRead hmk
      rw [hreaders, hcopied, (taken_of_not_ofRead hmk s.hist).1]
      exact ⟨rfl, rfl⟩
  | true =>
      match mk with
      | some (.take b c) =>
          refine ⟨rfl, ?_⟩
          show share (n.readers ++ [t]) (taken s.hist ++ [c]) u = _
          rw [share_snoc hlen, if_neg hut.symm, List.append_nil]
      | some (.copied k bytes) => exact ⟨update_of_ne hut _ _, rfl⟩

theorem Origins.sign_readers (hlen : n.readers.length = (taken s.hist).length) :
    (n.sign t mk).readers.length = (taken (mk.toList ++ s.hist)).length := by
  cases hmk : Mark.ofRead mk with
  | false => rw [(n.sign_not_ofRead hmk).1, (taken_of_not_ofRead hmk s.hist).1, hlen]
  | true =>
      match mk with
      | some (.take b c) =>
          show (n.readers ++ [t]).length = (taken s.hist ++ [c]).length
          rw [List.length_append, List.length_append, hlen, List.length_singleton,
            List.length_singleton]
      | some (.copied k bytes) => exact hlen

/-- The reads of a thread, as it takes a block and copies it out. -/
theorem copies_step (hcode : CodeStep cfg.blockSize cfg.wait w s.mem pc m' o mk)
    (hpc : (s.threads t).pc = some pc) (hcopying : pc.Copying s.mem)
    (hothers : ∀ u, u ≠ t → findingAt m' (s.threads u).pc = findingAt s.mem (s.threads u).pc)
    (hlen : n.readers.length = (taken s.hist).length)
    (h : ∀ u, ∃ ms, Copies (n.copied u) ms ∧
      share n.readers (taken s.hist) u = ms ++ (findingAt s.mem (s.threads u).pc).toList) (u : ι) :
    ∃ ms, Copies ((n.sign t mk).copied u) ms ∧
      share (n.sign t mk).readers (taken (mk.toList ++ s.hist)) u =
        ms ++ (findingAt m' (update s.threads t ((s.threads t).after o mk) u).pc).toList := by
  obtain ⟨ms, hcopies, hshare⟩ := h u
  by_cases hut : u = t
  · subst hut
    rw [hpc] at hshare
    rw [update_self]
    show ∃ ms, Copies ((n.sign u mk).copied u) ms ∧ share (n.sign u mk).readers
      (taken (mk.toList ++ s.hist)) u = ms ++ (findingAt m' o.pc).toList
    rcases hcode.finding hcopying with ⟨b, c, rfl, hold, hnew⟩ | ⟨k, c, hc, rfl, hold, hnew⟩ |
      ⟨hmk, hsame⟩
    · refine ⟨ms, hcopies, ?_⟩
      show share (n.readers ++ [u]) (taken s.hist ++ [c]) u = _
      rw [share_snoc hlen, if_pos rfl, hshare, hold, hnew, Option.toList_none, List.append_nil,
        Option.toList_some]
    · refine ⟨ms ++ [c], ?_, ?_⟩
      · show Copies (update n.copied u (n.copied u ++ [(k, c.take k)]) u) (ms ++ [c])
        rw [update_self]
        exact hcopies.append hc
      · show share n.readers (taken s.hist) u = _
        rw [hshare, hold, hnew, Option.toList_none, List.append_nil, Option.toList_some]
    · obtain ⟨hreaders, hcopied⟩ := n.sign_not_ofRead (t := u) hmk
      rw [hreaders, hcopied, (taken_of_not_ofRead hmk s.hist).1]
      rcases hsame with hsame | ⟨hold, hnew⟩
      · exact ⟨ms, hcopies, by rw [hshare, hsame]⟩
      · -- an empty message has been skipped
        refine ⟨ms ++ [[]], hcopies.skip, ?_⟩
        rw [hshare, hold, hnew, Option.toList_none, List.append_nil, Option.toList_some]
  · obtain ⟨hcopied, hshare'⟩ : (n.sign t mk).copied u = n.copied u ∧
        share (n.sign t mk).readers (taken (mk.toList ++ s.hist)) u =
          share n.readers (taken s.hist) u := n.sign_of_ne hut hlen
    refine ⟨ms, hcopied ▸ hcopies, ?_⟩
    rw [hshare', update_of_ne hut, hothers u hut]
    exact hshare

/-- The places, as a thread makes an access. -/
theorem Ordered.desk_step (h : Ordered s n) (hr : RingInv N s) (hpc : (s.threads t).pc = some pc)
    (hcode : CodeStep cfg.blockSize cfg.wait w s.mem pc m' o mk) :
    (n.sign t mk).writers.length = claims (mk.toList ++ s.hist) ∧
      (desk { mem := m', threads := update s.threads t ((s.threads t).after o mk),
              hist := mk.toList ++ s.hist } (n.sign t mk)).Fair := by
  have hdue : (desk s n).due t = pc.fills.map (writeTicket s.hist) := by
    simp only [desk, hpc, Option.bind_some]
  rcases hcode.fills (h.writesOnly t pc hpc) with ⟨b, hb, rfl, hold, hnew⟩ | ⟨b, msg, rfl, hold, hnew⟩ |
    ⟨hmk, hsame⟩
  · refine ⟨?_, ?_⟩
    · show (n.writers ++ [t]).length = claims s.hist + 1
      rw [List.length_append, List.length_singleton, h.writers]
    · rw [Option.toList_some, List.singleton_append, desk_claim hr h.writers hb hnew]
      exact h.fair.reserve (by rw [hdue, hold, Option.map_none])
  · refine ⟨h.writers, ?_⟩
    rw [Option.toList_some, List.singleton_append, desk_fill hnew]
    exact h.fair.put (by rw [hdue, hold, Option.map_some])
  · have hl : ((s.threads t).after o mk).pc.bind Pc.fills = (s.threads t).pc.bind Pc.fills := by
      rw [hpc]
      exact hsame
    obtain ⟨hdesk, hwriters, hclaims⟩ := desk_same hmk hl
    exact ⟨by rw [hwriters, hclaims, h.writers], hdesk ▸ h.fair⟩

/-- **Step lemma of the order.** -/
theorem Ordered.step [Fintype ι] {a : ι × Choice} (h : Ordered s n) (hcalls : cfg.OnlyStreams)
    (hr : RingInv cfg.blockCount s) (hi : Intact cfg.blockCount s) (hd : Delivered s)
    (hclear : ClearInTime s a) (hs : AtomicMessageQueue.step cfg s a = some s') :
    Ordered s' (n.sign a.1 (s.markOf cfg a)) := by
  obtain ⟨t, ch⟩ := a
  rcases step_cases hs with ⟨c, rfl, hpc, hcall, -, rfl⟩ | ⟨w, pc, m', o, mk, rfl, hpc, hcode, rfl⟩
  · have hfills : (some c.enter).bind Pc.fills = (s.threads t).pc.bind Pc.fills := by
      rw [hpc]
      cases c <;> rfl
    have hfinding : ∀ u, findingAt s.mem (update s.threads t
        { s.threads t with pc := some c.enter } u).pc = findingAt s.mem (s.threads u).pc := by
      intro u
      by_cases hut : u = t
      · subst hut
        rw [update_self, hpc]
        cases c <;> rfl
      · rw [update_of_ne hut]
    have hdesk : desk { s with threads := update s.threads t { s.threads t with pc := some c.enter } } n =
        desk s n := (desk_same (rfl : Mark.ofWrite none = false) hfills).1
    refine ⟨forall_pc_update (fun u pc _ => h.writesOnly u pc) fun pc hpc' => ?_, h.writers,
      hdesk ▸ h.fair, h.readers, fun u => ?_⟩
    · obtain rfl := Option.some.inj hpc'
      rcases hcalls t c hcall with ⟨_, _, rfl⟩ | ⟨_, _, rfl⟩
      · intro hk
        cases hk
      · trivial
    · obtain ⟨ms, hcopies, hshare⟩ := h.copies u
      exact ⟨ms, hcopies, hshare.trans (by rw [hfinding u])⟩
  · have hmark : s.markOf cfg (t, .run w) = mk := State.markOf_eq hpc hcode
    rw [hmark]
    have hwrites := h.writesOnly t pc hpc
    obtain ⟨hwriters, hdesk⟩ := h.desk_step hr hpc hcode
    exact ⟨forall_pc_update (fun u pc _ => h.writesOnly u pc) fun pc' hpc' => hwrites.step hcode hpc',
      hwriters, hdesk, n.sign_readers h.readers, copies_step hcode hpc (hd.copying t pc hpc)
        (fun u _ => hi.finding_of_ne hr hpc hcode hclear u) h.readers h.copies⟩

end Step

/-! ## What holds of every run -/

section Runs

variable [DecidableEq ι] [Fintype ι] {cfg : Config ι} {p : (State ι × Notes ι) × Origins ι}

/-- **Run lemma of the order.** -/
theorem ordered_of_signed (hN : 2 ≤ cfg.blockCount) (hcalls : cfg.OnlyStreams)
    (h : Signed cfg (InTime cfg.blockCount) p) :
    Reached cfg (fun s a => Fresh s a ∧ ClearInTime s a) p.1.1 ∧ Ordered p.1.1 p.2 := by
  have hfresh : ∀ {p}, Signed cfg (InTime cfg.blockCount) p →
      Reached cfg (fun s a => Fresh s a ∧ ClearInTime s a) p.1.1 := by
    intro p hp
    have hlaps : Noted cfg (fun p a => InLap cfg.blockCount p a ∧ ClearInTime p.1 a) p.1 :=
      hp.forget fun _ _ h => h
    exact fresh_of_inLap hN hlaps
  refine ⟨hfresh h, ?_⟩
  refine h.invariant (I := fun p => Ordered p.1.1 p.2) ordered_start ?_
  rintro p a p' hreach hi hok hs
  obtain ⟨hnoted, hsign⟩ := noted_eq_some.mp hs
  obtain ⟨hstep, -⟩ := noted_eq_some.mp hnoted
  have hplain := hfresh hreach
  rw [hsign]
  exact hi.step hcalls (ringInv_of_reached hN (hplain.mono fun _ _ h => h.1))
    (intact_of_reached hN hcalls hplain) (delivered_of_reached hN hcalls hplain) hok.2 hstep

/-- **No message overtakes another.** What has been published of a writer's messages is what it has stored
first, in its order; what has been taken is what has been published first; a reader copies out what it
takes in the order in which it takes it; and the messages that pass from a writer to a reader are in the
order of both. -/
theorem order_of_signed (hN : 2 ≤ cfg.blockCount) (hcalls : cfg.OnlyStreams)
    (h : Signed cfg (InTime cfg.blockCount) p) :
    taken p.1.1.hist <+: published p.1.1.hist ∧
    (∀ t, share p.2.writers (published p.1.1.hist) t <+: p.2.stored t) ∧
    (∀ u, ∃ ms, Copies (p.2.copied u) ms ∧ share p.2.readers (taken p.1.1.hist) u =
      ms ++ (findingAt p.1.1.mem (p.1.1.threads u).pc).toList) ∧
    ∀ t u, (exchange p.2.writers p.2.readers (taken p.1.1.hist) t u).Sublist (p.2.stored t) ∧
      (exchange p.2.writers p.2.readers (taken p.1.1.hist) t u).Sublist
        (share p.2.readers (taken p.1.1.hist) u) := by
  obtain ⟨hreached, hordered⟩ := ordered_of_signed hN hcalls h
  have hr := ringInv_of_reached hN (hreached.mono fun _ _ h => h.1)
  have hi := (intact_of_reached hN hcalls hreached).stored
  have hw := written_of_reached hN hcalls hreached
  have hstart : taken p.1.1.hist <+: published p.1.1.hist :=
    hi.take_published hr ▸ List.take_prefix _ _
  have hlen : (published p.1.1.hist).length = publishes p.1.1.hist := by
    rw [hi.published_eq, List.length_map, List.length_range]
  have hroom : (published p.1.1.hist).length ≤ p.2.writers.length := by
    rw [hlen, hordered.writers]
    exact hr.publishes_le
  have hsent : ∀ t, share p.2.writers (published p.1.1.hist) t <+: p.2.stored t := by
    refine fun t => hordered.fair.share_isPrefix hroom fun q hq => ?_
    rw [hlen] at hq
    have hfilled := hw.ofPosted q (hr.posted_of_lt hq)
    simp only [desk, hfilled, if_true, hi.published_eq, List.getElem?_map, List.getElem?_range hq,
      Option.map_some]
  have htaken := hstart.length_le.trans hroom
  exact ⟨hstart, hsent, hordered.copies, fun t u =>
    ⟨(exchange_sublist_writer hordered.readers.ge).trans
        ((share_isPrefix htaken hstart).trans (hsent t)).sublist,
      exchange_sublist_reader htaken⟩⟩

end Runs

/-- Thread 1 writes while thread 0 has claimed a block before it and not filled it; then thread 2 reads the
message of thread 0 and takes that of thread 1. -/
def crossing : List (Fin 3 × Choice) :=
  during 0 (.write letters 3) 4 ++ during 1 (.write letters 2) 11 ++ runs 0 18 ++
  during 2 (.read 4 1) 21 ++ during 2 (.read 4 1) 3

theorem order_of_signed_crossing :
    ∃ p, Signed (streams 3 3 2 waitForEvent) (InTime 3) p ∧
      taken p.1.1.hist = [[65, 66, 67], [65, 66]] ∧ p.2.stored 1 = [[65, 66]] ∧
      share p.2.writers (published p.1.1.hist) 1 <+: [[65, 66]] := by
  obtain ⟨p, hp, htaken, hstored⟩ : ∃ p, Signed (streams 3 3 2 waitForEvent) (InTime 3) p ∧
      taken p.1.1.hist = [[65, 66, 67], [65, 66]] ∧ p.2.stored 1 = [[65, 66]] :=
    Reach.exists_of_run crossing (by decide +kernel)
  obtain ⟨-, hsent, -⟩ := order_of_signed (by decide) streams_onlyStreams hp
  exact ⟨p, hp, htaken, hstored, hstored ▸ hsent 1⟩

end AtomicMessageQueue
