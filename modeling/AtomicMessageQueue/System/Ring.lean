import AtomicMessageQueue.System.Sides

/-! # The ring invariant

As long as no CAS of `get_block_write` succeeds on a full ring and no CAS of `get_block_read` on an
empty one, the four cursors keep their order around the ring,
`retires ≤ takes ≤ publishes ≤ claims < retires + N`, whatever stale indices the helpers in
`post_block` and `return_block` act on.
-/

namespace AtomicMessageQueue

open Function Transition TicketRing

variable {ι : Type*}

/-! ## Conditions on a step -/

/-- The step is the CAS of `get_block_write` that hands out block `i`. -/
def State.Claims (s : State ι) (a : ι × Choice) (i : ℕ) : Prop := writeView.actOf s a = .grant i

/-- The step is the CAS of `get_block_read` that hands out block `i`. -/
def State.Takes (s : State ι) (a : ι × Choice) (i : ℕ) : Prop := readView.actOf s a = .grant i

instance (s : State ι) (a : ι × Choice) (i : ℕ) : Decidable (s.Claims a i) :=
  inferInstanceAs (Decidable (_ = _))

instance (s : State ι) (a : ι × Choice) (i : ℕ) : Decidable (s.Takes a i) :=
  inferInstanceAs (Decidable (_ = _))

/-- When a writer's CAS succeeds, the room test it made before still passes. -/
def FreshClaim (s : State ι) (a : ι × Choice) : Prop :=
  ∀ i, s.Claims a i → (s.mem.blocks i).next ≠ s.mem.readEnd

/-- When a reader's CAS succeeds, the emptiness test it made before still passes. -/
def FreshTake (s : State ι) (a : ι × Choice) : Prop :=
  ∀ i, s.Takes a i → i ≠ s.mem.writeEnd

/-- Both CASes act on tests that still hold. -/
def Fresh (s : State ι) (a : ι × Choice) : Prop :=
  FreshClaim s a ∧ FreshTake s a

instance (s : State ι) (a : ι × Choice) : Decidable (FreshClaim s a) :=
  (writeView.actOf s a).decidableForallGrant _

instance (s : State ι) (a : ι × Choice) : Decidable (FreshTake s a) :=
  (readView.actOf s a).decidableForallGrant _

instance (s : State ι) (a : ι × Choice) : Decidable (Fresh s a) := inferInstanceAs (Decidable (_ ∧ _))

theorem State.Claims.inv {s : State ι} {a : ι × Choice} {i : ℕ} (h : s.Claims a i) :
    ∃ w k, a.2 = .run w ∧ (s.threads a.1).pc = some (.getBlockWrite k (.cas i)) ∧
      s.mem.writeStart = i := by
  obtain ⟨t, c | w⟩ := a
  · cases h
  · simp only [State.Claims, View.actOf] at h
    split at h
    next => cases h
    next pc hpc =>
      simp only [writeView, writeAct] at h
      split at h <;> first
        | cases h
        | (split at h <;> cases h <;> exact ⟨w, _, rfl, hpc, ‹_›⟩)

theorem State.Takes.inv {s : State ι} {a : ι × Choice} {i : ℕ} (h : s.Takes a i) :
    ∃ w k, a.2 = .run w ∧ (s.threads a.1).pc = some (.getBlockRead k (.cas i)) ∧
      s.mem.readStart = i := by
  obtain ⟨t, c | w⟩ := a
  · cases h
  · simp only [State.Takes, View.actOf] at h
    split at h
    next => cases h
    next pc hpc =>
      simp only [readView, readAct] at h
      split at h <;> first
        | cases h
        | (split at h <;> cases h <;> exact ⟨w, _, rfl, hpc, ‹_›⟩)

theorem claims_of_pc {s : State ι} {t : ι} {w : WaitEnd} {k : WriteCaller} {i : ℕ}
    (hpc : (s.threads t).pc = some (.getBlockWrite k (.cas i))) (hi : s.mem.writeStart = i) :
    s.Claims (t, .run w) i := by
  simp only [State.Claims, View.actOf, hpc, writeView, writeAct, if_pos hi]

theorem takes_of_pc {s : State ι} {t : ι} {w : WaitEnd} {k : ReadCaller} {i : ℕ}
    (hpc : (s.threads t).pc = some (.getBlockRead k (.cas i))) (hi : s.mem.readStart = i) :
    s.Takes (t, .run w) i := by
  simp only [State.Takes, View.actOf, hpc, readView, readAct, if_pos hi]

/-! ## The invariant -/

/-- The order of the cursors around the ring, with both sides of it well formed. A block holds an
unread message exactly when one of the open published tickets has its slot. -/
structure RingInv (N : ℕ) (s : State ι) : Prop where
  cursors : Cursors N s
  wf : ∀ t, (s.threads t).Wf
  write : Side.Inv N (writeView.side s)
  read : Side.Inv N (readView.side s)
  takes_le : takes s.hist ≤ publishes s.hist
  room : claims s.hist < retires s.hist + N
  unread_iff : ∀ i, unread s.hist i = true ↔
    ∃ q, takes s.hist ≤ q ∧ q < publishes s.hist ∧ q % N = i

section Order

variable {N : ℕ} {s : State ι}

theorem RingInv.retires_le (h : RingInv N s) : retires s.hist ≤ takes s.hist := h.read.fin_le

theorem RingInv.publishes_le (h : RingInv N s) : publishes s.hist ≤ claims s.hist := h.write.fin_le

theorem RingInv.pos (h : RingInv N s) : 0 < N := by
  have := h.room
  have := h.retires_le
  have := h.takes_le
  have := h.publishes_le
  omega

theorem RingInv.posted_of_lt (h : RingInv N s) {q : ℕ} (hq : q < publishes s.hist) :
    posted s.hist q = true := h.write.done_of_lt q hq

theorem RingInv.claimed_of_posted (h : RingInv N s) {q : ℕ} (hq : posted s.hist q = true) :
    q < claims s.hist := h.write.done_lt q hq

theorem RingInv.taken_of_returned (h : RingInv N s) {q : ℕ} (hq : returned s.hist q = true) :
    q < takes s.hist := h.read.done_lt q hq

/-- A take that has not been returned has not been retired. -/
theorem RingInv.retires_le_of_open (h : RingInv N s) {q : ℕ} (hq : returned s.hist q = false) :
    retires s.hist ≤ q := by
  by_contra hlt
  have hret : returned s.hist q = true := h.read.done_of_lt q (not_le.mp hlt)
  rw [hq] at hret
  cases hret

/-- Tickets in the window from `retires` on are told apart by their slots. -/
theorem RingInv.eq_of_slot (h : RingInv N s) {p q : ℕ} (hp : retires s.hist ≤ p)
    (hp' : p ≤ claims s.hist) (hq : retires s.hist ≤ q) (hq' : q ≤ claims s.hist)
    (hpq : p % N = q % N) : p = q :=
  eq_of_mod_eq hp (hp'.trans_lt h.room) hq (hq'.trans_lt h.room) hpq

/-- The room test of `get_block_write` in ticket numbers. -/
theorem RingInv.room_iff (h : RingInv N s) :
    (s.mem.blocks s.mem.writeStart).next ≠ s.mem.readEnd ↔
      claims s.hist + 1 < retires s.hist + N := by
  rw [h.cursors.links.advance h.pos h.cursors.writeStart, h.cursors.readEnd]
  have hroom := h.room
  have hle : retires s.hist ≤ claims s.hist := h.retires_le.trans (h.takes_le.trans h.publishes_le)
  constructor
  · intro hne
    have : claims s.hist + 1 ≠ retires s.hist + N := by
      intro heq
      rw [heq, Nat.add_mod_right] at hne
      exact hne rfl
    omega
  · intro hlt hmod
    have := eq_of_mod_eq (a := retires s.hist) (N := N) (by omega) hlt le_rfl (by omega) hmod
    omega

/-- The emptiness test of `get_block_read` in ticket numbers. -/
theorem RingInv.message_iff (h : RingInv N s) :
    s.mem.readStart ≠ s.mem.writeEnd ↔ takes s.hist < publishes s.hist := by
  rw [h.cursors.readStart, h.cursors.writeEnd]
  have hle := h.takes_le
  constructor
  · intro hne
    have : takes s.hist ≠ publishes s.hist := fun heq => hne (by rw [heq])
    omega
  · intro hlt hmod
    have := h.eq_of_slot h.retires_le (hle.trans h.publishes_le) (h.retires_le.trans hle)
      h.publishes_le hmod
    omega

/-- A claim on a test that still holds leaves a block between the cursors. -/
theorem RingInv.room_of_fresh (h : RingInv N s) {a : ι × Choice} {i : ℕ} (hfresh : FreshClaim s a)
    (hi : s.Claims a i) : claims s.hist + 1 < retires s.hist + N := by
  obtain ⟨w, k, -, -, rfl⟩ := hi.inv
  exact h.room_iff.mp (hfresh _ hi)

/-- A take on a test that still holds has a published block before it. -/
theorem RingInv.message_of_fresh (h : RingInv N s) {a : ι × Choice} {i : ℕ}
    (hfresh : FreshTake s a) (hi : s.Takes a i) : takes s.hist < publishes s.hist := by
  obtain ⟨w, k, -, -, rfl⟩ := hi.inv
  exact h.message_iff.mp (hfresh _ hi)

/-- A block claimed next holds no unread message. -/
theorem RingInv.not_unread_start (h : RingInv N s) : unread s.hist (claims s.hist % N) = false := by
  have hne : ¬ unread s.hist (claims s.hist % N) = true := by
    rw [h.unread_iff]
    rintro ⟨q, hq, hq', hslot⟩
    have := h.retires_le
    have := h.takes_le
    have := h.publishes_le
    have heq := h.eq_of_slot (by omega) (by omega) (by omega) le_rfl hslot
    omega
  simpa using hne

/-- A block held by a reader has a ticket from `retires` on. -/
theorem RingInv.held_read (h : RingInv N s) {t : ι} {b : ℕ} (hb : b ∈ (s.threads t).heldRead) :
    ∃ q, retires s.hist ≤ q ∧ q < takes s.hist ∧ q % N = b ∧ readTicket s.hist b = q ∧
      returned s.hist q = false := by
  refine ⟨readTicket s.hist b, h.read.held_fin t b hb, h.read.held_start t b hb,
    h.read.held_slot t b hb, rfl, ?_⟩
  by_contra hne
  exact h.read.held_open t b hb (show returned s.hist (readTicket s.hist b) = true by simpa using hne)

/-- A block held by a writer has an unpublished ticket. -/
theorem RingInv.held_write (h : RingInv N s) {t : ι} {b : ℕ} (hb : b ∈ (s.threads t).heldWrite) :
    ∃ q, publishes s.hist ≤ q ∧ q < claims s.hist ∧ q % N = b ∧ writeTicket s.hist b = q :=
  ⟨writeTicket s.hist b, h.write.held_fin t b hb, h.write.held_start t b hb,
    h.write.held_slot t b hb, rfl⟩

/-- No block is held by a writer and a reader at once. -/
theorem RingInv.held_disjoint (h : RingInv N s) {t u : ι} {b : ℕ}
    (hw : b ∈ (s.threads t).heldWrite) (hr : b ∈ (s.threads u).heldRead) : False := by
  obtain ⟨p, hp, hp', hps, -⟩ := h.held_write hw
  obtain ⟨q, hq, hq', hqs, -⟩ := h.held_read hr
  have := h.retires_le
  have := h.takes_le
  have heq := h.eq_of_slot (by omega) (by omega) hq (by omega) (hps.trans hqs.symm)
  omega

/-- No reader holds the block to be claimed next, unless the ring is full. -/
theorem RingInv.start_not_read (h : RingInv N s) {t : ι} :
    claims s.hist % N ∉ (s.threads t).heldRead := by
  intro hb
  obtain ⟨q, hq, hq', hslot, -⟩ := h.held_read hb
  have := h.retires_le
  have := h.takes_le
  have := h.publishes_le
  have heq := h.eq_of_slot hq (by omega) (by omega) le_rfl hslot
  omega

end Order

/-- Nothing has happened yet on the write side of the initial state. -/
theorem writeSide_fresh {cfg : Config ι} (hN : 2 ≤ cfg.blockCount) :
    Side.Fresh (writeView.side (start cfg)) := by
  refine ⟨rfl, rfl, fun _ => Bool.false_ne_true, fun i => ?_, fun _ => rfl, fun _ => rfl⟩
  show ((create cfg.blockCount).blocks i).doneWrite ≠ 1
  rw [(create_block hN i).2.1]
  decide

/-- Nothing has happened yet on the read side of the initial state. -/
theorem readSide_fresh {cfg : Config ι} (hN : 2 ≤ cfg.blockCount) :
    Side.Fresh (readView.side (start cfg)) := by
  refine ⟨rfl, rfl, fun _ => Bool.false_ne_true, fun i => ?_, fun _ => rfl, fun _ => rfl⟩
  show ((create cfg.blockCount).blocks i).doneRead ≠ 1
  rw [(create_block hN i).1]
  decide

/-- The initial state satisfies the ring invariant. -/
theorem ringInv_start {cfg : Config ι} (hN : 2 ≤ cfg.blockCount) :
    RingInv cfg.blockCount (start cfg) := by
  refine ⟨cursors_start hN, fun t => ⟨nofun, nofun⟩, .of_fresh (by omega) (writeSide_fresh hN),
    .of_fresh (by omega) (readSide_fresh hN), le_rfl, ?_, ?_⟩
  · show 0 < 0 + cfg.blockCount
    omega
  · intro i
    refine ⟨nofun, ?_⟩
    rintro ⟨q, -, hq, -⟩
    exact absurd hq (Nat.not_lt_zero q)

/-- Publishing makes the block at `m_writeEnd` unread. -/
theorem RingInv.unread_publish {N : ℕ} {s : State ι} (h : RingInv N s) {b : ℕ}
    (hslot : b = publishes s.hist % N) (i : ℕ) :
    (if i = b then true else unread s.hist i) = true ↔
      ∃ q, takes s.hist ≤ q ∧ q < publishes s.hist + 1 ∧ q % N = i := by
  have htakes := h.takes_le
  split
  next hib =>
    refine ⟨fun _ => ⟨publishes s.hist, htakes, by omega, ?_⟩, fun _ => rfl⟩
    rw [hib, hslot]
  next hib =>
    rw [h.unread_iff i]
    constructor
    · rintro ⟨q, hq, hq', hqi⟩
      exact ⟨q, hq, by omega, hqi⟩
    · rintro ⟨q, hq, hq', hqi⟩
      have hne : q ≠ publishes s.hist := by
        rintro rfl
        exact hib (hqi.symm.trans hslot.symm)
      exact ⟨q, hq, by omega, hqi⟩

/-- Taking the block at `m_readStart` leaves the other blocks unread. -/
theorem RingInv.unread_take {N : ℕ} {s : State ι} (h : RingInv N s) {b : ℕ}
    (hslot : b = takes s.hist % N) (i : ℕ) :
    (if i = b then false else unread s.hist i) = true ↔
      ∃ q, takes s.hist + 1 ≤ q ∧ q < publishes s.hist ∧ q % N = i := by
  have hretires := h.retires_le
  have hpublishes := h.publishes_le
  have hroom := h.room
  split
  next hib =>
    -- a later ticket with the same slot would be a whole round ahead, beyond the claims
    refine ⟨nofun, ?_⟩
    rintro ⟨q, hq, hq', hqi⟩
    have heq := h.eq_of_slot (p := q) (q := takes s.hist) (by omega) (by omega) hretires
      (by omega) (by rw [hqi, hib, hslot])
    omega
  next hib =>
    rw [h.unread_iff i]
    constructor
    · rintro ⟨q, hq, hq', hqi⟩
      have hne : q ≠ takes s.hist := by
        rintro rfl
        exact hib (hqi.symm.trans hslot.symm)
      exact ⟨q, by omega, hq', hqi⟩
    · rintro ⟨q, hq, hq', hqi⟩
      exact ⟨q, by omega, hq', hqi⟩

/-- A claim takes the block at `m_writeStart`, which holds no unread message. -/
theorem RingInv.unread_claim {N : ℕ} {s : State ι} (h : RingInv N s) {b : ℕ}
    (hslot : b = claims s.hist % N) (i : ℕ) :
    (if i = b then false else unread s.hist i) = true ↔
      ∃ q, takes s.hist ≤ q ∧ q < publishes s.hist ∧ q % N = i := by
  split
  next hib =>
    rw [hib, hslot, ← h.not_unread_start]
    exact h.unread_iff _
  next => exact h.unread_iff i

section Run

variable [DecidableEq ι] {cfg : Config ι} {s s' : State ι} {a : ι × Choice}

/-- A step whose claim acts on a room test that still holds keeps the write side. -/
theorem RingInv.write_step (h : RingInv cfg.blockCount s) (hclaim : FreshClaim s a)
    (hs : step cfg s a = some s') : Side.Inv cfg.blockCount (writeView.side s') := by
  obtain ⟨hen, heq⟩ := writeSide_step h.cursors (h.wf a.1) hs
  rw [heq]
  refine h.write.apply hen fun b hb => ?_
  have hroom := h.room_of_fresh hclaim hb
  have hretires := h.retires_le
  have htakes := h.takes_le
  show claims s.hist + 1 < publishes s.hist + _
  omega

/-- A step whose take acts on an emptiness test that still holds keeps the read side. -/
theorem RingInv.read_step (h : RingInv cfg.blockCount s) (htake : FreshTake s a)
    (hs : step cfg s a = some s') : Side.Inv cfg.blockCount (readView.side s') := by
  obtain ⟨hen, heq⟩ := readSide_step h.cursors (h.wf a.1) hs
  rw [heq]
  refine h.read.apply hen fun b hb => ?_
  have hmessage := h.message_of_fresh htake hb
  have hroom := h.room
  have hpublishes := h.publishes_le
  show takes s.hist + 1 < retires s.hist + _
  omega

/-- **Step lemma of the ring.** A step whose CASes act on tests that still hold keeps the ring
invariant. -/
theorem RingInv.step (h : RingInv cfg.blockCount s) (hfresh : Fresh s a)
    (hs : step cfg s a = some s') : RingInv cfg.blockCount s' := by
  obtain ⟨t, ch⟩ := a
  obtain ⟨hclaim, htake⟩ := hfresh
  have hcur : Cursors cfg.blockCount s' := h.cursors.step h.pos hs
  have hwf := wf_step h.wf hs
  have hwrite := h.write_step hclaim hs
  have hread := h.read_step htake hs
  have htakes := h.takes_le
  have hroom := h.room
  have hunread := h.unread_iff
  rcases step_cases hs with ⟨c, -, -, -, -, rfl⟩ | ⟨w, pc, m', o, mk, rfl, hpc, hcode, rfl⟩
  · exact ⟨hcur, hwf, hwrite, hread, htakes, hroom, hunread⟩
  · -- only the CASes on the cursors count; each moves one of them by one
    cases hcode with
    | claim k i hi =>
        have hlt := h.room_of_fresh hclaim (claims_of_pc hpc hi)
        exact ⟨hcur, hwf, hwrite, hread, htakes, hlt,
          h.unread_claim (hi.symm.trans h.cursors.writeStart)⟩
    | publish k i hi =>
        exact ⟨hcur, hwf, hwrite, hread, Nat.le_succ_of_le htakes, hroom,
          h.unread_publish (hi.symm.trans h.cursors.writeEnd)⟩
    | take k i hi =>
        have hlt := h.message_of_fresh htake (takes_of_pc hpc hi)
        exact ⟨hcur, hwf, hwrite, hread, hlt, hroom,
          h.unread_take (hi.symm.trans h.cursors.readStart)⟩
    | retire k i hi =>
        refine ⟨hcur, hwf, hwrite, hread, htakes, ?_, hunread⟩
        show claims s.hist < retires s.hist + 1 + _
        omega
    | _ => exact ⟨hcur, hwf, hwrite, hread, htakes, hroom, hunread⟩

/-- **Run lemma of the ring.** The ring invariant holds in every state of every run whose CASes act on
tests that still hold. -/
theorem ringInv_of_reached (hN : 2 ≤ cfg.blockCount)
    (h : Reached cfg Fresh s) : RingInv cfg.blockCount s :=
  h.invariant (ringInv_start hN) fun _ _ _ _ hi hok hs => hi.step hok hs

end Run

end AtomicMessageQueue
