import AtomicMessageQueue.System.Ring

/-! # Who may touch a block

`get_block_write` and `get_block_read` test a cursor first and move another one later, by a CAS that
compares ring indices only. A thread suspended in between can act on its test after the ring has gone
round. `claims_lt` and `takes_le_publishes` keep the cursors in order as long as that does not happen;
together with the ring invariant they say who holds a block that is handed out. The schedules at the
end of each section show the ring lapped and overtaken in a ring of two blocks.
-/

namespace AtomicMessageQueue

open Function Transition TicketRing

variable {ι : Type*} [DecidableEq ι]

/-! ## Counting moves of the cursors -/

/-- The cursors are the numbers of their moves modulo the ring size, in every run. -/
theorem cursors_of_reached {cfg : Config ι} (hN : 2 ≤ cfg.blockCount)
    {ok : State ι → ι × Choice → Prop} {s : State ι} (h : Reached cfg ok s) :
    Cursors cfg.blockCount s :=
  h.invariant (ringInv_start hN).cursors fun _ _ _ _ hi _ hs => hi.step (by omega) hs

/-- A step moves `m_writeStart` only by a claim, and no cursor backwards. -/
theorem counts_step {cfg : Config ι} {s s' : State ι} {a : ι × Choice}
    (hs : step cfg s a = some s') :
    (claims s'.hist = claims s.hist ∨
      (claims s'.hist = claims s.hist + 1 ∧ s.Claims a s.mem.writeStart)) ∧
    (takes s'.hist = takes s.hist ∨
      (takes s'.hist = takes s.hist + 1 ∧ s.Takes a s.mem.readStart)) ∧
    publishes s.hist ≤ publishes s'.hist ∧ retires s.hist ≤ retires s'.hist := by
  obtain ⟨t, ch⟩ := a
  rcases step_cases hs with ⟨c, rfl, -, -, -, rfl⟩ | ⟨w, pc, m', o, mk, rfl, hpc, hcode, rfl⟩
  · exact ⟨.inl rfl, .inl rfl, le_rfl, le_rfl⟩
  · cases hcode with
    | claim k i hi =>
        subst hi
        exact ⟨.inr ⟨rfl, claims_of_pc hpc rfl⟩, .inl rfl, le_rfl, le_rfl⟩
    | take k i hi =>
        subst hi
        exact ⟨.inl rfl, .inr ⟨rfl, takes_of_pc hpc rfl⟩, le_rfl, le_rfl⟩
    | publish k i hi => exact ⟨.inl rfl, .inl rfl, Nat.le_succ _, le_rfl⟩
    | retire k i hi => exact ⟨.inl rfl, .inl rfl, le_rfl, Nat.le_succ _⟩
    | _ => exact ⟨.inl rfl, .inl rfl, le_rfl, le_rfl⟩

/-- While every claim acts on a room test that still passes, fewer than `N` claims are unretired. -/
theorem claims_lt {cfg : Config ι} (hN : 2 ≤ cfg.blockCount) {s : State ι}
    (h : Reached cfg FreshClaim s) : claims s.hist < retires s.hist + cfg.blockCount := by
  refine h.invariant (I := fun s => claims s.hist < retires s.hist + cfg.blockCount)
    (ringInv_start hN).room fun s a s' hreach ih hok hs => ?_
  have hcur := cursors_of_reached hN hreach
  obtain ⟨hclaims, -, -, hretires⟩ := counts_step hs
  rcases hclaims with heq | ⟨heq, hclaim⟩
  · omega
  · have hne := hok _ hclaim
    rw [hcur.links.advance (by omega) hcur.writeStart, hcur.readEnd] at hne
    have hroom : claims s.hist + 1 ≠ retires s.hist + cfg.blockCount := by
      intro hfull
      rw [hfull, Nat.add_mod_right] at hne
      exact hne rfl
    omega

/-- While every take acts on an emptiness test that still passes, no take is ahead of the
publications. -/
theorem takes_le_publishes {cfg : Config ι} (hN : 2 ≤ cfg.blockCount) {s : State ι}
    (h : Reached cfg FreshTake s) : takes s.hist ≤ publishes s.hist := by
  refine h.invariant (I := fun s => takes s.hist ≤ publishes s.hist) le_rfl
    fun s a s' hreach ih hok hs => ?_
  have hcur := cursors_of_reached hN hreach
  obtain ⟨-, htakes, hpublishes, -⟩ := counts_step hs
  rcases htakes with heq | ⟨heq, htake⟩
  · omega
  · have hne := hok _ htake
    rw [hcur.readStart, hcur.writeEnd] at hne
    have hmessage : takes s.hist ≠ publishes s.hist := fun h => hne (by rw [h])
    omega

/-- Two messages in a ring of three blocks, the first read; a writer is about to claim block 2 and a
reader to take block 1. -/
def third : List (Fin 2 × Choice) :=
  posting 0 0 9 ++ posting 0 1 7 ++ returning 1 0 10 ++ during 0 .getBlockWrite 2 ++
  during 1 (.getBlockRead 1) 2

/-! ## Claims -/

/-- **`m_writeStart` does not lap `m_readEnd`** in any run whose claims act on room tests that still
pass. If takes act on emptiness tests that still pass too, a claim never hands out a block with an
unread message, nor one a reader still holds. -/
theorem writeStart_no_lap {cfg : Config ι} (hN : 2 ≤ cfg.blockCount) {s : State ι}
    (h : Reached cfg FreshClaim s) :
    claims s.hist ≤ retires s.hist + (cfg.blockCount - 1) ∧
      (Reached cfg Fresh s → ∀ a i, s.Claims a i →
        unread s.hist i = false ∧ ∀ t, i ∉ (s.threads t).heldRead) := by
  refine ⟨?_, fun hfresh a i hclaim => ?_⟩
  · have := claims_lt hN h
    omega
  · have hinv := ringInv_of_reached hN hfresh
    obtain ⟨w, k, -, -, hi⟩ := hclaim.inv
    rw [← hi, hinv.cursors.writeStart]
    exact ⟨hinv.not_unread_start, fun t => hinv.start_not_read⟩

theorem writeStart_no_lap_third :
    ∃ s, Reached (holders 2 3 1) Fresh s ∧ s.Claims (0, .run .wake) 2 ∧
      claims s.hist ≤ retires s.hist + (3 - 1) ∧ unread s.hist 2 = false ∧
      ∀ t, 2 ∉ (s.threads t).heldRead := by
  obtain ⟨s, hs, hclaim⟩ : ∃ s, Reached (holders 2 3 1) Fresh s ∧ s.Claims (0, .run .wake) 2 :=
    Reach.exists_of_run third (by decide +kernel)
  have hN : 2 ≤ (holders 2 3 1).blockCount := by decide
  obtain ⟨hle, hfresh⟩ := writeStart_no_lap hN (hs.mono fun _ _ h => h.1)
  exact ⟨s, hs, hclaim, hle, hfresh hs _ _ hclaim⟩

/-- A claim on a stale room test fills the whole ring: the next block to claim is the oldest one that
has not been retired. -/
theorem lap_of_stale_claim {cfg : Config ι} (hN : 2 ≤ cfg.blockCount) {s s' : State ι}
    {a : ι × Choice} (h : Reached cfg Fresh s) (hstale : ¬ FreshClaim s a)
    (hs : step cfg s a = some s') : claims s'.hist = retires s'.hist + cfg.blockCount := by
  have hinv := ringInv_of_reached hN h
  simp only [FreshClaim, not_forall, not_not] at hstale
  obtain ⟨i, hclaim, hfull⟩ := hstale
  obtain ⟨v, k, hv, hpc, hi⟩ := hclaim.inv
  obtain ⟨t, ch⟩ := a
  rcases step_cases hs with ⟨c, rfl, -, -, -, rfl⟩ | ⟨w, pc, m', o, mk, -, hpc', hcode, rfl⟩
  · cases hv
  · obtain rfl : pc = .getBlockWrite k (.cas i) := Option.some.inj (hpc'.symm.trans hpc)
    cases hcode with
    | claimLost _ _ hne => exact absurd hi hne
    | claim _ _ _ =>
        show claims s.hist + 1 = retires s.hist + cfg.blockCount
        rw [hinv.cursors.links.advance hinv.pos (hi.symm.trans hinv.cursors.writeStart),
          hinv.cursors.readEnd] at hfull
        -- both positions lie in the window of length `N` that starts after `retires`
        have hslot : (claims s.hist + 1) % cfg.blockCount =
            (retires s.hist + cfg.blockCount) % cfg.blockCount := by
          rw [hfull, Nat.add_mod_right]
        have := hinv.room
        have := hinv.retires_le
        have := hinv.takes_le
        have := hinv.publishes_le
        exact eq_of_mod_eq (a := retires s.hist + 1) (by omega) (by omega) (by omega) (by omega)
          hslot

/-- While thread 0 is suspended before its CAS on block 0, the ring of two blocks goes round once. -/
def lap : List (Fin 3 × Choice) :=
  during 0 .getBlockWrite 2 ++ posting 1 0 9 ++ returning 2 0 10 ++ posting 1 1 9 ++ runs 0 1 ++
  during 1 .getBlockWrite 2

/-- `m_writeStart` laps `m_readEnd`, and the claim of thread 1 is about to hand out a block whose
message nobody has read. -/
theorem writeStart_laps :
    ∃ s, Reached (holders 3 2 2) anyStep s ∧ retires s.hist + (2 - 1) < claims s.hist ∧
      s.Claims (1, .run .wake) 1 ∧ unread s.hist 1 = true :=
  Reach.exists_of_run lap (by decide +kernel)

/-! ## Takes -/

/-- **`m_readStart` does not pass `m_writeEnd`** in any run whose takes act on emptiness tests that
still pass. If claims act on room tests that still pass too, a block that is taken has been published
since its latest claim and not been taken since, and a block a reader holds is published and held by no
writer. -/
theorem readStart_no_overtake {cfg : Config ι} (hN : 2 ≤ cfg.blockCount) {s : State ι}
    (h : Reached cfg FreshTake s) :
    takes s.hist ≤ publishes s.hist ∧
      (Reached cfg Fresh s →
        (∀ a i, FreshTake s a → s.Takes a i → unread s.hist i = true) ∧
        ∀ t b, b ∈ (s.threads t).heldRead →
          writeTicket s.hist b < publishes s.hist ∧ ∀ u, b ∉ (s.threads u).heldWrite) := by
  refine ⟨takes_le_publishes hN h, fun hfresh => ⟨fun a i hok htake => ?_, fun t b hb => ⟨?_, ?_⟩⟩⟩
  · have hinv := ringInv_of_reached hN hfresh
    have hlt := hinv.message_of_fresh hok htake
    obtain ⟨w, k, -, -, hi⟩ := htake.inv
    rw [hinv.unread_iff]
    exact ⟨takes s.hist, le_rfl, hlt, hinv.cursors.readStart.symm.trans hi⟩
  · have hinv := ringInv_of_reached hN hfresh
    obtain ⟨q, hq, hq', hslot, -⟩ := hinv.held_read hb
    have := hinv.takes_le
    have := hinv.publishes_le
    have := hinv.room
    have hticket := hinv.cursors.writeTicket q (by omega) (by omega)
    rw [← hslot, hticket]
    omega
  · intro u hu
    exact (ringInv_of_reached hN hfresh).held_disjoint hu hb

theorem readStart_no_overtake_third :
    ∃ s, Reached (holders 2 3 1) Fresh s ∧ FreshTake s (1, .run .wake) ∧
      s.Takes (1, .run .wake) 1 ∧ takes s.hist ≤ publishes s.hist ∧ unread s.hist 1 = true := by
  obtain ⟨s, hs, hok, htake⟩ : ∃ s, Reached (holders 2 3 1) Fresh s ∧
      FreshTake s (1, .run .wake) ∧ s.Takes (1, .run .wake) 1 :=
    Reach.exists_of_run third (by decide +kernel)
  have hN : 2 ≤ (holders 2 3 1).blockCount := by decide
  obtain ⟨hle, hfresh⟩ := readStart_no_overtake hN (hs.mono fun _ _ h => h.2)
  exact ⟨s, hs, hok, htake, hle, (hfresh hs).1 _ _ hok htake⟩

/-- A take on a stale emptiness test moves `m_readStart` past `m_writeEnd`. -/
theorem overtake_of_stale_take {cfg : Config ι} (hN : 2 ≤ cfg.blockCount) {s s' : State ι}
    {a : ι × Choice} (h : Reached cfg Fresh s) (hstale : ¬ FreshTake s a)
    (hs : step cfg s a = some s') : takes s'.hist = publishes s'.hist + 1 := by
  have hinv := ringInv_of_reached hN h
  simp only [FreshTake, not_forall, not_not] at hstale
  obtain ⟨i, htake, hempty⟩ := hstale
  obtain ⟨v, k, hv, hpc, hi⟩ := htake.inv
  obtain ⟨t, ch⟩ := a
  rcases step_cases hs with ⟨c, rfl, -, -, -, rfl⟩ | ⟨w, pc, m', o, mk, -, hpc', hcode, rfl⟩
  · cases hv
  · obtain rfl : pc = .getBlockRead k (.cas i) := Option.some.inj (hpc'.symm.trans hpc)
    cases hcode with
    | takeLost _ _ hne => exact absurd hi hne
    | take _ _ _ =>
        show takes s.hist + 1 = publishes s.hist + 1
        have hslot : takes s.hist % cfg.blockCount = publishes s.hist % cfg.blockCount := by
          rw [← hinv.cursors.readStart, ← hinv.cursors.writeEnd, hi, hempty]
        have := hinv.takes_le
        have := hinv.publishes_le
        rw [hinv.eq_of_slot hinv.retires_le (by omega) (hinv.retires_le.trans hinv.takes_le)
          hinv.publishes_le hslot]

/-- Reader 2 is suspended before its CAS on block 0 while reader 3 reads two messages in a ring of two
blocks, so that the ring is empty again with `m_readStart` back at block 0. -/
def overtake : List (Fin 4 × Choice) :=
  posting 0 0 9 ++ during 2 (.getBlockRead 1) 2 ++ returning 3 0 10 ++ posting 0 1 9 ++
  returning 3 1 10

/-- Reader 2 is about to take a block without an unread message. After that `m_readStart` has passed
`m_writeEnd`, and the writer is handed the block reader 2 is holding. -/
theorem readStart_overtakes :
    (∃ s, Reached (holders 4 2 1) anyStep s ∧ s.Takes (2, .run .wake) 0 ∧
      unread s.hist 0 = false) ∧
    ∃ s, Reached (holders 4 2 1) anyStep s ∧ publishes s.hist < takes s.hist ∧
      0 ∈ (s.threads 2).heldRead ∧ 0 ∈ (s.threads 0).heldWrite :=
  ⟨Reach.exists_of_run overtake (by decide +kernel),
    Reach.exists_of_run (overtake ++ runs 2 1 ++ during 0 .getBlockWrite 3) (by decide +kernel)⟩

end AtomicMessageQueue
