import AtomicMessageQueue.System.Contention

/-! # How late a thread may be

The tests of `get_block_write` and `get_block_read` go stale only while the cursor they load goes round
the whole ring between the load and the CAS. So the ring is safe for any number of writers and readers,
whatever methods they use, as long as no successful CAS comes a round of the ring after its load.
-/

namespace AtomicMessageQueue

open Function Transition TicketRing Attempts

variable {ι : Type*}

/-- A thread whose CAS on a leading cursor succeeds has not been overtaken by a whole round of the ring
since it loaded the cursor. -/
def InLap (N : ℕ) (p : State ι × Notes ι) (a : ι × Choice) : Prop :=
  (∀ i, p.1.Claims a i → p.2.write.since a.1 < N) ∧ ∀ i, p.1.Takes a i → p.2.read.since a.1 < N

instance (N : ℕ) (p : State ι × Notes ι) (a : ι × Choice) : Decidable (InLap N p a) :=
  @instDecidableAnd _ _ ((writeView.actOf p.1 a).decidableForallGrant _)
    ((readView.actOf p.1 a).decidableForallGrant _)

/-- A thread that has made its test and not been overtaken since its load would still pass it. -/
def Pc.Tested (N : ℕ) (h : List Mark) (n : Notes ι) (t : ι) : Pc → Prop
  | .getBlockWrite _ (.cas _) => n.write.since t = 0 → claims h + 1 < retires h + N
  | .getBlockRead _ (.cas _) => n.read.since t = 0 → takes h < publishes h
  | _ => True

/-- Every test that has been made and not been overtaken would still pass. -/
def Tested (N : ℕ) (p : State ι × Notes ι) : Prop :=
  ∀ t pc, (p.1.threads t).pc = some pc → pc.Tested N p.1.hist p.2 t

section Stale

variable {N : ℕ} {p : State ι × Notes ι} {a : ι × Choice} {i : ℕ}

/-- A stale room test has been overtaken by whole rounds. -/
theorem Tested.stale_claim (h : Tested N p) (hr : RingInv N p.1)
    (hraced : writeGate.Raced N p.1 p.2.write) (hclaim : p.1.Claims a i) :
    (p.1.mem.blocks i).next ≠ p.1.mem.readEnd ∨
      0 < p.2.write.since a.1 ∧ N ∣ p.2.write.since a.1 := by
  obtain ⟨w, k, -, hpc, hi⟩ := hclaim.inv
  have hdvd : N ∣ p.2.write.since a.1 := by
    refine hraced.sees.dvd_since hraced.paid (t := a.1) (v := i) ?_ ?_
    · show writeSeen (p.1.threads a.1).pc = some i
      rw [hpc]
      rfl
    · rw [← hi, hr.cursors.writeStart, hraced.moves]
      rfl
  rcases Nat.eq_zero_or_pos (p.2.write.since a.1) with hzero | hpos
  · exact .inl (hi ▸ hr.room_iff.mpr (h _ _ hpc hzero))
  · exact .inr ⟨hpos, hdvd⟩

/-- A stale emptiness test has been overtaken by whole rounds. -/
theorem Tested.stale_take (h : Tested N p) (hr : RingInv N p.1)
    (hraced : readGate.Raced N p.1 p.2.read) (htake : p.1.Takes a i) :
    i ≠ p.1.mem.writeEnd ∨ 0 < p.2.read.since a.1 ∧ N ∣ p.2.read.since a.1 := by
  obtain ⟨w, k, -, hpc, hi⟩ := htake.inv
  have hdvd : N ∣ p.2.read.since a.1 := by
    refine hraced.sees.dvd_since hraced.paid (t := a.1) (v := i) ?_ ?_
    · show readSeen (p.1.threads a.1).pc = some i
      rw [hpc]
      rfl
    · rw [← hi, hr.cursors.readStart, hraced.moves]
      rfl
  rcases Nat.eq_zero_or_pos (p.2.read.since a.1) with hzero | hpos
  · exact .inl (hi ▸ hr.message_iff.mpr (h _ _ hpc hzero))
  · exact .inr ⟨hpos, hdvd⟩

/-- A step whose CAS comes within a round of its load acts on a test that still passes. -/
theorem Tested.fresh (h : Tested N p) (hr : RingInv N p.1)
    (hwrite : writeGate.Raced N p.1 p.2.write) (hread : readGate.Raced N p.1 p.2.read)
    (hlap : InLap N p a) : Fresh p.1 a := by
  constructor
  · intro i hclaim
    rcases h.stale_claim hr hwrite hclaim with hfresh | ⟨hpos, hdvd⟩
    · exact hfresh
    · exact absurd (Nat.le_of_dvd hpos hdvd) (not_le.mpr (hlap.1 i hclaim))
  · intro i htake
    rcases h.stale_take hr hread htake with hfresh | ⟨hpos, hdvd⟩
    · exact hfresh
    · exact absurd (Nat.le_of_dvd hpos hdvd) (not_le.mpr (hlap.2 i htake))

end Stale

/-! ## The ring and its races -/

/-- The ring, with every test in it, and the races for its leading cursors. -/
structure Turning (N : ℕ) (p : State ι × Notes ι) : Prop where
  ring : RingInv N p.1
  tested : Tested N p
  write : writeGate.Raced N p.1 p.2.write
  read : readGate.Raced N p.1 p.2.read

section Turning

variable {N : ℕ} {p : State ι × Notes ι} {a : ι × Choice}

theorem Turning.fresh (h : Turning N p) (hlap : InLap N p a) :
    Fresh p.1 a :=
  h.tested.fresh h.ring h.write h.read hlap

/-- The cursors keep their order, a claim hands out a block that nobody holds and that has no unread
message, a take hands out one that has, and no block has two holders. -/
structure SafeRing (N : ℕ) (p : State ι × Notes ι) : Prop where
  retires_le : retires p.1.hist ≤ takes p.1.hist
  takes_le : takes p.1.hist ≤ publishes p.1.hist
  publishes_le : publishes p.1.hist ≤ claims p.1.hist
  room : claims p.1.hist < retires p.1.hist + N
  claimed : ∀ a i, p.1.Claims a i → unread p.1.hist i = false ∧
    ∀ t, i ∉ (p.1.threads t).heldWrite ∧ i ∉ (p.1.threads t).heldRead
  taken : ∀ a i, InLap N p a → p.1.Takes a i → unread p.1.hist i = true
  heldWrite : ∀ t u b, b ∈ (p.1.threads t).heldWrite → b ∉ (p.1.threads u).heldRead ∧
    (b ∈ (p.1.threads u).heldWrite → t = u)
  heldRead : ∀ t u b, b ∈ (p.1.threads t).heldRead → b ∈ (p.1.threads u).heldRead → t = u

theorem Turning.safe (h : Turning N p) : SafeRing N p where
  retires_le := h.ring.retires_le
  takes_le := h.ring.takes_le
  publishes_le := h.ring.publishes_le
  room := h.ring.room
  claimed := by
    intro a i hclaim
    obtain ⟨w, k, -, -, hi⟩ := hclaim.inv
    rw [← hi, h.ring.cursors.writeStart]
    exact ⟨h.ring.not_unread_start, fun t =>
      ⟨h.ring.write.start_not_held t, h.ring.start_not_read⟩⟩
  taken := by
    intro a i hlap htake
    have hlt := h.ring.message_of_fresh (h.fresh hlap).2 htake
    obtain ⟨w, k, -, -, hi⟩ := htake.inv
    rw [h.ring.unread_iff]
    exact ⟨takes p.1.hist, le_rfl, hlt, h.ring.cursors.readStart.symm.trans hi⟩
  heldWrite := fun t u b hb =>
    ⟨fun hb' => h.ring.held_disjoint hb hb', fun hb' => h.ring.write.held_unique t u b hb hb'⟩
  heldRead := fun t u b hb hb' => h.ring.read.held_unique t u b hb hb'

end Turning

section Step

variable [DecidableEq ι] {cfg : Config ι} {s s' : State ι} {n : Notes ι} {a : ι × Choice} {t u : ι}
  {pc : Pc}

/-- A step of another thread leaves a test as good as it was, or overtakes it. -/
theorem Pc.Tested.other {N : ℕ} (h : pc.Tested N s.hist n u) (hu : u ≠ a.1)
    (hs : step cfg s a = some s') : pc.Tested N s'.hist (note s a n) u := by
  have hclaims : claims s'.hist = claims s.hist + if writeGate.attemptOf s a = .win then 1 else 0 :=
    writeGate_lawful.moves_step hs
  have htakes : takes s'.hist = takes s.hist + if readGate.attemptOf s a = .win then 1 else 0 :=
    readGate_lawful.moves_step hs
  obtain ⟨-, -, hpublishes, hretires⟩ := counts_step hs
  unfold Pc.Tested at h ⊢
  split at h
  next =>
    intro hsince
    simp only [note, Race.since_of_ne _ hu] at hsince
    have := h (by omega)
    omega
  next =>
    intro hsince
    simp only [note, Race.since_of_ne _ hu] at hsince
    have := h (by omega)
    omega
  next => trivial

/-- **Step lemma of the tests.** -/
theorem Tested.step (h : Tested cfg.blockCount (s, n)) (hr : RingInv cfg.blockCount s)
    (hwrite : writeGate.Raced cfg.blockCount s n.write)
    (hread : readGate.Raced cfg.blockCount s n.read) (hs : step cfg s a = some s') :
    Tested cfg.blockCount (s', note s a n) := by
  have hother : ∀ u pc, u ≠ a.1 → (s.threads u).pc = some pc →
      pc.Tested cfg.blockCount s'.hist (note s a n) u := fun u pc hu hpc => (h u pc hpc).other hu hs
  obtain ⟨t, ch⟩ := a
  rcases step_cases hs with ⟨c, rfl, -, -, -, rfl⟩ | ⟨w, pc, m', o, mk, rfl, hpc, hcode, rfl⟩
  · refine forall_pc_update hother fun pc hpc => ?_
    obtain rfl := Option.some.inj hpc
    cases c <;> trivial
  · refine forall_pc_update hother fun pc' hpc' => ?_
    -- only the two tests bring a thread to a CAS
    cases hcode with
    | room k i hi =>
        obtain rfl := Option.some.inj hpc'
        intro hsince
        have hidle : writeGate.attemptOf s (t, .run w) = .idle := by
          simp only [Gate.attemptOf, hpc]; rfl
        simp only [note, hidle] at hsince
        have hsees : i = (n.write.moves - n.write.since t) % cfg.blockCount :=
          hwrite.sees t i (by show writeSeen (s.threads t).pc = some i; rw [hpc]; rfl)
        rw [show n.write.since t = 0 from hsince, Nat.sub_zero, hwrite.moves] at hsees
        have hstart : i = s.mem.writeStart := hsees.trans hr.cursors.writeStart.symm
        exact hr.room_iff.mp (hstart ▸ hi)
    | message k i hi =>
        obtain rfl := Option.some.inj hpc'
        intro hsince
        have hidle : readGate.attemptOf s (t, .run w) = .idle := by
          simp only [Gate.attemptOf, hpc]; rfl
        simp only [note, hidle] at hsince
        have hsees : i = (n.read.moves - n.read.since t) % cfg.blockCount :=
          hread.sees t i (by show readSeen (s.threads t).pc = some i; rw [hpc]; rfl)
        rw [show n.read.since t = 0 from hsince, Nat.sub_zero, hread.moves] at hsees
        have hstart : i = s.mem.readStart := hsees.trans hr.cursors.readStart.symm
        exact hr.message_iff.mp (hstart ▸ hi)
    | timeoutWrite k => cases k <;> cases hpc'
    | claim k => cases k <;> cases hpc'; trivial
    | leavePost k => cases k <;> cases hpc'; trivial
    | emptyReturn k => cases k <;> cases hpc'
    | timeoutRead k => cases k <;> cases hpc'
    | take k => cases k <;> cases hpc'; trivial
    | leaveReturn k => cases k <;> cases hpc' <;> trivial
    | increment => cases hpc'
    | decrement => cases hpc'
    | _ =>
        obtain rfl := Option.some.inj hpc'
        trivial

/-! ## What holds of every run -/

theorem turning_start (hN : 2 ≤ cfg.blockCount) : Turning cfg.blockCount (start cfg, .start) := by
  have hinit : Noted cfg anyStep (start cfg, .start) := .init
  obtain ⟨hwrite, hread⟩ := raced_of_noted hN hinit
  refine ⟨ringInv_start hN, fun _ _ h => ?_, hwrite, hread⟩
  cases h

/-- **Step lemma of a ring in which no CAS comes a round after its load.** -/
theorem Turning.step (h : Turning cfg.blockCount (s, n)) (hlap : InLap cfg.blockCount (s, n) a)
    (hs : step cfg s a = some s') : Turning cfg.blockCount (s', note s a n) where
  ring := h.ring.step (h.fresh hlap) hs
  tested := h.tested.step h.ring h.write h.read hs
  write := h.write.step writeGate_lawful h.ring.cursors.writeStart hs
  read := h.read.step readGate_lawful h.ring.cursors.readStart hs

variable {p : State ι × Notes ι}

/-- **Run lemma.** -/
theorem turning_of_inLap (hN : 2 ≤ cfg.blockCount) (h : Noted cfg (InLap cfg.blockCount) p) :
    Turning cfg.blockCount p := by
  refine h.invariant (turning_start hN) ?_
  rintro ⟨s, n⟩ a ⟨s', n'⟩ - hturning hlap hs
  obtain ⟨hstep, rfl⟩ := noted_eq_some.mp hs
  exact hturning.step hlap hstep

/-- The CASes of such a run act on tests that still hold. -/
theorem fresh_of_inLap (hN : 2 ≤ cfg.blockCount) {ok : State ι → ι × Choice → Prop}
    (h : Noted cfg (fun p a => InLap cfg.blockCount p a ∧ ok p.1 a) p) :
    Reached cfg (fun s a => Fresh s a ∧ ok s a) p.1 := by
  refine h.invariant (I := fun p => Reached cfg (fun s a => Fresh s a ∧ ok s a) p.1) .init ?_
  rintro p a p' hreach hfresh ⟨hlap, hok⟩ hs
  have hturning := turning_of_inLap hN (hreach.mono fun _ _ h => h.1)
  exact .step hfresh ⟨hturning.fresh hlap, hok⟩ (noted_eq_some.mp hs).1

/-- **Any number of threads.** As long as no CAS on a leading cursor succeeds a round of the ring after its
load, the cursors keep their order, a claim hands out a block that nobody holds and that has no unread
message, a take hands out one that has, and no block has two holders. -/
theorem inLap_safe (hN : 2 ≤ cfg.blockCount) (h : Noted cfg (InLap cfg.blockCount) p) :
    (retires p.1.hist ≤ takes p.1.hist ∧ takes p.1.hist ≤ publishes p.1.hist ∧
      publishes p.1.hist ≤ claims p.1.hist ∧
      claims p.1.hist < retires p.1.hist + cfg.blockCount) ∧
    (∀ a i, p.1.Claims a i → unread p.1.hist i = false ∧
      ∀ t, i ∉ (p.1.threads t).heldWrite ∧ i ∉ (p.1.threads t).heldRead) ∧
    (∀ a i, InLap cfg.blockCount p a → p.1.Takes a i → unread p.1.hist i = true) ∧
    (∀ t u b, b ∈ (p.1.threads t).heldWrite → b ∉ (p.1.threads u).heldRead ∧
      (b ∈ (p.1.threads u).heldWrite → t = u)) ∧
    ∀ t u b, b ∈ (p.1.threads t).heldRead → b ∈ (p.1.threads u).heldRead → t = u := by
  have hsafe := (turning_of_inLap hN h).safe
  exact ⟨⟨hsafe.retires_le, hsafe.takes_le, hsafe.publishes_le, hsafe.room⟩, hsafe.claimed,
    hsafe.taken, hsafe.heldWrite, hsafe.heldRead⟩

end Step

/-! One message has been read, a second waits, and thread 0 is about to claim the last block: -/

theorem inLap_safe_third :
    ∃ p, Noted (holders 2 3 1) (InLap 3) p ∧ p.1.Claims (0, .run .wake) 2 ∧
      unread p.1.hist 2 = false ∧ ∀ t, 2 ∉ (p.1.threads t).heldWrite := by
  obtain ⟨p, hp, hclaim⟩ : ∃ p, Noted (holders 2 3 1) (InLap 3) p ∧ p.1.Claims (0, .run .wake) 2 :=
    Reach.exists_of_run third (by decide +kernel)
  obtain ⟨-, hclaims, -⟩ := inLap_safe (by decide) hp
  obtain ⟨hunread, hheld⟩ := hclaims _ _ hclaim
  exact ⟨p, hp, hclaim, hunread, fun t => (hheld t).1⟩

end AtomicMessageQueue
