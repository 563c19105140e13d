import AtomicMessageQueue.System.Laps

/-! # What a test says of the ring

`get_block_write` finds the ring full, and `get_block_read` finds it empty, by comparing a cursor they have
loaded before with the other side's cursor now. A thread that has been overtaken in between compares a
block far behind: how far it has been overtaken decides what it finds. A thread that has not been, and
gives up, has seen the ring as it says.
-/

namespace AtomicMessageQueue

open Function Transition TicketRing Attempts

variable {ι : Type*}

/-! ## A single test -/

section Test

variable {N : ℕ} {s : State ι} {r : Race ι} {t : ι} {i : ℕ}

theorem writeSeen_of_roomTest {pc : Option Pc} (h : roomTest pc = some i) : writeSeen pc = some i := by
  unfold roomTest at h
  split at h
  next => exact h
  next => cases h

theorem readSeen_of_emptinessTest {pc : Option Pc} (h : emptinessTest pc = some i) :
    readSeen pc = some i := by
  unfold emptinessTest at h
  split at h
  next => exact h
  next => cases h

/-- **The room test.** It fails if the blocks that are out, and one more, are as many as the claims since
the load, up to whole rounds. -/
theorem RingInv.full_iff_since (hr : RingInv N s) (hraced : writeGate.Raced N s r)
    (hpc : roomTest (s.threads t).pc = some i) :
    (s.mem.blocks i).next = s.mem.readEnd ↔
      claims s.hist - retires s.hist + 1 ≡ r.since t [MOD N] := by
  have hsees : i = (claims s.hist - r.since t) % N := by
    have := hraced.sees t i (writeSeen_of_roomTest hpc)
    rwa [hraced.moves] at this
  have hsince : r.since t ≤ claims s.hist := (hraced.paid.since_le t).trans_eq hraced.moves
  have hretires := hr.retires_le.trans (hr.takes_le.trans hr.publishes_le)
  rw [hr.cursors.links.advance hr.pos hsees, hr.cursors.readEnd]
  have hleft : claims s.hist - r.since t + 1 + r.since t = claims s.hist + 1 := by omega
  have hright : retires s.hist + (claims s.hist - retires s.hist + 1) = claims s.hist + 1 := by omega
  constructor
  · intro heq
    have hmod : claims s.hist - r.since t + 1 ≡ retires s.hist [MOD N] := heq
    refine Nat.ModEq.add_left_cancel' (retires s.hist) ?_
    calc retires s.hist + (claims s.hist - retires s.hist + 1)
        ≡ claims s.hist - r.since t + 1 + r.since t [MOD N] := by rw [hleft, hright]
      _ ≡ retires s.hist + r.since t [MOD N] := hmod.add_right _
  · intro heq
    show claims s.hist - r.since t + 1 ≡ retires s.hist [MOD N]
    refine Nat.ModEq.add_right_cancel' (r.since t) ?_
    calc claims s.hist - r.since t + 1 + r.since t
        ≡ retires s.hist + (claims s.hist - retires s.hist + 1) [MOD N] := by rw [hleft, hright]
      _ ≡ retires s.hist + r.since t [MOD N] := heq.add_left _

/-- **The emptiness test.** It fails if the messages that wait, and the takes since the load, make whole
rounds. -/
theorem RingInv.empty_iff_since (hr : RingInv N s) (hraced : readGate.Raced N s r)
    (hpc : emptinessTest (s.threads t).pc = some i) :
    i = s.mem.writeEnd ↔ N ∣ publishes s.hist - takes s.hist + r.since t := by
  have hsees : i = (takes s.hist - r.since t) % N := by
    have := hraced.sees t i (readSeen_of_emptinessTest hpc)
    rwa [hraced.moves] at this
  have hsince : r.since t ≤ takes s.hist := (hraced.paid.since_le t).trans_eq hraced.moves
  have htakes := hr.takes_le
  rw [hsees, hr.cursors.writeEnd]
  have hgap : publishes s.hist - takes s.hist + r.since t =
      publishes s.hist - (takes s.hist - r.since t) := by omega
  rw [hgap]
  exact Nat.modEq_iff_dvd' (by omega)

/-- With no claim since the load, or whole rounds of them, the room test tells whether the ring is full. -/
theorem RingInv.full_iff (hr : RingInv N s) (hraced : writeGate.Raced N s r)
    (hpc : roomTest (s.threads t).pc = some i) (hsince : N ∣ r.since t) :
    (s.mem.blocks i).next = s.mem.readEnd ↔ claims s.hist + 1 = retires s.hist + N := by
  have hretires := hr.retires_le.trans (hr.takes_le.trans hr.publishes_le)
  have hroom := hr.room
  have hzero : r.since t ≡ 0 [MOD N] := (Nat.modEq_zero_iff_dvd).mpr hsince
  rw [hr.full_iff_since hraced hpc]
  constructor
  · intro heq
    have hdvd : N ∣ claims s.hist - retires s.hist + 1 :=
      (Nat.modEq_zero_iff_dvd).mp (heq.trans hzero)
    have := Nat.le_of_dvd (Nat.succ_pos _) hdvd
    omega
  · intro heq
    have hall : claims s.hist - retires s.hist + 1 = N := by omega
    rw [hall]
    exact (Nat.modEq_zero_iff_dvd.mpr dvd_rfl).trans hzero.symm

/-- With no take since the load, or whole rounds of them, the emptiness test tells whether the ring is
empty. -/
theorem RingInv.empty_iff (hr : RingInv N s) (hraced : readGate.Raced N s r)
    (hpc : emptinessTest (s.threads t).pc = some i) (hsince : N ∣ r.since t) :
    i = s.mem.writeEnd ↔ takes s.hist = publishes s.hist := by
  have hretires := hr.retires_le
  have htakes := hr.takes_le
  have hpublishes := hr.publishes_le
  have hroom := hr.room
  rw [hr.empty_iff_since hraced hpc, ← Nat.dvd_add_iff_left hsince]
  constructor
  · intro hdvd
    have := Nat.eq_zero_of_dvd_of_lt hdvd (by omega)
    omega
  · intro heq
    rw [heq, Nat.sub_self]
    exact dvd_zero N

end Test

/-- **What decides a test.** In every run in which no CAS comes a round after its load, the room test of a
thread fails exactly if the blocks that are out, and one more, are as many as the claims since its load up
to whole rounds; and its emptiness test fails exactly if the messages that wait, and the takes since its
load, make whole rounds. -/
theorem tests_of_noted [DecidableEq ι] {cfg : Config ι} {p : State ι × Notes ι}
    (hN : 2 ≤ cfg.blockCount) (h : Noted cfg (InLap cfg.blockCount) p) :
    (∀ t i, roomTest (p.1.threads t).pc = some i →
      ((p.1.mem.blocks i).next = p.1.mem.readEnd ↔
        claims p.1.hist - retires p.1.hist + 1 ≡ p.2.write.since t [MOD cfg.blockCount])) ∧
    ∀ t i, emptinessTest (p.1.threads t).pc = some i →
      (i = p.1.mem.writeEnd ↔
        cfg.blockCount ∣ publishes p.1.hist - takes p.1.hist + p.2.read.since t) := by
  obtain ⟨hr, -, hwrite, hread⟩ := turning_of_inLap hN h
  exact ⟨fun t i hpc => hr.full_iff_since hwrite hpc, fun t i hpc => hr.empty_iff_since hread hpc⟩

/-- Thread 0 loads `m_writeStart`, and threads 1 and 2 pass a block on. -/
def overtakenOnce : List (Fin 3 × Choice) :=
  during 0 .getBlockWrite 1 ++ posting 1 0 9 ++ returning 2 0 8

/-- The ring is empty, and the room test of thread 0 fails. -/
theorem tests_of_noted_overtakenOnce :
    ∃ p, Noted (holders 3 3 2) (InLap 3) p ∧ roomTest (p.1.threads 0).pc = some 0 ∧
      claims p.1.hist = retires p.1.hist ∧ (p.1.mem.blocks 0).next = p.1.mem.readEnd := by
  obtain ⟨p, hp, hpc, hempty, hsince⟩ : ∃ p, Noted (holders 3 3 2) (InLap 3) p ∧
      roomTest (p.1.threads 0).pc = some 0 ∧ claims p.1.hist = retires p.1.hist ∧
        p.2.write.since 0 = 1 :=
    Reach.exists_of_run overtakenOnce (by decide +kernel)
  refine ⟨p, hp, hpc, hempty, ((tests_of_noted (by decide) hp).1 0 0 hpc).mpr ?_⟩
  rw [hempty, Nat.sub_self, hsince]

/-! ## What `get_block_write` and `get_block_read` have seen -/

/-- Whether each thread has made an access of its present `get_block_write`, or of the one it has just left,
while the ring was full, and one of its `get_block_read` while it was empty. -/
structure Sights (ι : Type*) where
  full : ι → Bool
  empty : ι → Bool

/-- Nobody has seen anything. -/
def Sights.start : Sights ι where
  full := fun _ => false
  empty := fun _ => false

/-- How far a thread that is about to make a test has been overtaken since its load. -/
def Pc.overtaken (n : Notes ι) (t : ι) : Pc → ℕ
  | .getBlockWrite _ (.test _) => n.write.since t
  | .getBlockRead _ (.test _) => n.read.since t
  | _ => 0

/-- How far the scheduled thread has been overtaken if it makes a test. -/
def lateness (p : State ι × Notes ι) : ι × Choice → ℕ
  | (_, .call _) => 0
  | (t, .run _) =>
      match (p.1.threads t).pc with
      | none => 0
      | some pc => pc.overtaken p.2 t

/-- A thread that makes a test has not been overtaken since its load, or by whole rounds, and one that
moves a cursor has been overtaken by less than a round. -/
def Timely (N : ℕ) (p : State ι × Notes ι) (a : ι × Choice) : Prop :=
  InLap N p a ∧ N ∣ lateness p a

instance (N : ℕ) (p : State ι × Notes ι) (a : ι × Choice) : Decidable (Timely N p a) :=
  inferInstanceAs (Decidable (_ ∧ _))

/-- A program point of `get_block_write`. -/
def Pc.isGetWrite : Pc → Bool
  | .getBlockWrite _ _ => true
  | _ => false

/-- A program point of `get_block_read`. -/
def Pc.isGetRead : Pc → Bool
  | .getBlockRead _ _ => true
  | _ => false

/-- `get_block_write` has returned nothing to a thread. -/
def GaveUpWriting (s s' : State ι) (t : ι) : Prop :=
  (s.threads t).pc.any Pc.isGetWrite = true ∧ (s'.threads t).pc.isNone = true ∧
    claims s'.hist = claims s.hist

/-- `get_block_read` has returned nothing to a thread. -/
def GaveUpReading (s s' : State ι) (t : ι) : Prop :=
  (s.threads t).pc.any Pc.isGetRead = true ∧ (s'.threads t).pc.isNone = true ∧
    takes s'.hist = takes s.hist

instance (s s' : State ι) (t : ι) : Decidable (GaveUpWriting s s' t) :=
  inferInstanceAs (Decidable (_ ∧ _))

/-- A thread that waits has seen the ring as its test has said. -/
def Pc.Seen (v : Sights ι) (t : ι) : Pc → Prop
  | .getBlockWrite _ (.wait _) => v.full t = true
  | .getBlockRead _ (.wait _) => v.empty t = true
  | _ => True

section Run

variable [DecidableEq ι] {cfg : Config ι}

/-- What a thread sees with a step. Both functions begin with nothing seen, also where `read` goes round its
loop. -/
def sight (N : ℕ) (p : State ι × Notes ι) (a : ι × Choice) (v : Sights ι) : Sights ι :=
  match a with
  | (t, .call _) => { full := update v.full t false, empty := update v.empty t false }
  | (t, .run _) =>
      { full := update v.full t ((p.1.threads t).pc.any Pc.isGetWrite &&
          (v.full t || decide (claims p.1.hist + 1 = retires p.1.hist + N)))
        empty := update v.empty t ((p.1.threads t).pc.any Pc.isGetRead &&
          (v.empty t || decide (takes p.1.hist = publishes p.1.hist))) }

/-- The states reached, with the notes of the run and what each thread has seen. -/
abbrev Sighted (cfg : Config ι) (ok : State ι × Notes ι → ι × Choice → Prop) :
    (State ι × Notes ι) × Sights ι → Prop :=
  Reach (noted (noted (step cfg) note) (sight cfg.blockCount)) (fun p a => ok p.1 a)
    ((start cfg, .start), .start)

variable {s s' : State ι} {n : Notes ι} {v : Sights ι} {t u : ι} {w : WaitEnd} {pc pc' : Pc}
  {m' : MemBuff} {o : Out Pc Ret} {mk : Option Mark} {N : ℕ}

omit [DecidableEq ι] in
theorem lateness_of_pc (hpc : (s.threads t).pc = some pc) :
    lateness (s, n) (t, .run w) = pc.overtaken n t := by
  simp only [lateness, hpc]

/-- What a thread has seen it keeps as long as it is inside. -/
theorem sight_keeps (hpc : (s.threads t).pc.any Pc.isGetWrite = true) (h : v.full t = true) :
    (sight N (s, n) (t, .run w) v).full t = true := by
  simp only [sight, update_self, hpc, h, Bool.true_or, Bool.true_and]

theorem sight_keeps_empty (hpc : (s.threads t).pc.any Pc.isGetRead = true) (h : v.empty t = true) :
    (sight N (s, n) (t, .run w) v).empty t = true := by
  simp only [sight, update_self, hpc, h, Bool.true_or, Bool.true_and]

/-- A thread whose room test fails sees a full ring. -/
theorem sight_full (hr : RingInv N s) (hraced : writeGate.Raced N s n.write) {k : WriteCaller} {i : ℕ}
    (hpc : (s.threads t).pc = some (.getBlockWrite k (.test i)))
    (hsince : N ∣ lateness (s, n) (t, .run w)) (hi : (s.mem.blocks i).next = s.mem.readEnd) :
    (sight N (s, n) (t, .run w) v).full t = true := by
  rw [lateness_of_pc hpc] at hsince
  have hfull := (hr.full_iff hraced (by rw [hpc]; rfl) hsince).mp hi
  simp only [sight, update_self, hfull, decide_true, Bool.or_true, Bool.and_true, hpc]
  rfl

/-- A thread whose emptiness test fails sees an empty ring. -/
theorem sight_empty (hr : RingInv N s) (hraced : readGate.Raced N s n.read) {k : ReadCaller} {i : ℕ}
    (hpc : (s.threads t).pc = some (.getBlockRead k (.test i)))
    (hsince : N ∣ lateness (s, n) (t, .run w)) (hi : i = s.mem.writeEnd) :
    (sight N (s, n) (t, .run w) v).empty t = true := by
  rw [lateness_of_pc hpc] at hsince
  have hempty := (hr.empty_iff hraced (by rw [hpc]; rfl) hsince).mp hi
  simp only [sight, update_self, hempty, decide_true, Bool.or_true, Bool.and_true, hpc]
  rfl

/-- **Step lemma of what is seen.** -/
theorem Pc.Seen.step (h : pc.Seen v t) (hr : RingInv N s) (hwrite : writeGate.Raced N s n.write)
    (hread : readGate.Raced N s n.read) (hpc : (s.threads t).pc = some pc)
    (hsince : N ∣ lateness (s, n) (t, .run w))
    (hcode : CodeStep cfg.blockSize cfg.wait w s.mem pc m' o mk) (ho : o.pc = some pc') :
    pc'.Seen (sight N (s, n) (t, .run w) v) t := by
  cases hcode with
  | full k i hi =>
      obtain rfl := Option.some.inj ho
      exact sight_full hr hwrite hpc hsince hi
  | emptyWait k i hi =>
      obtain rfl := Option.some.inj ho
      exact sight_empty hr hread hpc hsince hi
  | waitAvail k =>
      obtain rfl := Option.some.inj ho
      exact sight_keeps (by rw [hpc]; rfl) h
  | waitSignal k =>
      obtain rfl := Option.some.inj ho
      exact sight_keeps_empty (by rw [hpc]; rfl) h
  | claim k => cases k <;> cases ho; trivial
  | timeoutWrite k => cases k <;> cases ho
  | leavePost k => cases k <;> cases ho; trivial
  | emptyReturn k => cases k <;> cases ho
  | timeoutRead k => cases k <;> cases ho
  | take k => cases k <;> cases ho; trivial
  | leaveReturn k => cases k <;> cases ho <;> trivial
  | increment => cases ho
  | decrement => cases ho
  | _ =>
      obtain rfl := Option.some.inj ho
      trivial

/-- What a thread has seen does not change with the steps of others. -/
theorem Pc.Seen.other (h : pc.Seen v u) {a : ι × Choice} (hu : u ≠ a.1) {p : State ι × Notes ι} :
    pc.Seen (sight N p a v) u := by
  have hsame : (sight N p a v).full u = v.full u ∧ (sight N p a v).empty u = v.empty u := by
    obtain ⟨t, ch⟩ := a
    cases ch <;> exact ⟨update_of_ne hu _ _, update_of_ne hu _ _⟩
  unfold Pc.Seen at h ⊢
  rw [hsame.1, hsame.2]
  exact h

/-- **Run lemma of what is seen.** -/
theorem seen_of_sighted (hN : 2 ≤ cfg.blockCount) {p : (State ι × Notes ι) × Sights ι}
    (h : Sighted cfg (Timely cfg.blockCount) p) :
    Noted cfg (InLap cfg.blockCount) p.1 ∧
      ∀ t pc, (p.1.1.threads t).pc = some pc → pc.Seen p.2 t := by
  refine ⟨h.forget fun _ _ hok => hok.1, ?_⟩
  refine h.invariant (I := fun p => ∀ t pc, (p.1.1.threads t).pc = some pc → pc.Seen p.2 t)
    (fun _ _ h => ?_) ?_
  · cases h
  · rintro ⟨⟨s, n⟩, v⟩ a ⟨⟨s', n'⟩, v'⟩ hreach hi ⟨-, hsince⟩ hs
    obtain ⟨hnoted, rfl⟩ := noted_eq_some.mp hs
    obtain ⟨hstep, -⟩ := noted_eq_some.mp hnoted
    have hlaps : Noted cfg (InLap cfg.blockCount) (s, n) := hreach.forget fun _ _ hok => hok.1
    obtain ⟨hr, -, hwrite, hread⟩ := turning_of_inLap hN hlaps
    have hother : ∀ u pc, u ≠ a.1 → (s.threads u).pc = some pc →
        pc.Seen (sight cfg.blockCount (s, n) a v) u := fun u pc hu hpc => (hi u pc hpc).other hu
    obtain ⟨t, ch⟩ := a
    rcases step_cases hstep with ⟨c, rfl, -, -, -, rfl⟩ |
      ⟨w, pc, m', o, mk, rfl, hpc, hcode, rfl⟩
    · refine forall_pc_update hother fun pc hpc => ?_
      obtain rfl := Option.some.inj hpc
      cases c <;> trivial
    · exact forall_pc_update hother fun pc' hpc' =>
        (hi t pc hpc).step hr hwrite hread hpc hsince hcode hpc'

/-- **Giving up.** A `get_block_write` that returns nothing has itself seen the ring full, and a
`get_block_read` that returns nothing has itself seen it empty, also one of several that a `read` goes
through, as long as no thread makes a test after it has been overtaken. -/
theorem gaveUp_of_sighted (hN : 2 ≤ cfg.blockCount) {p p' : (State ι × Notes ι) × Sights ι}
    {a : ι × Choice} (h : Sighted cfg (Timely cfg.blockCount) p) (hok : Timely cfg.blockCount p.1 a)
    (hs : noted (noted (AtomicMessageQueue.step cfg) note) (sight cfg.blockCount) p a = some p') :
    (GaveUpWriting p.1.1 p'.1.1 a.1 → p'.2.full a.1 = true) ∧
      (GaveUpReading p.1.1 p'.1.1 a.1 → p'.2.empty a.1 = true) := by
  obtain ⟨hlaps, hseen⟩ := seen_of_sighted hN h
  obtain ⟨hr, -, hwrite, hread⟩ := turning_of_inLap hN hlaps
  obtain ⟨⟨s, n⟩, v⟩ := p
  obtain ⟨⟨s', n'⟩, v'⟩ := p'
  obtain ⟨hnoted, rfl⟩ := noted_eq_some.mp hs
  obtain ⟨hstep, -⟩ := noted_eq_some.mp hnoted
  obtain ⟨t, ch⟩ := a
  rcases step_cases hstep with ⟨c, rfl, -, -, -, rfl⟩ | ⟨w, pc, m', o, mk, rfl, hpc, hcode, rfl⟩
  · refine ⟨fun ⟨_, hnone, _⟩ => ?_, fun ⟨_, hnone, _⟩ => ?_⟩
    · simp only [update_self, Option.isNone_some, Bool.false_eq_true] at hnone
    · simp only [update_self, Option.isNone_some, Bool.false_eq_true] at hnone
  · have hplace : (s.threads t).pc = some pc := hpc
    have hseen := hseen t pc hplace
    refine ⟨fun ⟨hget, hnone, hclaims⟩ => ?_, fun ⟨hget, hnone, htakes⟩ => ?_⟩
    · have hinside := hget
      simp only [hplace, Option.any_some] at hget
      simp only [update_self] at hnone
      cases hcode with
      | timeoutWrite k => exact sight_keeps (w := w) hinside hseen
      | claim k => exact absurd hclaims (Nat.succ_ne_self _)
      | _ => first
        | exact absurd hnone Bool.false_ne_true
        | exact absurd hget Bool.false_ne_true
    · have hinside := hget
      simp only [hplace, Option.any_some] at hget
      simp only [update_self] at hnone
      cases hcode with
      | emptyReturn k i hi => exact sight_empty hr hread hpc hok.2 hi
      | timeoutRead k => exact sight_keeps_empty (w := w) hinside hseen
      | take k => exact absurd htakes (Nat.succ_ne_self _)
      | _ => first
        | exact absurd hnone Bool.false_ne_true
        | exact absurd hget Bool.false_ne_true

end Run

/-- Thread 0 has claimed the only block and claims again; it falls asleep and its wait expires. -/
def waitsOnFull : List (Fin 2 × Choice) :=
  during 0 .getBlockWrite 3 ++ during 0 .getBlockWrite 7 ++ [(0, .run .expire)] ++ runs 0 4

theorem gaveUp_of_sighted_waitsOnFull :
    ∃ p p' : (State (Fin 2) × Notes (Fin 2)) × Sights (Fin 2),
      Sighted (holders 2 2 1) (Timely 2) p ∧ GaveUpWriting p.1.1 p'.1.1 0 ∧
        p'.2.full 0 = true := by
  obtain ⟨p, hp, hok, hlast⟩ : ∃ p, Sighted (holders 2 2 1) (Timely 2) p ∧
      Timely 2 p.1 (0, .run .wake) ∧
      (noted (noted (step (holders 2 2 1)) note) (sight 2) p (0, .run .wake)).any
        (fun p' => decide (GaveUpWriting p.1.1 p'.1.1 0)) = true :=
    Reach.exists_of_run waitsOnFull (by decide +kernel)
  obtain ⟨p', hs, hgave⟩ := (Option.any_eq_true _ _).mp hlast
  have hgave := of_decide_eq_true hgave
  exact ⟨p, p', hp, hgave, (gaveUp_of_sighted (by decide) hp hok hs).1 hgave⟩

/-! A writer that is overtaken between its load and its test finds an empty ring full, and gives up: -/

example : ∃ p, Sighted (holders 3 3 2) (InLap 3) p ∧ (p.1.1.threads 0).pc.isNone = true ∧
    (p.1.1.threads 0).heldWrite = [] ∧ claims p.1.1.hist = retires p.1.1.hist ∧ p.2.full 0 = false :=
  Reach.exists_of_run (overtakenOnce ++ runs 0 6 ++ [(0, .run .expire)] ++ runs 0 5)
    (by decide +kernel)

end AtomicMessageQueue
