import AtomicMessageQueue.Client.Endpoint
import AtomicMessageQueue.Events.Clock

/-! # How long `send` and `receive` wait

Reference: `MessageQueue.h`, `send`, `receive` and `setTimeout`; `shmIPC.h`, `get_block_write` and
`get_block_read`. The timeout is passed on as an `int32_t` and handed to `WaitForEvent` as a `uint32_t`
again; only `get_block_read` looks at its sign. The calls are followed from where the checks of `send` and
`receive` are passed.
-/

namespace AtomicMessageQueue

open MessageQueue Relation

/-- A `send` that stays without room returns 0, on time. -/
def Endpoint.SendOnTime (msgSize : ℕ) (e : Endpoint) (buffer : ℕ → UInt8) (msgLength : ℕ)
    (start : Instant) : Prop :=
  OnTime msgSize e.view.msTimeout (Clocked.start e.mem (.write buffer msgLength) start)
    (e.timeout.toNat * 10 ^ 6) fun r => ∃ sts, r = .wrote sts ∧ sendResult sts msgLength = 0

/-- A `receive` that stays without a message returns 0, on time. -/
def Endpoint.ReceiveOnTime (msgSize : ℕ) (e : Endpoint) (start : Instant) : Prop :=
  OnTime msgSize e.view.msTimeout (Clocked.start e.mem (.read msgSize e.view.msTimeout) start)
    (e.timeout.toNat * 10 ^ 6) fun r => ∃ bytes, r = .got bytes ∧ bytes.length = 0

/-- The timeout fits in the nanosecond field after a multiplication in 32 bits, and the seconds of one
clock make up for the difference to the other. -/
def DeadlineRight (t : UInt32) (start : Instant) : Prop :=
  t.toNat * 10 ^ 6 % 2 ^ 32 < 10 ^ 9 ∧
    start.monotonic / 10 ^ 9 * 10 ^ 9 + t.toNat * 10 ^ 6 % 2 ^ 32 =
      start.realtime + t.toNat * 10 ^ 6

variable {N msgSize : ℕ} {start : Instant}

/-! ## The conversions -/

/-- The conversion to `int32_t` and back gives the timeout again. -/
theorem ofInt_msTimeout (q : MessageQueue) : UInt32.ofInt q.msTimeout = q.timeout := by
  have hlt : q.timeout.toNat < 4294967296 := q.timeout.toNat_lt
  have hmod : q.msTimeout % 4294967296 = (q.timeout.toNat : ℤ) :=
    (Int.bmod_emod (x := (q.timeout.toNat : ℤ)) (m := 4294967296)).trans
      (Int.emod_eq_of_lt (Int.natCast_nonneg _) (by omega))
  show UInt32.ofNat (q.msTimeout % 4294967296).toNat = q.timeout
  rw [hmod, Int.toNat_natCast, UInt32.ofNat_toNat]

/-- `get_block_read` waits for the timeouts from 1 to `INT32_MAX`. -/
theorem msTimeout_pos_iff (q : MessageQueue) :
    0 < q.msTimeout ↔ 0 < q.timeout.toNat ∧ q.timeout.toNat < 2 ^ 31 := by
  have hlt : q.timeout.toNat < 4294967296 := q.timeout.toNat_lt
  have hdef : q.msTimeout = if (q.timeout.toNat : ℤ) % 4294967296 < 2147483648 then
      (q.timeout.toNat : ℤ) % 4294967296
    else (q.timeout.toNat : ℤ) % 4294967296 - 4294967296 := rfl
  rw [hdef]
  split <;> omega

theorem deadline_right_iff (t : UInt32) (start : Instant) :
    (deadline t start).Valid ∧ (deadline t start).nanoseconds = start.realtime + t.toNat * 10 ^ 6 ↔
      DeadlineRight t start := by
  have hnsec : (deadline t start).nsec = t.toNat * 10 ^ 6 % 2 ^ 32 := UInt32.toNat_mul t 1000000
  rw [Timespec.Valid, Timespec.nanoseconds, hnsec]
  rfl

/-! ## The two loops -/

/-- `write` on a full ring. -/
def writeLoop (blockSize : ℕ) (m : MemBuff) (hfull : (m.blocks m.writeStart).next = m.readEnd)
    (pBuff : ℕ → UInt8) (amount : ℕ) : WaitLoop blockSize where
  withEvent e := { m with avail := e }
  load := .getBlockWrite (.write pBuff amount) .load
  test := .getBlockWrite (.write pBuff amount) (.test m.writeStart)
  wait p := .getBlockWrite (.write pBuff amount) (.wait p)
  gone := .wrote 0
  load_step _ _ := rfl
  test_step _ e :=
    (CodeStep.full (m := { m with avail := e }) (.write pBuff amount) m.writeStart hfull).eq
  wait_step w e p := by
    simp only [codeStep, getBlockWriteStep, Option.map_map]
    congr 1
    funext ⟨e', o⟩
    cases o with
    | next p' => rfl
    | ret r =>
        simp only [Function.comp_apply]
        split <;> rfl
  load_waitPc := rfl
  test_waitPc := rfl
  wait_waitPc _ := rfl

/-- `read` on an empty ring, with a timeout that it waits for. -/
def readLoop (blockSize : ℕ) (m : MemBuff) (hempty : m.readStart = m.writeEnd) (buffSize : ℕ) (ms : ℤ)
    (hms : 0 < ms) : WaitLoop blockSize where
  withEvent e := { m with signal := e }
  load := .getBlockRead (.read buffSize ms) .load
  test := .getBlockRead (.read buffSize ms) (.test m.readStart)
  wait p := .getBlockRead (.read buffSize ms) (.wait p)
  gone := .got []
  load_step _ _ := rfl
  test_step _ e :=
    (CodeStep.emptyWait (m := { m with signal := e }) (.read buffSize ms) m.readStart hempty hms).eq
  wait_step w e p := by
    simp only [codeStep, getBlockReadStep, Option.map_map]
    congr 1
    funext ⟨e', o⟩
    cases o with
    | next p' => rfl
    | ret r =>
        simp only [Function.comp_apply]
        split <;> rfl
  load_waitPc := rfl
  test_waitPc := rfl
  wait_waitPc _ := rfl

/-- The emptiness test of a `read` that does not wait. -/
theorem test_noWait {blockSize buffSize : ℕ} {m : MemBuff} {ms : ℤ} (hempty : m.readStart = m.writeEnd)
    (hms : ¬ 0 < ms) (w : WaitEnd) :
    codeStep blockSize waitForEvent w m (.getBlockRead (.read buffSize ms) (.test m.readStart)) =
      some (m, .ret (.got []), none) :=
  (CodeStep.emptyReturn (.read buffSize ms) m.readStart hempty hms).eq

/-- `read` on an empty ring, with a timeout it does not wait for: the places it comes to. -/
theorem read_noWait {blockSize buffSize : ℕ} {m : MemBuff} {ms : ℤ} {s : Clocked}
    (hempty : m.readStart = m.writeEnd) (hms : ¬ 0 < ms)
    (h : ClockedRuns blockSize ms (Clocked.start m (.read buffSize ms) start) s) :
    s = Clocked.start m (.read buffSize ms) start ∨
      s = ⟨m, .next (.getBlockRead (.read buffSize ms) (.test m.readStart)), start, none⟩ ∨
      s = ⟨m, .ret (.got []), start, none⟩ := by
  induction h with
  | refl => exact .inl rfl
  | tail rest hstep ih =>
      rcases ih with rfl | rfl | rfl
      · cases hstep with
        | pass d hp hread => cases hp
        | access w hend access =>
            cases access
            exact .inr (.inl rfl)
      · cases hstep with
        | pass d hp hread => cases hp
        | access w hend access =>
            rw [test_noWait hempty hms w] at access
            cases access
            exact .inr (.inr rfl)
      · cases hstep

/-- A `read` that does not wait returns at once. -/
theorem runs_read_noWait {blockSize buffSize : ℕ} {m : MemBuff} {ms : ℤ}
    (hempty : m.readStart = m.writeEnd) (hms : ¬ 0 < ms) :
    ClockedRuns blockSize ms (Clocked.start m (.read buffSize ms) start)
      ⟨m, .ret (.got []), start, none⟩ := by
  have hfirst : ClockedStep blockSize ms (Clocked.start m (.read buffSize ms) start)
      ⟨m, .next (.getBlockRead (.read buffSize ms) (.test m.readStart)), start, none⟩ :=
    .access .wake nofun rfl
  exact .head hfirst (.single (.access .wake nofun (test_noWait hempty hms .wake)))

/-! ## Being on time -/

section OnTime

variable {e : Endpoint}

/-- A `send` without room is on time exactly if its deadline is right. -/
theorem send_onTime_iff (hfull : (e.mem.blocks e.mem.writeStart).next = e.mem.readEnd)
    (hq : e.mem.avail.Quiet) (buffer : ℕ → UInt8) (msgLength : ℕ) :
    e.SendOnTime msgSize buffer msgLength start ↔ DeadlineRight e.timeout start := by
  have hiff := (writeLoop msgSize e.mem hfull buffer msgLength).onTime_iff hq e.view.msTimeout start
    (e.timeout.toNat * 10 ^ 6) (fun r => ∃ sts, r = .wrote sts ∧ sendResult sts msgLength = 0)
    ⟨0, rfl, rfl⟩
  rw [ofInt_msTimeout] at hiff
  exact hiff.trans (deadline_right_iff e.timeout start)

/-- A `receive` without a message is on time exactly if its timeout is 0, or is one it waits for and its
deadline is right. -/
theorem receive_onTime_iff (hempty : e.mem.readStart = e.mem.writeEnd) (hq : e.mem.signal.Quiet) :
    e.ReceiveOnTime msgSize start ↔
      e.timeout.toNat = 0 ∨ e.timeout.toNat < 2 ^ 31 ∧ DeadlineRight e.timeout start := by
  have hpos := msTimeout_pos_iff e.view
  change 0 < e.view.msTimeout ↔ 0 < e.timeout.toNat ∧ e.timeout.toNat < 2 ^ 31 at hpos
  by_cases hms : 0 < e.view.msTimeout
  · have hiff := (readLoop msgSize e.mem hempty msgSize e.view.msTimeout hms).onTime_iff hq
      e.view.msTimeout start (e.timeout.toNat * 10 ^ 6)
      (fun r => ∃ bytes, r = .got bytes ∧ bytes.length = 0) ⟨[], rfl, rfl⟩
    rw [ofInt_msTimeout] at hiff
    obtain ⟨hne, hlt⟩ := hpos.mp hms
    refine (hiff.trans (deadline_right_iff e.timeout start)).trans ?_
    exact ⟨fun h => .inr ⟨hlt, h⟩, fun h => (h.resolve_left (by omega)).2⟩
  · constructor
    · intro h
      obtain ⟨-, hlate⟩ := h.returns _ _ (runs_read_noWait hempty hms) rfl
      left
      simp only [Clocked.start] at hlate
      omega
    · intro h
      have hzero : e.timeout.toNat = 0 := by omega
      refine ⟨⟨_, _, runs_read_noWait hempty hms, rfl⟩, ?_, ?_⟩
      · intro s r hruns hret
        rcases read_noWait hempty hms hruns with rfl | rfl | rfl <;> cases hret
        refine ⟨⟨[], rfl, rfl⟩, ?_⟩
        simp only [Clocked.start]
        omega
      · intro s pc seen hruns hpc hasleep
        rcases read_noWait hempty hms hruns with rfl | rfl | rfl <;> cases hpc <;> cases hasleep

end OnTime

/-- **The timeouts are kept**, by `send` on a queue that stays full and `receive` on one that stays empty,
exactly if the timeout is at most `INT32_MAX` and the deadline is right: its nanoseconds, taken modulo
`2 ^ 32`, are below `10 ^ 9`, and with the seconds of `CLOCK_MONOTONIC` they denote the time of the call
by `CLOCK_REALTIME` and the timeout. -/
theorem timeouts_kept_iff (hN : 2 ≤ N) {e₁ e₂ : Endpoint} (h₁ : Endpoint.Reached N msgSize e₁)
    (h₂ : Endpoint.Reached N msgSize e₂) (htimeout : e₂.timeout = e₁.timeout)
    (hfull : (e₁.mem.blocks e₁.mem.writeStart).next = e₁.mem.readEnd)
    (hempty : e₂.mem.readStart = e₂.mem.writeEnd) (buffer : ℕ → UInt8) (msgLength : ℕ)
    (start : Instant) :
    e₁.SendOnTime msgSize buffer msgLength start ∧ e₂.ReceiveOnTime msgSize start ↔
      e₁.timeout.toNat < 2 ^ 31 ∧ DeadlineRight e₁.timeout start := by
  obtain ⟨queue₁, taken₁, hfrom₁⟩ := h₁.holds hN
  obtain ⟨queue₂, taken₂, hfrom₂⟩ := h₂.holds hN
  rw [send_onTime_iff hfull hfrom₁.shows.avail, receive_onTime_iff hempty hfrom₂.shows.signal, htimeout]
  constructor
  · rintro ⟨hright, hzero | ⟨hlt, -⟩⟩
    · exact ⟨by omega, hright⟩
    · exact ⟨hlt, hright⟩
  · exact fun h => ⟨h.2, .inr h⟩

/-- Two blocks, of which a message fills the only one there is room for. -/
theorem exists_full (timeout : UInt32) :
    ∃ e, Endpoint.Reached 2 4 e ∧ e.timeout = timeout ∧
      (e.mem.blocks e.mem.writeStart).next = e.mem.readEnd := by
  obtain ⟨taken, hfrom⟩ := holds_create (N := 2) (by decide)
  obtain ⟨m', hrun, hholds, -⟩ := hfrom.write (by decide) 4 (fun _ => 7) 1
  have hcall := MessageQueue.step_send (q := (Endpoint.fresh 2 timeout).view) rfl
    (show 1 ≤ 4 by decide) hrun
  exact ⟨_, .step (Endpoint.reached_fresh 2 4 timeout) (.pass (Endpoint.usable_fresh 2 timeout) hcall),
    rfl, hholds.shows.full_iff.mpr rfl⟩

/-- Both clocks show five seconds, and the timeout is half a second. -/
theorem timeouts_kept_iff_sameClocks :
    ∃ e₁ e₂ : Endpoint, e₁.SendOnTime 4 (fun _ => 7) 1 ⟨5 * 10 ^ 9, 5 * 10 ^ 9⟩ ∧
      e₂.ReceiveOnTime 4 ⟨5 * 10 ^ 9, 5 * 10 ^ 9⟩ ∧ e₁.timeout = 500 ∧ e₂.timeout = 500 := by
  obtain ⟨e₁, h₁, ht, hfull⟩ := exists_full 500
  have hboth := (timeouts_kept_iff (by decide) h₁ (Endpoint.reached_fresh 2 4 500) ht.symm hfull rfl
    (fun _ => 7) 1 ⟨5 * 10 ^ 9, 5 * 10 ^ 9⟩).mpr (by
      rw [ht]
      exact ⟨by decide, by decide, by decide⟩)
  exact ⟨e₁, _, hboth.1, hboth.2, ht, rfl⟩

/-- The machine has been up for five seconds, and the timeout is half a second: neither call keeps it. -/
theorem timeouts_not_kept :
    ∃ e₁ e₂, Endpoint.Reached 2 4 e₁ ∧ Endpoint.Reached 2 4 e₂ ∧ e₁.timeout = 500 ∧ e₂.timeout = 500 ∧
      (e₁.mem.blocks e₁.mem.writeStart).next = e₁.mem.readEnd ∧
      e₂.mem.readStart = e₂.mem.writeEnd ∧
      ¬ e₁.SendOnTime 4 (fun _ => 7) 1 ⟨5 * 10 ^ 9, 1500000000 * 10 ^ 9⟩ ∧
      ¬ e₂.ReceiveOnTime 4 ⟨5 * 10 ^ 9, 1500000000 * 10 ^ 9⟩ := by
  obtain ⟨e₁, h₁, ht, hfull⟩ := exists_full 500
  obtain ⟨queue₁, taken₁, hfrom₁⟩ := h₁.holds (by decide)
  have h₂ := Endpoint.reached_fresh 2 4 500
  obtain ⟨queue₂, taken₂, hfrom₂⟩ := h₂.holds (by decide)
  have hwrong : ¬ DeadlineRight 500 ⟨5 * 10 ^ 9, 1500000000 * 10 ^ 9⟩ :=
    fun h => absurd h.2 (by decide)
  refine ⟨e₁, _, h₁, h₂, ht, rfl, hfull, rfl, ?_, ?_⟩
  · rw [send_onTime_iff hfull hfrom₁.shows.avail, ht]
    exact hwrong
  · rw [receive_onTime_iff rfl hfrom₂.shows.signal]
    exact fun h => h.elim (by decide) fun h => hwrong h.2

end AtomicMessageQueue
