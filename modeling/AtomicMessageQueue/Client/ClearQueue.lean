import AtomicMessageQueue.Client.Endpoint

/-! # What `clearQueue` leaves

Reference: `MessageQueue.h`, `clearQueue`. The test of `connected_` is the wrong way round: a connected
queue is left as it is, and the loop that reads until the count is 0 is entered by an object that is not
connected, whose `queue_` is null or points to a buffer that has been unmapped.
-/

namespace AtomicMessageQueue

open MessageQueue

/-- `while(queue_->getMsgCount() > 0) queue_->read(buffer,8192, 0);`, run to its end. -/
inductive ClearLoop (msgSize : ℕ) : MemBuff → MemBuff → Prop
  | done {m : MemBuff} (h : m.msgCount = 0) : ClearLoop msgSize m m
  | again {m m' m'' : MemBuff} {bytes : List UInt8} (h : m.msgCount ≠ 0)
      (call : Completes msgSize m (.read 8192 0) m' (.got bytes)) (rest : ClearLoop msgSize m' m'') :
      ClearLoop msgSize m m''

/-- `queue_` can be followed: it is not null, and its buffer is mapped. -/
def Session.CanFollow (s : Session) : Prop :=
  ∃ b, s.client.queue = some { buffer := some b } ∧ s.maps.Mapped b

/-- How `clearQueue` comes to an end: past the test of `connected_`, with the loop done, or by the signal
for following a pointer that cannot be followed. -/
inductive ClearEnd
  | passed
  | looped
  | killed
deriving DecidableEq, Repr

/-- `clearQueue`. -/
inductive Endpoint.ClearQueue (msgSize : ℕ) (e : Endpoint) : ClearEnd → Endpoint → Prop
  | passed (h : e.session.client.connected = true) : ClearQueue msgSize e .passed e
  | looped {m' : MemBuff} (h : e.session.client.connected = false) (hfollow : e.session.CanFollow)
      (loop : ClearLoop msgSize e.mem m') : ClearQueue msgSize e .looped { e with mem := m' }
  | killed (h : e.session.client.connected = false) (hfollow : ¬ e.session.CanFollow) :
      ClearQueue msgSize e .killed e

/-- Nothing is left in the ring: no block between the cursors, a `read` finds nothing, and
`getMessageCount` returns 0. -/
structure Cleared (msgSize : ℕ) (e : Endpoint) : Prop where
  cursors : e.mem.readStart = e.mem.writeEnd
  nothing : ∀ m' bytes, Completes msgSize e.mem (.read msgSize e.view.msTimeout) m' (.got bytes) →
    bytes = []
  count : e.view.getMessageCount = 0

/-- What `clearQueue` is to do: on a connected object it ends and leaves nothing in the ring; on one that
is not connected it follows no pointer and changes nothing. -/
structure ClearsSoundly (msgSize : ℕ) (e : Endpoint) : Prop where
  connected : e.session.client.connected = true ∧ e.session.CanFollow →
    ∃ ending e', e.ClearQueue msgSize ending e' ∧ ending ≠ .killed ∧ Cleared msgSize e'
  otherwise : e.session.client.connected = false → e.ClearQueue msgSize .passed e

variable {N msgSize : ℕ} {e : Endpoint}

/-! ## The loop -/

section Loop

variable {m m' : MemBuff} {taken : ℕ} {queue : List (List UInt8)}

/-- How many of the messages are not empty. -/
def nonEmpty (queue : List (List UInt8)) : ℕ := (queue.filter fun msg => !msg.isEmpty).length

/-- A read takes one of the messages that are not empty, if there is one. -/
theorem nonEmpty_listRead (buffSize : ℕ) (queue : List (List UInt8)) :
    nonEmpty (listRead buffSize queue).2 = nonEmpty queue - 1 ∧
      (queue.dropWhile List.isEmpty = [] ↔ nonEmpty queue = 0) := by
  induction queue with
  | nil => exact ⟨rfl, ⟨fun _ => rfl, fun _ => rfl⟩⟩
  | cons msg rest ih =>
      cases msg with
      | nil => exact ih
      | cons x xs =>
          refine ⟨?_, ⟨nofun, nofun⟩⟩
          show nonEmpty rest = nonEmpty rest + 1 - 1
          rw [Nat.add_sub_cancel]

/-- A round of the loop takes a message and counts it off, or leaves the count as it is when there are
none but empty ones. -/
theorem ClearLoop.round (msgSize : ℕ) (h : HoldsFrom N m taken queue) :
    ∃ m' taken' bytes queue', Completes msgSize m (.read 8192 0) m' (.got bytes) ∧
      HoldsFrom N m' taken' queue' ∧ nonEmpty queue' = nonEmpty queue - 1 ∧
      m'.msgCount = if nonEmpty queue = 0 then m.msgCount else m.msgCount - 1 := by
  obtain ⟨m', taken', hrun, hholds, hcount⟩ := h.read msgSize 8192 0
  obtain ⟨hleft, hnone⟩ := nonEmpty_listRead 8192 queue
  exact ⟨m', taken', _, _, hrun, hholds, hleft, by simpa only [hnone] using hcount⟩

/-- **The loop ends** exactly if no more messages are counted than there are messages that are not
empty. An empty message that has been sent is counted for ever, and the loop then goes round for
ever. -/
theorem clearLoop_ends_iff (h : HoldsFrom N m taken queue) :
    (∃ m', ClearLoop msgSize m m') ↔ m.msgCount.toNat ≤ nonEmpty queue := by
  have hpred : ∀ count : UInt32, count ≠ 0 →
      0 < count.toNat ∧ (count - 1).toNat = count.toNat - 1 := by
    intro count hne
    have hpos : 0 < count.toNat := Nat.pos_of_ne_zero fun hzero => hne (UInt32.toNat_inj.mp hzero)
    exact ⟨hpos, UInt32.toNat_sub_of_le _ _ (UInt32.le_iff_toNat_le.mpr hpos)⟩
  constructor
  · rintro ⟨m', hloop⟩
    induction hloop generalizing taken queue with
    | done hzero =>
        rw [hzero]
        exact Nat.zero_le _
    | again hne call rest ih =>
        obtain ⟨m₁, taken', bytes', queue', hrun, hholds, hleft, hcount⟩ := ClearLoop.round msgSize h
        obtain ⟨rfl, -⟩ := call.determ hrun
        have hle := ih hholds
        obtain ⟨hpos, hsub⟩ := hpred _ hne
        rw [hleft, hcount] at hle
        split at hle
        · omega
        · rw [hsub] at hle
          omega
  · -- on the count
    generalize hn : m.msgCount.toNat = n
    induction n generalizing m taken queue with
    | zero => exact fun _ => ⟨m, .done (UInt32.toNat_inj.mp hn)⟩
    | succ n ih =>
        intro hle
        have hne : m.msgCount ≠ 0 := by
          intro hzero
          rw [hzero] at hn
          cases hn
        obtain ⟨m₁, taken', bytes, queue', hrun, hholds, hleft, hcount⟩ := ClearLoop.round msgSize h
        rw [if_neg (by omega)] at hcount
        have hn' : m₁.msgCount.toNat = n := by
          rw [hcount, (hpred _ hne).2]
          omega
        obtain ⟨m', hrest⟩ := ih hholds hn' (by omega)
        exact ⟨m', .again hne hrun hrest⟩

end Loop

/-! ## `clearQueue` -/

/-- On a connected object `clearQueue` does nothing. -/
theorem Endpoint.ClearQueue.eq_of_connected (hc : e.session.client.connected = true)
    {ending : ClearEnd} {e' : Endpoint} (h : e.ClearQueue msgSize ending e') : e' = e := by
  cases h with
  | passed h => rfl
  | looped h hfollow loop =>
      rw [hc] at h
      cases h
  | killed h hfollow => rfl

/-- On an object that is not connected `clearQueue` never gets past the test. -/
theorem Endpoint.ClearQueue.not_passed (hc : e.session.client.connected = false) {e' : Endpoint} :
    ¬ e.ClearQueue msgSize .passed e' := by
  intro h
  cases h with
  | passed h =>
      rw [hc] at h
      cases h

/-- A count of 0 is one that `getMessageCount` returns as 0. -/
theorem getMessageCount_eq_zero_iff {q : MessageQueue} (hc : q.connected = true) :
    q.getMessageCount = 0 ↔ q.mem.msgCount = 0 := by
  have hlt := q.mem.msgCount.toNat_lt
  simp only [getMessageCount, hc, Bool.true_eq_false, if_false]
  constructor
  · intro hzero
    have hdvd := Int.dvd_of_bmod_eq_zero hzero
    have hnat : q.mem.msgCount.toNat = 0 := by omega
    exact UInt32.toNat_inj.mp hnat
  · intro hzero
    rw [hzero]
    exact Int.zero_bmod

/-- An object that is not connected has no buffer it could follow. -/
theorem Session.not_canFollow_after {s : Session}
    (h : s.client.connected = false → ¬ s.CanFollow) (c : ClientCall) :
    (s.after c).client.connected = false → ¬ (s.after c).CanFollow := by
  cases c with
  | connect => exact nofun
  | send => exact h
  | receive => exact h
  | getMessageCount => exact h
  | close =>
      rintro - ⟨b, hqueue, -⟩
      cases hq : s.client.queue <;> simp [Session.after, Session.close, hq] at hqueue
  | disconnect =>
      intro hdisc
      cases hc : s.client.connected with
      | false =>
          rw [show s.after .disconnect = s from Session.disconnect_of_not_connected hc]
          exact h hc
      | true =>
          rintro ⟨b, hqueue, hmapped⟩
          cases hq : s.client.queue with
          | none => simp [Session.after, Session.disconnect, hq] at hqueue
          | some q =>
              simp only [Session.after, Session.disconnect, hq, hc, if_true] at hqueue hmapped
              obtain rfl : q = { buffer := some b } := Option.some.inj hqueue
              exact hmapped.2 List.mem_cons_self

theorem Endpoint.Reached.not_canFollow (h : Endpoint.Reached N msgSize e)
    (hc : e.session.client.connected = false) : ¬ e.session.CanFollow := by
  induction h with
  | new timeout =>
      rintro ⟨b, hqueue, -⟩
      cases hqueue
  | step reached call ih =>
      cases call with
      | session c => exact Session.not_canFollow_after ih c hc
      | setTimeout msec => exact ih hc
      | pass husable call => exact ih hc
      | other timeout call => exact ih hc

/-- On an object that is not connected `clearQueue` ends the process. -/
theorem Endpoint.Reached.clearQueue_killed (h : Endpoint.Reached N msgSize e)
    (hc : e.session.client.connected = false) {ending : ClearEnd} {e' : Endpoint}
    (hclear : e.ClearQueue msgSize ending e') : ending = .killed := by
  cases hclear with
  | passed h' =>
      rw [hc] at h'
      cases h'
  | looped _ hfollow loop => exact absurd hfollow (h.not_canFollow hc)
  | killed _ hfollow => rfl

/-- In a state that has been reached, a ring without messages and a count of 0 are all there is to be
cleared. -/
theorem Endpoint.Reached.cleared_iff (hN : 2 ≤ N) (h : Endpoint.Reached N msgSize e)
    (hc : e.session.client.connected = true) :
    Cleared msgSize e ↔ e.mem.readStart = e.mem.writeEnd ∧ e.mem.msgCount = 0 := by
  have hzero : e.view.getMessageCount = 0 ↔ e.mem.msgCount = 0 := getMessageCount_eq_zero_iff hc
  refine ⟨fun hcleared => ⟨hcleared.cursors, hzero.mp hcleared.count⟩, ?_⟩
  rintro ⟨hcursors, hcount⟩
  obtain ⟨queue, taken, hfrom⟩ := h.holds hN
  refine ⟨hcursors, fun m' bytes hread => ?_, hzero.mpr hcount⟩
  have hempty : queue = [] := by
    have hlen : taken = taken + queue.length := hfrom.shows.empty_iff.mp hcursors
    exact List.length_eq_zero_iff.mp (by omega)
  obtain ⟨m₁, taken', hrun, -, -⟩ := hfrom.read msgSize msgSize e.view.msTimeout
  obtain ⟨-, hbytes⟩ := hread.determ hrun
  rw [hempty] at hbytes
  injection hbytes

/-- **`clearQueue` does what it says** exactly on a connected object whose ring is empty and whose count
is 0 already. -/
theorem clearQueue_sound_iff (hN : 2 ≤ N) (h : Endpoint.Reached N msgSize e)
    (husable : e.session.Usable) :
    ClearsSoundly msgSize e ↔
      e.session.client.connected = true ∧ e.mem.readStart = e.mem.writeEnd ∧ e.mem.msgCount = 0 := by
  constructor
  · intro hsound
    cases hc : e.session.client.connected with
    | false => exact absurd (hsound.otherwise hc) (Endpoint.ClearQueue.not_passed hc)
    | true =>
        obtain ⟨ending, e', hclear, -, hcleared⟩ := hsound.connected ⟨hc, husable hc⟩
        obtain rfl := hclear.eq_of_connected hc
        exact ⟨rfl, (h.cleared_iff hN hc).mp hcleared⟩
  · rintro ⟨hc, hempty⟩
    have hcleared := (h.cleared_iff hN hc).mpr hempty
    refine ⟨fun _ => ⟨.passed, e, .passed hc, nofun, hcleared⟩, fun hfalse => ?_⟩
    rw [hc] at hfalse
    cases hfalse

/-- On a queue just connected there is nothing to clear. -/
theorem clearQueue_sound_iff_fresh : ClearsSoundly 4 (Endpoint.fresh 3 1000) :=
  (clearQueue_sound_iff (by decide) (Endpoint.reached_fresh 3 4 1000)
    (Endpoint.usable_fresh 3 1000)).mpr ⟨rfl, rfl, rfl⟩

/-- `clearQueue` leaves a message that has been sent where it is, and on an object that has not been
connected it follows a null pointer. -/
theorem clearQueue_unsound :
    (∃ e, Endpoint.Reached 3 4 e ∧ e.session.Usable ∧ e.mem.messages 3 = [[7, 7]] ∧
      ¬ ClearsSoundly 4 e) ∧
      ¬ ClearsSoundly 4 (Endpoint.new 3 1000) := by
  constructor
  · obtain ⟨taken, hfrom⟩ := holds_create (N := 3) (by decide)
    obtain ⟨m', hrun, hholds, -⟩ := hfrom.write (by decide) 4 (fun _ => 7) 2
    have hcall := MessageQueue.step_send (q := (Endpoint.fresh 3 1000).view) rfl (by decide) hrun
    have husable := Endpoint.usable_fresh 3 1000
    refine ⟨_, .step (Endpoint.reached_fresh 3 4 1000) (.pass husable hcall), husable,
      hholds.messages, fun hsound => ?_⟩
    obtain ⟨ending, e', hclear, -, hcleared⟩ := hsound.connected ⟨rfl, husable rfl⟩
    obtain rfl := hclear.eq_of_connected rfl
    have hempty : taken = taken + 1 := hholds.shows.empty_iff.mp hcleared.cursors
    omega
  · exact fun hsound => Endpoint.ClearQueue.not_passed rfl (hsound.otherwise rfl)

end AtomicMessageQueue
