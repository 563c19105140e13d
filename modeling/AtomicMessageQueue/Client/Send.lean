import AtomicMessageQueue.Client.Endpoint

/-! # What the result of `send` says

Reference: `MessageQueue.h`, `send`. The result is made of the number of bytes `write` has copied, and
`write` returns 0 when it has found no block. It returns 0 too when it has posted an empty message, so
that `send` reports a timeout for a message that is in the queue.
-/

namespace AtomicMessageQueue

open MessageQueue

/-- The cursors, the messages between them and the message count are the same. -/
structure SameQueue (N : ℕ) (m m' : MemBuff) : Prop where
  writeStart : m'.writeStart = m.writeStart
  writeEnd : m'.writeEnd = m.writeEnd
  readStart : m'.readStart = m.readStart
  readEnd : m'.readEnd = m.readEnd
  messages : m'.messages N = m.messages N
  count : m'.msgCount = m.msgCount

/-- What the result of `send` is to say: it is 1 exactly if the message has been appended, whole, to the
queue, and if it is 0 or -1 the queue is as it was. -/
structure SendsSoundly (N : ℕ) (buffer : ℕ → UInt8) (msgLength : ℕ) (m : MemBuff) (ending : CallEnd)
    (m' : MemBuff) : Prop where
  one_iff : ending = .returned 1 ↔
    m'.messages N = m.messages N ++ [(List.range msgLength).map buffer]
  otherwise : ending = .returned 0 ∨ ending = .returned (-1) → SameQueue N m m'

/-- `get_block_write` finds a block. -/
def MemBuff.HasRoom (m : MemBuff) : Prop := (m.blocks m.writeStart).next ≠ m.readEnd

variable {N msgSize msgLength taken : ℕ} {m m' : MemBuff} {queue : List (List UInt8)}
  {buffer : ℕ → UInt8}

theorem SameQueue.refl (N : ℕ) (m : MemBuff) : SameQueue N m m :=
  ⟨rfl, rfl, rfl, rfl, rfl, rfl⟩

/-- Two buffers that hold the same messages in the same blocks show the same queue. -/
theorem HoldsFrom.sameQueue (h : HoldsFrom N m taken queue) (h' : HoldsFrom N m' taken queue)
    (hcount : m'.msgCount = m.msgCount) : SameQueue N m m' where
  writeStart := h'.shows.writeStart.trans h.shows.writeStart.symm
  writeEnd := h'.shows.writeEnd.trans h.shows.writeEnd.symm
  readStart := h'.shows.readStart.trans h.shows.readStart.symm
  readEnd := h'.shows.readEnd.trans h.shows.readEnd.symm
  messages := h'.messages.trans h.messages.symm
  count := hcount

/-- There is room while fewer than all blocks but one hold messages. -/
theorem HoldsFrom.hasRoom_iff (h : HoldsFrom N m taken queue) :
    m.HasRoom ↔ queue.length ≠ N - 1 := by
  have hlt := h.length_lt
  rw [MemBuff.HasRoom, Ne, h.shows.full_iff]
  simp only [listPositions]
  omega

/-- A call that has left the queue alone is sound unless it returned 1. -/
theorem SendsSoundly.of_same {ending : CallEnd} (hsame : SameQueue N m m')
    (hne : ending ≠ .returned 1) : SendsSoundly N buffer msgLength m ending m' where
  one_iff := by
    rw [hsame.messages]
    exact ⟨fun h => absurd h hne, fun h => absurd h (by simp)⟩
  otherwise _ := hsame

/-- What `write` does, and what `send` makes of it, once the checks of `send` are passed. -/
theorem send_write_sound_iff (hN : 2 ≤ N) (h : HoldsFrom N m taken queue)
    (hlen : msgLength ≤ msgSize) {sts : ℕ}
    (hcall : Completes msgSize m (.write buffer msgLength) m' (.wrote sts)) :
    SendsSoundly N buffer msgLength m (.returned (sendResult sts msgLength)) m' ↔
      ¬ (msgLength = 0 ∧ m.HasRoom) := by
  obtain ⟨m₁, hrun, hholds, hcount⟩ := h.write hN msgSize buffer msgLength
  obtain ⟨rfl, hsts⟩ := hcall.determ hrun
  obtain rfl : sts = (listWrite (N - 1) msgSize buffer msgLength queue).1 := by injection hsts
  by_cases hfull : queue.length = N - 1
  · -- no block: nothing has been written, and the result is 0
    have hroom : ¬ m.HasRoom := by rw [h.hasRoom_iff]; exact not_not.mpr hfull
    simp only [listWrite, if_pos hfull] at hholds hcount ⊢
    refine ⟨fun _ hempty => hroom hempty.2, fun _ => .of_same (h.sameQueue hholds hcount) ?_⟩
    simp [sendResult]
  · have hroom : m.HasRoom := h.hasRoom_iff.mpr hfull
    simp only [listWrite, if_neg hfull, Nat.min_eq_left hlen] at hholds hcount ⊢
    rcases Nat.eq_zero_or_pos msgLength with rfl | hpos
    · -- the empty message is in the queue, and the result is 0
      refine ⟨fun hsound => ?_, fun hnot => absurd ⟨rfl, hroom⟩ hnot⟩
      have hsame := hsound.otherwise (.inl (by simp [sendResult]))
      have hmessages := hsame.messages
      rw [hholds.messages, h.messages] at hmessages
      simp at hmessages
    · refine ⟨fun _ hempty => by omega, fun _ => ?_⟩
      have hresult : sendResult msgLength msgLength = 1 := by
        rw [sendResult, if_neg (by omega), if_neg (by simp)]
      rw [hresult]
      refine ⟨⟨fun _ => ?_, fun _ => rfl⟩, fun hret => ?_⟩
      · rw [hholds.messages, h.messages]
      · rcases hret with hret | hret <;> simp at hret

/-- A `send` of a connected object that passes the length check is the call of `write`. -/
theorem Endpoint.send_write {e e' : Endpoint} {ending : CallEnd} (hready : e.session.Usable)
    (hc : e.session.client.connected = true) (hlen : msgLength ≤ msgSize)
    (hsend : e.Send msgSize buffer msgLength ending e') :
    ∃ m' sts, Completes msgSize e.mem (.write buffer msgLength) m' (.wrote sts) ∧
      ending = .returned (sendResult sts msgLength) ∧ e' = { e with mem := m' } := by
  cases hsend with
  | returned h call =>
      have hnot : ¬ (e.view.connected = false ∨ msgSize < msgLength) := by
        rintro (hfalse | hlong)
        · exact Bool.false_ne_true (hfalse.symm.trans hc)
        · omega
      rw [MessageQueue.Send, if_neg hnot] at call
      obtain ⟨m', sts, hcall, rfl, rfl⟩ := call
      exact ⟨m', sts, hcall, rfl, rfl⟩
  | killed h hlen => exact absurd hready h

/-- A `send` refused by the checks, or killed, leaves the queue alone. -/
theorem Endpoint.send_refused {e e' : Endpoint} {ending : CallEnd}
    (h : e.session.client.connected = false ∨ ¬ e.session.Usable ∨ msgSize < msgLength)
    (hsend : e.Send msgSize buffer msgLength ending e') : ending ≠ .returned 1 ∧ e'.mem = e.mem := by
  cases hsend with
  | returned hfollow call =>
      have hcheck : e.view.connected = false ∨ msgSize < msgLength := by
        rcases h with hc | hu | hlong
        · exact .inl hc
        · exact .inr (hfollow.resolve_left hu)
        · exact .inr hlong
      rw [MessageQueue.Send, if_pos hcheck] at call
      obtain ⟨rfl, rfl⟩ := call
      exact ⟨by decide, rfl⟩
  | killed h hlen => exact ⟨by decide, rfl⟩

/-- `send` comes to an end. -/
theorem Endpoint.Reached.send_ends (hN : 2 ≤ N) {e : Endpoint} (h : Endpoint.Reached N msgSize e)
    (buffer : ℕ → UInt8) (msgLength : ℕ) :
    ∃ ending e', e.Send msgSize buffer msgLength ending e' := by
  by_cases hfollow : e.session.Usable ∨ msgSize < msgLength
  · by_cases hcheck : e.view.connected = false ∨ msgSize < msgLength
    · have hcall : e.view.Send msgSize buffer msgLength (-1) e.view := by
        rw [MessageQueue.Send, if_pos hcheck]
        exact ⟨rfl, rfl⟩
      exact ⟨_, _, .returned hfollow hcall⟩
    · obtain ⟨queue, taken, hfrom⟩ := h.holds hN
      obtain ⟨m', hrun, -⟩ := hfrom.write hN msgSize buffer msgLength
      have hcall : e.view.Send msgSize buffer msgLength
          (sendResult (listWrite (N - 1) msgSize buffer msgLength queue).1 msgLength)
          { e.view with mem := m' } := by
        rw [MessageQueue.Send, if_neg hcheck]
        exact ⟨m', _, hrun, rfl, rfl⟩
      exact ⟨_, _, .returned hfollow hcall⟩
  · obtain ⟨hkill, hlong⟩ := not_or.mp hfollow
    exact ⟨_, _, .killed hkill (not_lt.mp hlong)⟩

/-- **The result of `send` says what has happened**, exactly unless an empty message is sent on a
connected object and finds room. `send` comes to an end in every state, and it returns unless the
object has been closed while it was connected and the message is not too long. -/
theorem send_sound_iff (hN : 2 ≤ N) {e : Endpoint} (h : Endpoint.Reached N msgSize e)
    (buffer : ℕ → UInt8) (msgLength : ℕ) :
    (∃ ending e', e.Send msgSize buffer msgLength ending e') ∧
      ∀ ending e', e.Send msgSize buffer msgLength ending e' →
        (ending = .killed ↔ ¬ e.session.Usable ∧ msgLength ≤ msgSize) ∧
        (SendsSoundly N buffer msgLength e.mem ending e'.mem ↔
          ¬ (msgLength = 0 ∧ (e.session.client.connected = true ∧ e.session.Usable) ∧
            e.mem.HasRoom)) := by
  refine ⟨h.send_ends hN buffer msgLength, fun ending e' hsend => ⟨?_, ?_⟩⟩
  · cases hsend with
    | returned hfollow call =>
        refine ⟨nofun, fun hkill => ?_⟩
        rcases hfollow with hu | hlong
        · exact absurd hu hkill.1
        · omega
    | killed hkill hlen => exact ⟨fun _ => ⟨hkill, hlen⟩, fun _ => rfl⟩
  · by_cases hcheck : e.session.client.connected = false ∨ ¬ e.session.Usable ∨ msgSize < msgLength
    · obtain ⟨hne, hmem⟩ := Endpoint.send_refused hcheck hsend
      refine ⟨fun _ hempty => ?_, fun _ => .of_same (by rw [hmem]; exact .refl N e.mem) hne⟩
      obtain ⟨hzero, ⟨hc, hu⟩, -⟩ := hempty
      rcases hcheck with hfalse | hkill | hlong
      · rw [hc] at hfalse
        cases hfalse
      · exact hkill hu
      · omega
    · obtain ⟨hc, hu, hlen⟩ : e.session.client.connected = true ∧ e.session.Usable ∧
          msgLength ≤ msgSize := by simpa using hcheck
      obtain ⟨queue, taken, hfrom⟩ := h.holds hN
      obtain ⟨m', sts, hcall, rfl, rfl⟩ := Endpoint.send_write hu hc hlen hsend
      rw [send_write_sound_iff hN hfrom hlen hcall]
      simp only [hc, hu, and_self, true_and]

/-- Three blocks: two bytes are sent on a queue just connected. -/
theorem send_sound_iff_twoBytes :
    ∃ ending e', (Endpoint.fresh 3 1000).Send 4 (fun _ => 7) 2 ending e' ∧
      SendsSoundly 3 (fun _ => 7) 2 (Endpoint.fresh 3 1000).mem ending e'.mem := by
  obtain ⟨⟨ending, e', hsend⟩, hiff⟩ :=
    send_sound_iff (by decide) (Endpoint.reached_fresh 3 4 1000) (fun _ => 7) 2
  exact ⟨ending, e', hsend, (hiff ending e' hsend).2.mpr fun h => absurd h.1 (by decide)⟩

/-- An empty message sent on a queue just connected is in the queue, and `send` returns 0. -/
theorem send_unsound :
    ∃ e e', Endpoint.Reached 3 4 e ∧ e.Send 4 (fun _ => 0) 0 (.returned 0) e' ∧
      e'.mem.messages 3 = e.mem.messages 3 ++ [[]] ∧
      ¬ SendsSoundly 3 (fun _ => 0) 0 e.mem (.returned 0) e'.mem := by
  obtain ⟨taken, hfrom⟩ := holds_create (N := 3) (by decide)
  obtain ⟨m', hrun, hholds, -⟩ := hfrom.write (by decide) 4 (fun _ => 0) 0
  have hmessages : m'.messages 3 = (create 3).messages 3 ++ [[]] := by
    rw [hholds.messages, hfrom.messages]
    rfl
  have hcall : (Endpoint.fresh 3 1000).view.Send 4 (fun _ => 0) 0 0
      { (Endpoint.fresh 3 1000).view with mem := m' } :=
    MessageQueue.step_send (q := (Endpoint.fresh 3 1000).view) rfl (by decide) hrun
  refine ⟨_, _, Endpoint.reached_fresh 3 4 1000,
    .returned (.inl (Endpoint.usable_fresh 3 1000)) hcall, hmessages, fun hsound => ?_⟩
  have hsame := (hsound.otherwise (.inl rfl)).messages
  rw [show (Endpoint.fresh 3 1000).mem = create 3 from rfl] at hsame
  exact absurd (hmessages.symm.trans hsame) (by simp)

end AtomicMessageQueue
