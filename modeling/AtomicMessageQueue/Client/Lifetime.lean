import AtomicMessageQueue.Client.Connect
import Mathlib.Data.List.Induction

/-! # The life of a connection

Reference: `MessageQueue.h`, constructor, destructor, `connect`, `disconnect`, `close`, and the guards of
`send`, `receive` and `getMessageCount`; `shmIPC.h`, `ShmQueue::disconnect` and the destructor. Whether
the queue can be used is spread over `connected_`, `queue_` and `m_pBuffer`: `disconnect` unmaps the
buffer and keeps both pointers, `close` deletes the queue, which unmaps the buffer too, and keeps
`connected_`. The three agree as long as nothing is closed that has been connected.
-/

namespace AtomicMessageQueue

/-! ## The calls -/

/-- `munmap` of mapping `b`. -/
def Mappings.unmap (k : Mappings) (b : ℕ) : Mappings := { k with unmapped := b :: k.unmapped }

/-- The mapping has been made and not been unmapped. -/
def Mappings.Mapped (k : Mappings) (b : ℕ) : Prop := b < k.count ∧ b ∉ k.unmapped

/-- `ShmQueue::disconnect`. `m_pBuffer` keeps its value. -/
def ShmQueue.disconnect (q : ShmQueue) (maps : Mappings) : Mappings :=
  match q.buffer with
  | none => maps
  | some b => maps.unmap b

/-- `ShmQueue::~ShmQueue`. -/
def ShmQueue.destroy (q : ShmQueue) (maps : Mappings) : Mappings := q.disconnect maps

/-- A `MessageQueue` and the mappings made through it. -/
structure Session where
  client : Client
  maps : Mappings
deriving DecidableEq, Repr

/-- `MessageQueue(std::string path)`. -/
def Session.new : Session := { client := notConnected, maps := noMappings }

/-- `connect`, when it returns 0. -/
def Session.connect (s : Session) : Session :=
  { client := .attached s.maps.count, maps := s.maps.map }

/-- `MessageQueue::disconnect`. -/
def Session.disconnect (s : Session) : Session :=
  match s.client.queue with
  | some q =>
      if s.client.connected then
        { client := { s.client with connected := false }, maps := q.disconnect s.maps }
      else s
  | none => s

/-- `MessageQueue::close`. -/
def Session.close (s : Session) : Session :=
  match s.client.queue with
  | some q => { client := { s.client with queue := none }, maps := q.destroy s.maps }
  | none => s

/-- `MessageQueue::~MessageQueue`. -/
def Session.destroy (s : Session) : Session := s.disconnect

/-- The calls on a `MessageQueue`. -/
inductive ClientCall
  | connect
  | send
  | receive
  | getMessageCount
  | disconnect
  | close
deriving DecidableEq, Repr

/-- The session after a call. Passing messages changes neither the pointers nor the mappings. -/
def Session.after (s : Session) : ClientCall → Session
  | .connect => s.connect
  | .send => s
  | .receive => s
  | .getMessageCount => s
  | .disconnect => s.disconnect
  | .close => s.close

/-- The buffer a call follows, if it follows one; nothing inside is a null pointer. `send`, `receive`
and `getMessageCount` return -1 unless `connected_` is true. -/
def Session.follows (s : Session) : ClientCall → Option (Option ℕ)
  | .send | .receive | .getMessageCount =>
      if s.client.connected then some (s.client.queue.bind ShmQueue.buffer) else none
  | _ => none

/-- The session after a sequence of calls on a new `MessageQueue`. -/
def Session.run (calls : List ClientCall) : Session := calls.foldl Session.after Session.new

theorem run_append (calls rest : List ClientCall) :
    Session.run (calls ++ rest) = rest.foldl Session.after (Session.run calls) := by
  rw [Session.run, List.foldl_append, Session.run]

theorem run_snoc (calls : List ClientCall) (c : ClientCall) :
    Session.run (calls ++ [c]) = (Session.run calls).after c := by
  rw [run_append, List.foldl_cons, List.foldl_nil]

/-- A success of `connect` is the step modelled here. -/
theorem connect_eq_session {cfg : Layout} {sys : SystemCalls} {leftover : ℤ} {s : Session}
    {seg : Segment}
    (h : (s.client.connect cfg sys leftover s.maps seg).ending = .returned 0) :
    s.connect = ⟨(s.client.connect cfg sys leftover s.maps seg).client,
      (s.client.connect cfg sys leftover s.maps seg).maps⟩ := by
  rw [(connect_succeeds h).1, (connect_succeeds h).2]
  rfl

/-! ## Sound sessions -/

/-- While `connected_` is true, `queue_` is not null and its buffer is mapped. -/
def Session.Usable (s : Session) : Prop :=
  s.client.connected = true → ∃ b, s.client.queue = some { buffer := some b } ∧ s.maps.Mapped b

/-- After every call the session is usable, no call follows a null or unmapped buffer, and after the
destructor no mapping has been unmapped twice. -/
structure Sound (calls : List ClientCall) : Prop where
  usable : ∀ pre, pre <+: calls → (Session.run pre).Usable
  follows : ∀ pre c, pre ++ [c] <+: calls →
    ∀ buffer ∈ (Session.run pre).follows c, ∃ b, buffer = some b ∧ (Session.run pre).maps.Mapped b
  once : (Session.run calls).destroy.maps.unmapped.Nodup

/-- No `close` comes after a `connect`. -/
def NeverClosed (calls : List ClientCall) : Prop :=
  ∀ pre suf, calls = pre ++ .close :: suf → .connect ∉ pre

/-- A session that has been connected and not closed: the queue has a buffer, mapped exactly while the
session is connected, and no mapping has been unmapped twice. -/
structure Attached (s : Session) (b : ℕ) : Prop where
  queue : s.client.queue = some { buffer := some b }
  made : b < s.maps.count
  mapped_iff : s.client.connected = true ↔ b ∉ s.maps.unmapped
  unmapped_lt : ∀ i ∈ s.maps.unmapped, i < s.maps.count
  once : s.maps.unmapped.Nodup

section Steps

variable {s : Session} {b : ℕ}

theorem Attached.usable (h : Attached s b) : s.Usable := fun hc =>
  ⟨b, h.queue, h.made, h.mapped_iff.mp hc⟩

/-- A usable session follows mapped buffers only. -/
theorem Session.Usable.follows (h : s.Usable) {c : ClientCall} {buffer : Option ℕ}
    (hb : buffer ∈ s.follows c) : ∃ b, buffer = some b ∧ s.maps.Mapped b := by
  cases hc : s.client.connected with
  | false => cases c <;> simp [Session.follows, hc] at hb
  | true =>
      obtain ⟨b, hqueue, hmapped⟩ := h hc
      refine ⟨b, ?_, hmapped⟩
      cases c <;> simp only [Session.follows, hc, hqueue, if_true, Option.mem_def] at hb
      all_goals first
        | exact (Option.some.inj hb).symm
        | cases hb

/-- Connecting attaches the session to the next mapping. -/
theorem attached_connect (hlt : ∀ i ∈ s.maps.unmapped, i < s.maps.count)
    (honce : s.maps.unmapped.Nodup) : Attached s.connect s.maps.count where
  queue := rfl
  made := Nat.lt_succ_self _
  mapped_iff := ⟨fun _ hmem => absurd (hlt _ hmem) (lt_irrefl _), fun _ => rfl⟩
  unmapped_lt := fun i hi => (hlt i hi).trans (Nat.lt_succ_self _)
  once := honce

/-- `disconnect` does nothing on an object that is not connected. -/
theorem Session.disconnect_of_not_connected (hc : s.client.connected = false) : s.disconnect = s := by
  unfold Session.disconnect
  split
  · rw [if_neg (by rw [hc]; decide)]
  · rfl

/-- Disconnecting unmaps the buffer once. -/
theorem Attached.disconnect (h : Attached s b) : Attached s.disconnect b := by
  cases hc : s.client.connected with
  | false =>
      rw [Session.disconnect_of_not_connected hc]
      exact h
  | true =>
      have heq : s.disconnect =
          { client := { s.client with connected := false }, maps := s.maps.unmap b } := by
        simp only [Session.disconnect, h.queue, hc, if_true, ShmQueue.disconnect]
      rw [heq]
      refine ⟨h.queue, h.made, ⟨nofun, fun hmem => absurd List.mem_cons_self hmem⟩, ?_, ?_⟩
      · intro i hi
        rcases List.mem_cons.mp hi with rfl | hi
        · exact h.made
        · exact h.unmapped_lt i hi
      · exact List.nodup_cons.mpr ⟨h.mapped_iff.mp hc, h.once⟩

/-- **Step lemma.** Every call but `close` keeps an attached session attached. -/
theorem Attached.step (h : Attached s b) {c : ClientCall} (hc : c ≠ .close) :
    ∃ b', Attached (s.after c) b' := by
  cases c with
  | connect => exact ⟨_, attached_connect h.unmapped_lt h.once⟩
  | send => exact ⟨b, h⟩
  | receive => exact ⟨b, h⟩
  | getMessageCount => exact ⟨b, h⟩
  | disconnect => exact ⟨b, h.disconnect⟩
  | close => exact absurd rfl hc

/-- Closing an attached session leaves it connected to nothing, or unmaps its buffer again. -/
theorem Attached.close (h : Attached s b) :
    ¬ s.close.Usable ∨ ¬ s.close.maps.unmapped.Nodup := by
  have heq : s.close = { client := { s.client with queue := none }, maps := s.maps.unmap b } := by
    simp only [Session.close, h.queue, ShmQueue.destroy, ShmQueue.disconnect]
  rw [heq]
  cases hc : s.client.connected with
  | false =>
      right
      have hmem : b ∈ s.maps.unmapped := by
        by_contra hnot
        rw [h.mapped_iff.mpr hnot] at hc
        cases hc
      exact fun hnodup => (List.nodup_cons.mp hnodup).1 hmem
  | true =>
      left
      intro husable
      obtain ⟨b', hqueue, -⟩ := husable hc
      cases hqueue

theorem ShmQueue.disconnect_suffix (q : ShmQueue) (maps : Mappings) :
    maps.unmapped <:+ (q.disconnect maps).unmapped := by
  unfold ShmQueue.disconnect
  split
  · exact List.suffix_refl _
  · exact List.suffix_cons _ _

theorem disconnect_suffix (s : Session) : s.maps.unmapped <:+ s.disconnect.maps.unmapped := by
  unfold Session.disconnect
  split
  · split
    · exact ShmQueue.disconnect_suffix _ _
    · exact List.suffix_refl _
  · exact List.suffix_refl _

/-- What has been unmapped stays so. -/
theorem unmapped_suffix (s : Session) (c : ClientCall) :
    s.maps.unmapped <:+ (s.after c).maps.unmapped := by
  cases c with
  | connect => exact List.suffix_refl _
  | send => exact List.suffix_refl _
  | receive => exact List.suffix_refl _
  | getMessageCount => exact List.suffix_refl _
  | disconnect => exact disconnect_suffix s
  | close =>
      show s.maps.unmapped <:+ s.close.maps.unmapped
      unfold Session.close
      split
      · exact ShmQueue.disconnect_suffix _ _
      · exact List.suffix_refl _

theorem unmapped_suffix_foldl (s : Session) (calls : List ClientCall) :
    s.maps.unmapped <:+ (calls.foldl Session.after s).maps.unmapped := by
  induction calls generalizing s with
  | nil => exact List.suffix_refl _
  | cons c calls ih => exact (unmapped_suffix s c).trans (ih (s.after c))

end Steps

/-! ## Sequences of calls -/

theorem NeverClosed.of_prefix {pre calls : List ClientCall} (h : NeverClosed calls)
    (hpre : pre <+: calls) : NeverClosed pre := by
  obtain ⟨rest, rfl⟩ := hpre
  rintro p suf rfl
  exact h p (suf ++ rest) (by rw [List.append_assoc, List.cons_append])

/-- Before the first `connect` nothing happens; after it the session is attached. -/
theorem NeverClosed.run {calls : List ClientCall} (h : NeverClosed calls) :
    (.connect ∉ calls ∧ Session.run calls = .new) ∨
      (.connect ∈ calls ∧ ∃ b, Attached (Session.run calls) b) := by
  induction calls using List.reverseRecOn with
  | nil => exact .inl ⟨nofun, rfl⟩
  | append_singleton calls c ih =>
      rw [run_snoc]
      rcases ih (h.of_prefix (List.prefix_append _ _)) with ⟨hnot, hrun⟩ | ⟨hmem, b, hatt⟩
      · rw [hrun]
        by_cases hc : c = .connect
        · subst hc
          exact .inr ⟨by simp, _, attached_connect nofun List.nodup_nil⟩
        · refine .inl ⟨by simp [hnot, Ne.symm hc], ?_⟩
          cases c with
          | connect => exact absurd rfl hc
          | _ => rfl
      · have hc : c ≠ .close := by
          rintro rfl
          exact h calls [] rfl hmem
        exact .inr ⟨List.mem_append_left _ hmem, hatt.step hc⟩

/-- A sequence is extended by a call that is not a `close` after a `connect`. -/
theorem NeverClosed.snoc {pre : List ClientCall} (h : NeverClosed pre) {c : ClientCall}
    (hc : c = .close → .connect ∉ pre) : NeverClosed (pre ++ [c]) := by
  intro p suf heq
  rcases List.eq_nil_or_concat suf with rfl | ⟨suf', c', rfl⟩
  · obtain ⟨rfl, rfl⟩ : pre = p ∧ c = .close := by simpa using heq
    exact hc rfl
  · rw [List.concat_eq_append, ← List.cons_append, ← List.append_assoc] at heq
    exact h p suf' (List.append_inj' heq rfl).1

/-- A `close` after a `connect` makes a session unsound. -/
theorem Sound.not_closed {calls pre : List ClientCall} (h : Sound calls)
    (hleading : pre ++ [.close] <+: calls) (hpre : NeverClosed pre) : .connect ∉ pre := by
  intro hmem
  obtain ⟨-, b, hatt⟩ := hpre.run.resolve_left fun hnot => hnot.1 hmem
  rcases hatt.close with husable | hnodup
  · refine husable ?_
    rw [show (Session.run pre).close = Session.run (pre ++ [.close]) from (run_snoc pre .close).symm]
    exact h.usable _ hleading
  · -- the buffer that is unmapped twice stays so to the end
    obtain ⟨rest, rfl⟩ := hleading
    have hsuffix : (Session.run pre).close.maps.unmapped <:+
        (Session.run (pre ++ [.close] ++ rest)).destroy.maps.unmapped := by
      rw [run_append, run_snoc]
      exact (unmapped_suffix_foldl _ rest).trans (disconnect_suffix _)
    exact hnodup (h.once.sublist hsuffix.sublist)

theorem Sound.neverClosed {calls : List ClientCall} (h : Sound calls) : NeverClosed calls := by
  suffices hpre : ∀ pre, pre <+: calls → NeverClosed pre from hpre calls (List.prefix_refl _)
  intro pre
  induction pre using List.reverseRecOn with
  | nil => exact fun _ p suf heq => absurd heq (by simp)
  | append_singleton pre c ih =>
      intro hleading
      have hbefore := ih ((List.prefix_append _ _).trans hleading)
      refine hbefore.snoc ?_
      rintro rfl
      exact h.not_closed hleading hbefore

theorem NeverClosed.sound {calls : List ClientCall} (h : NeverClosed calls) : Sound calls := by
  have husable : ∀ pre, pre <+: calls → (Session.run pre).Usable := by
    intro pre hpre
    rcases (h.of_prefix hpre).run with ⟨-, hrun⟩ | ⟨-, b, hatt⟩
    · rw [hrun]
      exact nofun
    · exact hatt.usable
  refine ⟨husable, fun pre c hpre buffer hb => ?_, ?_⟩
  · exact (husable pre ((List.prefix_append _ _).trans hpre)).follows hb
  · rcases h.run with ⟨-, hrun⟩ | ⟨-, b, hatt⟩
    · rw [hrun]
      exact List.nodup_nil
    · exact hatt.disconnect.once

/-- **A session is sound exactly if it is never closed after it has been connected.** -/
theorem session_sound_iff (calls : List ClientCall) : Sound calls ↔ NeverClosed calls :=
  ⟨Sound.neverClosed, NeverClosed.sound⟩

/-- A session that is closed while connected is connected to nothing; one that is closed after it was
disconnected unmaps its buffer twice. -/
theorem session_unsound : ¬ Sound [.connect, .close] ∧ ¬ Sound [.connect, .disconnect, .close] := by
  constructor
  · intro h
    obtain ⟨b, hqueue, -⟩ := h.usable _ (List.prefix_refl _) rfl
    cases hqueue
  · intro h
    exact absurd h.once (by decide)

end AtomicMessageQueue
