import AtomicMessageQueue.System.Accounts
import AtomicMessageQueue.System.Contention

/-! # What a call costs

The loops of the queue's methods go round for a reason: a wait has ended, a CAS on a leading cursor was
lost, a done flag was taken down. So what a thread does is paid for by its calls, its waits and the
bytes it copies, and by how often the leading cursors have moved, whoever moved them. However the
threads interleave, no thread goes on for ever inside a method without waiting while the queue stands
still.
-/

namespace AtomicMessageQueue

open Function Transition TicketRing Attempts

variable {ι : Type*}

/-! ## Plain accesses -/

/-- How many plain accesses may come after `return_block`. -/
def ReturnCaller.rank : ReturnCaller → ℕ
  | .holder => 0
  | .again _ _ => 2
  | .read _ => 1

/-- How many plain accesses may come before the next one that is paid for, or the end of the call. -/
def Pc.rank : Pc → ℕ
  | .getBlockWrite _ .load => 2
  | .getBlockWrite _ (.test _) => 1
  | .getBlockWrite _ _ => 0
  | .copyIn _ _ _ _ => 6
  | .storeAmount _ _ _ => 5
  | .postBlock _ (.set _) => 4
  | .postBlock _ .load => 3
  | .postBlock _ (.casDone _) => 2
  | .postBlock _ (.casEnd _) => 7
  | .postBlock _ (.test _) => 6
  | .postBlock _ .setEvent => 5
  | .postBlock _ .broadcast => 4
  | .increment _ => 1
  | .getBlockRead _ .load => 2
  | .getBlockRead _ (.test _) => 1
  | .getBlockRead _ _ => 0
  | .loadAmount _ _ _ => 9
  | .loadMin _ _ => 8
  | .loadDwAmount _ _ => 7
  | .copyOut _ _ _ _ => 6
  | .returnBlock k (.set _) => k.rank + 4
  | .returnBlock k (.clear _) => k.rank + 3
  | .returnBlock k .load => k.rank + 2
  | .returnBlock k (.casDone _) => k.rank + 1
  | .returnBlock k (.casEnd _) => k.rank + 6
  | .returnBlock k (.test _) => k.rank + 5
  | .returnBlock k .setEvent => k.rank + 4
  | .returnBlock k .broadcast => k.rank + 3
  | .decrement _ => 1

/-- The plain accesses to come at an optional program point. -/
def rankAt (pc : Option Pc) : ℕ := pc.elim 0 Pc.rank

theorem ReturnCaller.rank_le (k : ReturnCaller) : k.rank ≤ 2 := by
  cases k <;> simp only [rank] <;> omega

theorem Pc.rank_le (pc : Pc) : pc.rank ≤ 9 := by
  cases pc with
  | returnBlock k pc =>
      have hk := k.rank_le
      cases pc <;> simp only [rank] <;> omega
  | getBlockWrite k pc => cases pc <;> simp only [rank] <;> omega
  | postBlock k pc => cases pc <;> simp only [rank] <;> omega
  | getBlockRead k pc => cases pc <;> simp only [rank] <;> omega
  | _ => simp only [rank]; omega

theorem rankAt_le (pc : Option Pc) : rankAt pc ≤ 9 := by
  cases pc with
  | none => exact Nat.zero_le _
  | some pc => exact pc.rank_le

/-- **Plain accesses run out.** -/
theorem CodeStep.rank {blockSize : ℕ} {wait : WaitStep} {w : WaitEnd} {m m' : MemBuff} {pc : Pc}
    {o : Out Pc Ret} {mk : Option Mark} (h : CodeStep blockSize wait w m pc m' o mk)
    (hkind : pc.kind m = .plain) : rankAt o.pc + 1 ≤ pc.rank := by
  cases h with
  | takeDoneWrite k i hi => simp only [Pc.kind, if_pos hi] at hkind; cases hkind
  | takeDoneRead k i hi => simp only [Pc.kind, if_pos hi] at hkind; cases hkind
  | copyIn pBuff dwAmount b done hlt => simp only [Pc.kind, if_pos hlt] at hkind; cases hkind
  | copyOut buffSize dwAmount b bytes hlt => simp only [Pc.kind, if_pos hlt] at hkind; cases hkind
  | leavePost k =>
      cases k <;> simp only [PostCaller.resume, Out.pc, rankAt, Option.elim, Pc.rank] <;> omega
  | emptyReturn k =>
      cases k <;> simp only [ReadCaller.resume, Out.pc, rankAt, Option.elim, Pc.rank] <;> omega
  | leaveReturn k =>
      cases k <;>
        simp only [ReturnCaller.resume, Out.pc, rankAt, Option.elim, Pc.rank, ReturnCaller.rank] <;> omega
  | waitAvail => cases hkind
  | retryWrite => cases hkind
  | timeoutWrite => cases hkind
  | claim => cases hkind
  | claimLost => cases hkind
  | waitSignal => cases hkind
  | retryRead => cases hkind
  | timeoutRead => cases hkind
  | take => cases hkind
  | takeLost => cases hkind
  | _ => simp only [Out.pc, rankAt, Option.elim, Pc.rank, ReturnCaller.rank]; omega

/-! ## Paid accesses -/

/-- The CASes on the leading cursors are the attempts of the races. -/
theorem Pc.tries_eq (m : MemBuff) (pc : Pc) :
    (writeAttempt m pc).tries + (readAttempt m pc).tries =
      if pc.kind m = .attempt then 1 else 0 := by
  cases pc with
  | getBlockWrite k pc =>
      cases pc with
      | cas i => by_cases hi : m.writeStart = i <;> simp [writeAttempt, readAttempt, Pc.kind, hi, Attempt.tries]
      | _ => rfl
  | getBlockRead k pc =>
      cases pc with
      | cas i => by_cases hi : m.readStart = i <;> simp [writeAttempt, readAttempt, Pc.kind, hi, Attempt.tries]
      | _ => rfl
  | copyIn pBuff dwAmount b done =>
      by_cases hlt : done < dwAmount <;> simp [writeAttempt, readAttempt, Pc.kind, hlt, Attempt.tries]
  | copyOut buffSize dwAmount b bytes =>
      by_cases hlt : bytes.length < dwAmount <;>
        simp [writeAttempt, readAttempt, Pc.kind, hlt, Attempt.tries]
  | postBlock k pc =>
      cases pc with
      | casDone i =>
          by_cases hi : (m.blocks i).doneWrite = 1 <;>
            simp [writeAttempt, readAttempt, Pc.kind, hi, Attempt.tries]
      | _ => rfl
  | returnBlock k pc =>
      cases pc with
      | casDone i =>
          by_cases hi : (m.blocks i).doneRead = 1 <;>
            simp [writeAttempt, readAttempt, Pc.kind, hi, Attempt.tries]
      | _ => rfl
  | _ => rfl

/-- A round of helping starts when a flag is taken down. -/
theorem CodeStep.rounds {blockSize : ℕ} {wait : WaitStep} {w : WaitEnd} {m m' : MemBuff} {pc : Pc}
    {o : Out Pc Ret} {mk : Option Mark} (h : CodeStep blockSize wait w m pc m' o mk)
    (hist : List Mark) :
    writesTaken (mk.toList ++ hist) + readsTaken (mk.toList ++ hist) =
      writesTaken hist + readsTaken hist + if pc.kind m = .round then 1 else 0 := by
  cases h with
  | takeDoneWrite k i hi =>
      simp only [Pc.kind, if_pos hi, if_true]
      exact Nat.add_right_comm _ _ _
  | takeDoneRead k i hi =>
      simp only [Pc.kind, if_pos hi, if_true]
      exact (Nat.add_assoc _ _ _).symm
  | leavePost k i hi => simp only [Pc.kind, if_neg hi]; rfl
  | leaveReturn k i hi => simp only [Pc.kind, if_neg hi]; rfl
  | copyIn pBuff dwAmount b done hlt => simp only [Pc.kind, if_pos hlt]; rfl
  | copiedIn pBuff dwAmount b done hlt => simp only [Pc.kind, if_neg hlt]; rfl
  | copyOut buffSize dwAmount b bytes hlt => simp only [Pc.kind, if_pos hlt]; rfl
  | copiedOut buffSize dwAmount b bytes hlt => simp only [Pc.kind, if_neg hlt]; rfl
  | _ => rfl

/-! ## The books of a thread -/

/-- The accesses a thread has made inside the methods. -/
def Notes.accesses (n : Notes ι) (t : ι) : ℕ :=
  n.steps t .wait + n.steps t .byte + n.steps t .attempt + n.steps t .round + n.steps t .plain

/-- The steps of a thread that pay for its plain accesses. -/
def Notes.paying (n : Notes ι) (t : ι) : ℕ :=
  n.steps t .call + n.steps t .wait + n.steps t .byte + n.steps t .attempt + n.steps t .round

/-- What a thread has done is paid for: its plain accesses by the others, its CASes on the leading
cursors by the races, its rounds of helping by the flags that were taken down. -/
structure Settled (s : State ι) (n : Notes ι) : Prop where
  plain : ∀ t, n.steps t .plain + rankAt (s.threads t).pc ≤ 9 * n.paying t
  attempts : ∀ t, n.steps t .attempt =
    n.write.won t + n.write.lost t + (n.read.won t + n.read.lost t)
  rounds : ∀ t, n.steps t .round ≤ writesTaken s.hist + readsTaken s.hist

section Step

variable [DecidableEq ι] {cfg : Config ι} {ok : State ι × Notes ι → ι × Choice → Prop}
  {p : State ι × Notes ι} {s s' : State ι} {n : Notes ι} {a : ι × Choice}

theorem steps_note (s : State ι) (a : ι × Choice) (n : Notes ι) (t : ι) (k : Kind) :
    (note s a n).steps t k = n.steps t k + if t = a.1 ∧ s.kindOf a = k then 1 else 0 := by
  by_cases ht : t = a.1
  · subst ht
    by_cases hk : s.kindOf a = k
    · subst hk
      simp only [note, update_self, and_self, if_true]
    · simp only [note, update_self, update_of_ne (Ne.symm hk), hk, and_false, if_false, Nat.add_zero]
  · simp only [note, update_of_ne ht, ht, false_and, if_false, Nat.add_zero]

theorem paying_note (s : State ι) (a : ι × Choice) (n : Notes ι) (t : ι) :
    (note s a n).paying t = n.paying t + if t = a.1 ∧ s.kindOf a ≠ .plain then 1 else 0 := by
  unfold Notes.paying
  simp only [steps_note]
  by_cases ht : t = a.1
  · cases s.kindOf a <;> simp [ht] <;> omega
  · simp [ht]

/-- Plain accesses take the rank of a thread down, the other steps pay for them. -/
theorem Settled.plain_step (h : Settled s n) (hs : step cfg s a = some s') (t : ι) :
    (note s a n).steps t .plain + rankAt (s'.threads t).pc ≤ 9 * (note s a n).paying t := by
  have hold := h.plain t
  rw [steps_note, paying_note]
  obtain ⟨u, ch⟩ := a
  rcases step_cases hs with ⟨c, rfl, hpc, -, -, rfl⟩ | ⟨w, pc, m', o, mk, rfl, hpc, hcode, rfl⟩ <;>
    by_cases ht : t = u
  · subst ht
    have hrank := rankAt_le (some c.enter)
    simp only [update_self, State.kindOf, true_and, ne_eq, reduceCtorEq, not_false_eq_true, if_true,
      if_false]
    omega
  · simpa only [update_of_ne ht, ht, false_and, if_false, Nat.add_zero] using hold
  · subst ht
    have hkind : s.kindOf (t, .run w) = pc.kind s.mem := by simp only [State.kindOf, hpc]
    simp only [update_self, hkind, true_and, Local.after]
    by_cases hplain : pc.kind s.mem = .plain
    · have hdown := hcode.rank hplain
      rw [hpc] at hold
      change n.steps t .plain + pc.rank ≤ _ at hold
      simp only [hplain, ne_eq, not_true_eq_false, if_true, if_false, Nat.add_zero]
      omega
    · have hrank := rankAt_le o.pc
      simp only [ne_eq, hplain, not_false_eq_true, if_true, if_false]
      omega
  · simpa only [update_of_ne ht, ht, false_and, if_false, Nat.add_zero] using hold

/-- **Step lemma of the books.** -/
theorem Settled.step (h : Settled s n) (hs : step cfg s a = some s') :
    Settled s' (note s a n) := by
  refine ⟨h.plain_step hs, fun t => ?_, fun t => ?_⟩
  · have hold := h.attempts t
    rw [steps_note]
    simp only [note, Race.tried_apply]
    obtain ⟨u, ch⟩ := a
    rcases step_cases hs with ⟨c, rfl, -, -, -, rfl⟩ | ⟨w, pc, m', o, mk, rfl, hpc, -, rfl⟩
    · simp only [State.kindOf, Gate.attemptOf, reduceCtorEq, and_false, if_false, Attempt.tries, ite_self]
      exact hold
    · have htries := pc.tries_eq s.mem
      simp only [State.kindOf, Gate.attemptOf, hpc]
      change n.steps t .attempt + _ = n.write.won t + n.write.lost t +
        (if t = u then (writeAttempt s.mem pc).tries else 0) + (n.read.won t + n.read.lost t +
        if t = u then (readAttempt s.mem pc).tries else 0)
      by_cases ht : t = u
      · simp only [ht, true_and, if_true] at hold ⊢
        omega
      · simp only [ht, false_and, if_false]
        omega
  · have hold := h.rounds t
    rw [steps_note]
    obtain ⟨u, ch⟩ := a
    rcases step_cases hs with ⟨c, rfl, -, -, -, rfl⟩ | ⟨w, pc, m', o, mk, rfl, hpc, hcode, rfl⟩
    · simp only [State.kindOf, reduceCtorEq, and_false, if_false]
      exact hold
    · rw [hcode.rounds]
      simp only [State.kindOf, hpc]
      by_cases hround : pc.kind s.mem = .round
      · simp only [hround, and_true, if_true]
        split <;> omega
      · simp only [hround, and_false, if_false]
        exact hold

/-! ## What holds of every run -/

theorem settled_of_noted (h : Noted cfg ok p) : Settled p.1 p.2 := by
  refine h.invariant (I := fun p => Settled p.1 p.2) ⟨fun _ => ?_, fun _ => ?_, fun _ => ?_⟩ ?_
  · exact Nat.zero_le _
  · rfl
  · exact Nat.zero_le _
  · rintro p a p' - hi - hs
    obtain ⟨hstep, hnote⟩ := noted_eq_some.mp hs
    rw [hnote]
    exact hi.step hstep

/-- **Lock-freedom.** The accesses a thread has made inside the methods are bounded by its calls, its
accesses inside waits, the bytes it has copied, and the moves of the two leading cursors. -/
theorem accesses_le (hN : 2 ≤ cfg.blockCount) (h : Noted cfg ok p) (t : ι) :
    p.2.accesses t ≤ 10 * (p.2.steps t .call + p.2.steps t .wait + p.2.steps t .byte) +
      20 * (claims p.1.hist + takes p.1.hist) := by
  have hsettled := settled_of_noted h
  obtain ⟨hwrite, hread⟩ := raced_of_noted hN h
  have hplain : Reached cfg anyStep p.1 := h.forget fun _ _ _ => trivial
  have hbooks := booked_of_reached hN hplain
  have hplain := hsettled.plain t
  have hattempts : p.2.steps t .attempt ≤ claims p.1.hist + takes p.1.hist := by
    have htries := hsettled.attempts t
    have hw : p.2.write.won t + p.2.write.lost t + p.2.write.since t ≤ claims p.1.hist :=
      (hwrite.paid t).trans_eq hwrite.moves
    have hr : p.2.read.won t + p.2.read.lost t + p.2.read.since t ≤ takes p.1.hist :=
      (hread.paid t).trans_eq hread.moves
    omega
  have hrounds : p.2.steps t .round ≤ claims p.1.hist + takes p.1.hist := by
    have hflags : writesTaken p.1.hist ≤ claims p.1.hist :=
      hbooks.write.flags.le.trans hbooks.write.finishes_le
    have hflags' : readsTaken p.1.hist ≤ takes p.1.hist :=
      hbooks.read.flags.le.trans hbooks.read.finishes_le
    have := hsettled.rounds t
    omega
  unfold Notes.accesses
  unfold Notes.paying at hplain
  omega

end Step

theorem accesses_le_raceForBlock :
    ∃ p, Noted (holders 3 3 2) anyStep p ∧ p.2.accesses 0 = 3 ∧
      3 ≤ 10 * (p.2.steps 0 .call + p.2.steps 0 .wait + p.2.steps 0 .byte) +
        20 * (claims p.1.hist + takes p.1.hist) := by
  obtain ⟨p, hp, haccesses⟩ : ∃ p, Noted (holders 3 3 2) anyStep p ∧ p.2.accesses 0 = 3 :=
    Reach.exists_of_run raceForBlock (by decide +kernel)
  exact ⟨p, hp, haccesses, haccesses.symm.le.trans (accesses_le (by decide) hp 0)⟩

end AtomicMessageQueue
