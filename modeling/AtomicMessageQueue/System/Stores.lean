import AtomicMessageQueue.Lib.Annotation
import AtomicMessageQueue.Lib.Shares
import AtomicMessageQueue.System.Machine

/-! # What `write` stores

The marks of a run name the bytes that a store of `Amount` completes, and not the call they belong to. A
log of the calls ties the two together: whoever else writes, what a thread has stored are the messages of
its calls, each cut to the size of a block, in the order of the calls. Only the call it is in may be
missing.
-/

namespace AtomicMessageQueue

open Function Transition Shares

variable {ι : Type*}

/-! ## The log -/

/-- The arguments of a call of `write`. -/
structure WriteCall where
  pBuff : ℕ → UInt8
  amount : ℕ

/-- The message of a call of `write`: the first `std::min(amount, BLOCK_SIZE)` bytes of its buffer. -/
def WriteCall.message (blockSize : ℕ) (c : WriteCall) : List UInt8 :=
  (List.range (min c.amount blockSize)).map c.pBuff

/-- The calls of `write` each thread has made, those that have timed out left out, oldest first; and the
threads that have stored a message, in the order of the stores. -/
structure CallLog (ι : Type*) where
  writes : ι → List WriteCall
  authors : List ι

/-- No call has been made. -/
def CallLog.start : CallLog ι where
  writes := fun _ => []
  authors := []

section Log

variable [DecidableEq ι]

/-- Thread `t` has called `write`. -/
def CallLog.push (n : CallLog ι) (t : ι) (c : WriteCall) : CallLog ι :=
  { n with writes := update n.writes t (n.writes t ++ [c]) }

/-- The log after an access of thread `t`: `write` has returned without a block, or stored its message. -/
def CallLog.after (n : CallLog ι) (t : ι) : Pc → Out Pc Ret → Option Mark → CallLog ι
  | .getBlockWrite _ _, .ret (.wrote _), _ =>
      { n with writes := update n.writes t (n.writes t).dropLast }
  | _, _, some (.fill _ _) => { n with authors := n.authors ++ [t] }
  | _, _, _ => n

/-- What a step adds to the log. -/
def logged (cfg : Config ι) (s : State ι) (a : ι × Choice) (n : CallLog ι) : CallLog ι :=
  match a with
  | (t, .call (.write pBuff amount)) => n.push t ⟨pBuff, amount⟩
  | (_, .call _) => n
  | (t, .run w) =>
      match (s.threads t).pc with
      | none => n
      | some pc =>
          match codeStep cfg.blockSize cfg.wait w s.mem pc with
          | none => n
          | some (_, o, mk) => n.after t pc o mk

/-- The states reached, with the log of the calls. -/
abbrev Logged (cfg : Config ι) (ok : State ι → ι × Choice → Prop) : State ι × CallLog ι → Prop :=
  Reach (noted (step cfg) (logged cfg)) (fun p a => ok p.1 a) (start cfg, .start)

theorem logged_run {cfg : Config ι} {s : State ι} {t : ι} {w : WaitEnd} {pc : Pc} {m' : MemBuff}
    {o : Out Pc Ret} {mk : Option Mark} (hpc : (s.threads t).pc = some pc)
    (hcode : CodeStep cfg.blockSize cfg.wait w s.mem pc m' o mk) (n : CallLog ι) :
    logged cfg s (t, .run w) n = n.after t pc o mk := by
  simp only [logged, hpc, hcode.eq]

end Log

/-! ## What a thread owes -/

/-- The messages of the calls of a thread are those it has stored, and in a call of `write` the one it
is about to store. -/
def Owes (blockSize : ℕ) (calls : List WriteCall) (stored : List (List UInt8)) : Option Pc → Prop
  | some (.getBlockWrite (.write pBuff amount) _) =>
      calls.map (WriteCall.message blockSize) = stored ++ [WriteCall.message blockSize ⟨pBuff, amount⟩]
  | some (.copyIn pBuff dwAmount _ _) =>
      calls.map (WriteCall.message blockSize) = stored ++ [(List.range dwAmount).map pBuff]
  | some (.storeAmount pBuff dwAmount _) =>
      calls.map (WriteCall.message blockSize) = stored ++ [(List.range dwAmount).map pBuff]
  | _ => calls.map (WriteCall.message blockSize) = stored

theorem Owes.settled {blockSize : ℕ} {calls : List WriteCall} {stored : List (List UInt8)}
    {pc : Option Pc} (h : Owes blockSize calls stored pc) :
    stored <+: calls.map (WriteCall.message blockSize) ∧ calls.length ≤ stored.length + 1 := by
  have hlen : calls.length = (calls.map (WriteCall.message blockSize)).length :=
    (List.length_map _).symm
  unfold Owes at h
  split at h
  case h_4 => exact ⟨h ▸ List.prefix_rfl, by rw [hlen, h]; exact Nat.le_succ _⟩
  all_goals exact ⟨h ▸ List.prefix_append _ _, by rw [hlen, h, List.length_append]; exact Nat.le_refl _⟩

/-- Each thread owes what it has not stored of its calls. -/
structure Balanced [DecidableEq ι] (blockSize : ℕ) (s : State ι) (n : CallLog ι) : Prop where
  authors : n.authors.length = (written s.hist).length
  owes : ∀ t, Owes blockSize (n.writes t) (share n.authors (written s.hist) t) (s.threads t).pc

section Step

variable [DecidableEq ι] {cfg : Config ι} {ok : State ι → ι × Choice → Prop} {s s' : State ι}
  {n : CallLog ι} {a : ι × Choice} {t : ι} {w : WaitEnd} {m' : MemBuff} {pc : Pc} {o : Out Pc Ret}
  {mk : Option Mark}

/-- A thread's own access keeps what it owes: it stores the message of its call, or gives the call up. -/
theorem Owes.step
    (h : Owes cfg.blockSize (n.writes t) (share n.authors (written s.hist) t) (some pc))
    (hlen : n.authors.length = (written s.hist).length)
    (hcode : CodeStep cfg.blockSize cfg.wait w s.mem pc m' o mk) :
    Owes cfg.blockSize ((n.after t pc o mk).writes t)
      (share (n.after t pc o mk).authors (written (mk.toList ++ s.hist)) t) o.pc := by
  cases hcode with
  | loadWriteStart k | full k | room k | waitAvail k | retryWrite k | claim k | claimLost k =>
      cases k <;> exact h
  | timeoutWrite k =>
      cases k with
      | holder => exact h
      | write pBuff amount =>
          show (update n.writes t (n.writes t).dropLast t).map _ = _
          rw [update_self, List.map_dropLast, h, List.dropLast_concat]
          rfl
  | storeAmount pBuff dwAmount b =>
      show (n.writes t).map _ = share (n.authors ++ [t]) (written s.hist ++ [_]) t
      rw [share_snoc hlen, if_pos rfl]
      exact h
  | leavePost k | leaveReturn k => cases k <;> exact h
  | emptyReturn k | timeoutRead k | take k => cases k <;> exact h
  | _ => exact h

/-- An access of another thread leaves alone what a thread has called and stored. -/
theorem CallLog.after_of_ne {u : ι} (hut : u ≠ t) (hlen : n.authors.length = (written s.hist).length)
    (hcode : CodeStep cfg.blockSize cfg.wait w s.mem pc m' o mk) :
    (n.after t pc o mk).writes u = n.writes u ∧
      share (n.after t pc o mk).authors (written (mk.toList ++ s.hist)) u =
        share n.authors (written s.hist) u := by
  cases hcode with
  | timeoutWrite k =>
      cases k with
      | holder => exact ⟨rfl, rfl⟩
      | write pBuff amount => exact ⟨update_of_ne hut _ _, rfl⟩
  | storeAmount pBuff dwAmount b =>
      refine ⟨rfl, ?_⟩
      show share (n.authors ++ [t]) (written s.hist ++ [_]) u = _
      rw [share_snoc hlen, if_neg hut.symm, List.append_nil]
  | claim k => cases k <;> exact ⟨rfl, rfl⟩
  | _ => exact ⟨rfl, rfl⟩

theorem CallLog.after_authors (hlen : n.authors.length = (written s.hist).length)
    (hcode : CodeStep cfg.blockSize cfg.wait w s.mem pc m' o mk) :
    (n.after t pc o mk).authors.length = (written (mk.toList ++ s.hist)).length := by
  cases hcode with
  | storeAmount pBuff dwAmount b =>
      show (n.authors ++ [t]).length = (written s.hist ++ [_]).length
      rw [List.length_append, List.length_append, hlen, List.length_singleton, List.length_singleton]
  | timeoutWrite k => cases k <;> exact hlen
  | claim k => cases k <;> exact hlen
  | _ => exact hlen

/-- **Step lemma of the log.** -/
theorem Balanced.step (h : Balanced cfg.blockSize s n) (hs : AtomicMessageQueue.step cfg s a = some s') :
    Balanced cfg.blockSize s' (logged cfg s a n) := by
  obtain ⟨t, ch⟩ := a
  rcases step_cases hs with ⟨c, rfl, hpc, -, -, rfl⟩ | ⟨w, pc, m', o, mk, rfl, hpc, hcode, rfl⟩
  · have hauthors : (logged cfg s (t, .call c) n).authors = n.authors := by cases c <;> rfl
    refine ⟨hauthors ▸ h.authors, fun u => ?_⟩
    have hold := h.owes u
    rw [hauthors]
    by_cases hut : u = t
    · subst hut
      rw [hpc] at hold
      simp only [update_self]
      cases c with
      | write pBuff amount =>
          show (update n.writes u (n.writes u ++ [⟨pBuff, amount⟩]) u).map _ = _
          rw [update_self, List.map_append, hold]
          rfl
      | _ => exact hold
    · have hwrites : (logged cfg s (t, .call c) n).writes u = n.writes u := by
        cases c with
        | write pBuff amount => exact update_of_ne hut _ _
        | _ => rfl
      simp only [update_of_ne hut, hwrites]
      exact hold
  · rw [logged_run hpc hcode]
    refine ⟨n.after_authors h.authors hcode, fun u => ?_⟩
    have hold := h.owes u
    by_cases hut : u = t
    · subst hut
      rw [hpc] at hold
      simp only [update_self]
      exact hold.step h.authors hcode
    · obtain ⟨hwrites, hshare⟩ := n.after_of_ne hut h.authors hcode
      simp only [update_of_ne hut, hwrites, hshare]
      exact hold

theorem balanced_start : Balanced cfg.blockSize (start cfg) (.start : CallLog ι) := ⟨rfl, fun _ => rfl⟩

/-- **Run lemma of the log.** -/
theorem balanced_of_logged {p : State ι × CallLog ι} (h : Logged cfg ok p) :
    Balanced cfg.blockSize p.1 p.2 := by
  refine h.invariant (I := fun p => Balanced cfg.blockSize p.1 p.2) balanced_start ?_
  rintro p a p' - hi - hs
  obtain ⟨hstep, hlog⟩ := noted_eq_some.mp hs
  rw [hlog]
  exact hi.step hstep

/-- **What `write` stores.** In every run the messages a thread has stored are, in order and byte for
byte, those of its calls of `write` that have not timed out, the first `std::min(amount, BLOCK_SIZE)`
bytes each. Only its last call may still be missing. -/
theorem stored_of_logged {p : State ι × CallLog ι} (h : Logged cfg ok p) (t : ι) :
    share p.2.authors (written p.1.hist) t <+: (p.2.writes t).map (WriteCall.message cfg.blockSize) ∧
      (p.2.writes t).length ≤ (share p.2.authors (written p.1.hist) t).length + 1 :=
  ((balanced_of_logged h).owes t).settled

end Step

end AtomicMessageQueue
