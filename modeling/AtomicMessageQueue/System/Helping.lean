import AtomicMessageQueue.System.Exclusion

/-! # Helping the trailing cursors

`post_block` and `return_block` share the work of moving `m_writeEnd` and `m_readEnd`: a thread takes
the done flag it finds at the cursor and then tries to move the cursor. `cursors_oldest_open` shows,
for runs in which `get_block_write` and `get_block_read` are atomic, that once every helper has left,
the cursor stands at the oldest block that is not done, provided no such CAS failed on the way. The
schedule at the end makes one fail: its helper had read the cursor a lap ago.
-/

namespace AtomicMessageQueue

open Function Transition TicketRing

/-! ## Atomic gets -/

/-- A thread is inside `get_block_write` or `get_block_read`. -/
def Pc.isGet : Pc → Bool
  | .getBlockWrite _ _ => true
  | .getBlockRead _ _ => true
  | _ => false

/-- A thread that is inside `get_block_write` or `get_block_read`. -/
def Local.inGet (l : Local) : Bool := l.pc.any Pc.isGet

/-- Nobody moves while another thread is inside `get_block_write` or `get_block_read`, so that each
of these is one atomic step. -/
def GetsAtomic {ι : Type*} (s : State ι) (a : ι × Choice) : Prop :=
  ∀ t, t ≠ a.1 → (s.threads t).inGet = false

instance {n : ℕ} (s : State (Fin n)) (a : Fin n × Choice) : Decidable (GetsAtomic s a) :=
  inferInstanceAs (Decidable (∀ t, t ≠ a.1 → (s.threads t).inGet = false))

/-- What a thread has read inside an atomic get still holds. -/
def Pc.Tight (m : MemBuff) : Pc → Prop
  | .getBlockWrite _ (.test i) => i = m.writeStart
  | .getBlockWrite _ (.cas i) => i = m.writeStart ∧ (m.blocks i).next ≠ m.readEnd
  | .getBlockRead _ (.test i) => i = m.readStart
  | .getBlockRead _ (.cas i) => i = m.readStart ∧ i ≠ m.writeEnd
  | _ => True

theorem Pc.tight_of_not_isGet {m : MemBuff} {pc : Pc} (h : pc.isGet = false) : pc.Tight m := by
  cases pc with
  | getBlockWrite k p => cases h
  | getBlockRead k p => cases h
  | _ => trivial

/-- An access keeps what its own thread has read inside a get. -/
theorem CodeStep.tight {blockSize : ℕ} {wait : WaitStep} {w : WaitEnd} {m m' : MemBuff} {pc pc' : Pc}
    {o : Out Pc Ret} {mk : Option Mark} (h : CodeStep blockSize wait w m pc m' o mk)
    (ht : pc.Tight m) (ho : o.pc = some pc') : pc'.Tight m' := by
  cases h with
  | loadWriteStart k =>
      obtain rfl := Option.some.inj ho
      exact rfl
  | room k i hi =>
      obtain rfl := Option.some.inj ho
      exact ⟨ht, hi⟩
  | loadReadStart k =>
      obtain rfl := Option.some.inj ho
      exact rfl
  | message k i hi =>
      obtain rfl := Option.some.inj ho
      exact ⟨ht, hi⟩
  | claim k => cases k <;> cases ho; trivial
  | timeoutWrite k => cases k <;> cases ho
  | leavePost k => cases k <;> cases ho; trivial
  | emptyReturn k => cases k <;> cases ho
  | timeoutRead k => cases k <;> cases ho
  | take k => cases k <;> cases ho; trivial
  | leaveReturn k => cases k <;> cases ho <;> trivial
  | increment => cases ho
  | decrement => cases ho
  | _ =>
      obtain rfl := Option.some.inj ho
      trivial

variable {ι : Type*}

/-- In a run with atomic gets at most one thread is inside one, and what it has read still holds. -/
structure OneGet (s : State ι) : Prop where
  unique : ∀ t u, (s.threads t).inGet = true → (s.threads u).inGet = true → t = u
  tight : ∀ t pc, (s.threads t).pc = some pc → pc.Tight s.mem

theorem OneGet.step [DecidableEq ι] {cfg : Config ι} {s s' : State ι} {a : ι × Choice} (h : OneGet s)
    (hok : GetsAtomic s a) (hs : step cfg s a = some s') : OneGet s' := by
  obtain ⟨t, ch⟩ := a
  have hother : ∀ u, u ≠ t → (s.threads u).inGet = false := hok
  have hpcs : ∀ u, u ≠ t → s'.threads u = s.threads u := by
    intro u hu
    rcases step_cases hs with ⟨c, -, -, -, -, rfl⟩ | ⟨w, pc, m', o, mk, -, hpc, hcode, rfl⟩ <;>
      exact update_of_ne hu _ _
  constructor
  · intro u v hu hv
    have hsame : ∀ x, (s'.threads x).inGet = true → x = t := by
      intro x hx
      by_contra hne
      rw [hpcs x hne, hother x hne] at hx
      cases hx
    exact (hsame u hu).trans (hsame v hv).symm
  · intro u pc hpc
    by_cases hu : u = t
    · subst hu
      rcases step_cases hs with ⟨c, -, -, -, -, rfl⟩ | ⟨w, pc₀, m', o, mk, -, hpc₀, hcode, rfl⟩
      · simp only [update_self, Option.some.injEq] at hpc
        subst hpc
        cases c <;> trivial
      · simp only [update_self] at hpc
        exact hcode.tight (h.tight u pc₀ hpc₀) hpc
    · refine Pc.tight_of_not_isGet ?_
      have hget := hother u hu
      rw [hpcs u hu] at hpc
      simpa only [Local.inGet, hpc, Option.any_some] using hget

/-- With atomic gets both CASes act on tests that still hold. -/
theorem OneGet.fresh {s : State ι} (h : OneGet s) (a : ι × Choice) : Fresh s a := by
  constructor
  · intro i hi
    obtain ⟨w, k, -, hpc, -⟩ := hi.inv
    exact (h.tight _ _ hpc).2
  · intro i hi
    obtain ⟨w, k, -, hpc, -⟩ := hi.inv
    exact (h.tight _ _ hpc).2

/-- A run with atomic gets is a run whose CASes act on tests that still hold. -/
theorem fresh_of_getsAtomic [DecidableEq ι] {cfg : Config ι} {ok : State ι → ι × Choice → Prop} {s : State ι}
    (h : Reached cfg (fun s a => GetsAtomic s a ∧ ok s a) s) :
    Reached cfg (fun s a => Fresh s a ∧ ok s a) s ∧ OneGet s := by
  have hone : ∀ {s}, Reached cfg (fun s a => GetsAtomic s a ∧ ok s a) s → OneGet s := fun h =>
    h.invariant ⟨fun _ _ => nofun, fun _ _ => nofun⟩ fun _ _ _ _ hi hok hs => hi.step hok.1 hs
  refine ⟨?_, hone h⟩
  induction h with
  | init => exact .init
  | step reach guard next ih => exact .step ih ⟨(hone reach).fresh _, guard.2⟩ next

/-! ## Moves that do not miss -/

/-- A CAS that is to move `m_writeEnd` or `m_readEnd` over a block whose done flag was taken finds
the cursor still there. -/
def MovesHit (s : State ι) (a : ι × Choice) : Prop :=
  (∀ i, writeView.actOf s a ≠ .miss i) ∧ ∀ i, readView.actOf s a ≠ .miss i

/-- A thread inside `post_block`. -/
def Local.inPost (l : Local) : Bool := l.pc.any fun
  | .postBlock _ _ => true
  | _ => false

/-- A thread inside `return_block`. -/
def Local.inReturn (l : Local) : Bool := l.pc.any fun
  | .returnBlock _ _ => true
  | _ => false

instance (s : State ι) (a : ι × Choice) : Decidable (MovesHit s a) :=
  inferInstanceAs (Decidable (_ ∧ _))

theorem Local.writeHelper_out {l : Local} (h : l.inPost = false) : writeHelper l.pc = .out := by
  cases hpc : l.pc with
  | none => rfl
  | some pc =>
      cases pc with
      | postBlock k p => simp only [Local.inPost, hpc, Option.any_some] at h; cases h
      | _ => rfl

theorem Local.readHelper_out {l : Local} (h : l.inReturn = false) : readHelper l.pc = .out := by
  cases hpc : l.pc with
  | none => rfl
  | some pc =>
      cases pc with
      | returnBlock k p => simp only [Local.inReturn, hpc, Option.any_some] at h; cases h
      | _ => rfl

/-- The trailing cursor stands at the slot of the oldest ticket that is not done, or at the leading
cursor when all tickets are done. -/
def OldestOpen (N count : ℕ) (ticket : ℕ → ℕ) (done : ℕ → Bool) (trailing leading : ℕ) : Prop :=
  (∃ q, q < count ∧ done q = false ∧ (∀ p, p < q → done p = true) ∧ trailing = q % N ∧
      ticket trailing = q) ∨
    ((∀ p, p < count → done p = true) ∧ trailing = leading)

/-- Once all helpers of a side have left, its trailing position is the oldest ticket that is not
done. -/
theorem oldestOpen_of_out {N : ℕ} {v : View} {s : State ι} {trailing leading : ℕ}
    (hinv : Side.Inv N (v.side s)) (hprog : Side.Progress N (v.side s))
    (hout : ∀ t, v.helper (s.threads t).pc = .out)
    (htrailing : trailing = v.fin s.hist % N) (hleading : leading = v.start s.hist % N)
    (hticket : ∀ q, q < v.start s.hist → v.start s.hist ≤ q + N →
      v.ticket s.hist (q % N) = q) :
    OldestOpen N (v.start s.hist) (v.ticket s.hist) (v.done s.hist) trailing leading := by
  have hfin : ¬ v.done s.hist (v.fin s.hist) = true := hprog.not_done hout
  have hbelow : ∀ q, q < v.fin s.hist → v.done s.hist q = true := hinv.done_of_lt
  have hle : v.fin s.hist ≤ v.start s.hist := hinv.fin_le
  have hwindow : v.start s.hist < v.fin s.hist + N := hinv.window
  rcases hle.lt_or_eq with hlt | heq
  · refine .inl ⟨v.fin s.hist, hlt, by simpa using hfin, hbelow, htrailing, ?_⟩
    rw [htrailing]
    exact hticket _ hlt hwindow.le
  · exact .inr ⟨heq ▸ hbelow, by rw [htrailing, hleading, heq]⟩

/-- Both sides make progress in every run with atomic gets and moves that hit. -/
theorem progress_of_reached [DecidableEq ι] {cfg : Config ι} (hN : 2 ≤ cfg.blockCount) {s : State ι}
    (h : Reached cfg (fun s a => Fresh s a ∧ MovesHit s a) s) :
    Side.Progress cfg.blockCount (writeView.side s) ∧
      Side.Progress cfg.blockCount (readView.side s) := by
  refine h.invariant (I := fun s => Side.Progress cfg.blockCount (writeView.side s) ∧
    Side.Progress cfg.blockCount (readView.side s)) ⟨?_, ?_⟩ fun s a s' hreach ih hok hs => ?_
  · exact .of_fresh (writeSide_fresh hN)
  · exact .of_fresh (readSide_fresh hN)
  · have hinv := ringInv_of_reached hN (hreach.mono fun _ _ h => h.1)
    obtain ⟨henw, heqw⟩ := writeSide_step hinv.cursors (hinv.wf a.1) hs
    obtain ⟨henr, heqr⟩ := readSide_step hinv.cursors (hinv.wf a.1) hs
    rw [heqw, heqr]
    exact ⟨ih.1.apply hinv.write henw hok.2.1, ih.2.apply hinv.read henr hok.2.2⟩

/-- **Helping leaves no block behind.** In every run with atomic gets whose moves hit, `m_writeEnd`
stands at the oldest claimed block that has not been posted whenever nobody is inside `post_block`,
and `m_readEnd` at the oldest taken block that has not been returned whenever nobody is inside
`return_block`. -/
theorem cursors_oldest_open [DecidableEq ι] {cfg : Config ι} (hN : 2 ≤ cfg.blockCount) {s : State ι}
    (h : Reached cfg (fun s a => GetsAtomic s a ∧ MovesHit s a) s) :
    ((∀ t, (s.threads t).inPost = false) →
      OldestOpen cfg.blockCount (claims s.hist) (writeTicket s.hist) (posted s.hist)
        s.mem.writeEnd s.mem.writeStart) ∧
    ((∀ t, (s.threads t).inReturn = false) →
      OldestOpen cfg.blockCount (takes s.hist) (readTicket s.hist) (returned s.hist)
        s.mem.readEnd s.mem.readStart) := by
  have hfresh := (fresh_of_getsAtomic h).1
  have hinv := ringInv_of_reached hN (hfresh.mono fun _ _ h => h.1)
  obtain ⟨hwrite, hread⟩ := progress_of_reached hN hfresh
  constructor
  · intro hout
    refine oldestOpen_of_out (v := writeView) hinv.write hwrite (fun t => ?_)
      hinv.cursors.writeEnd hinv.cursors.writeStart hinv.cursors.writeTicket
    exact Local.writeHelper_out (hout t)
  · intro hout
    refine oldestOpen_of_out (v := readView) hinv.read hread (fun t => ?_)
      hinv.cursors.readEnd hinv.cursors.readStart hinv.cursors.readTicket
    exact Local.readHelper_out (hout t)

/-- Two writers post out of order in a ring of four blocks: block 2 is posted, block 1 still held, and
the reader holds block 0. -/
def outOfOrder : List (Fin 3 × Choice) :=
  posting 0 0 9 ++ during 0 .getBlockWrite 3 ++ posting 1 2 3 ++ during 2 (.getBlockRead 1) 3

theorem cursors_oldest_open_outOfOrder :
    ∃ s, Reached (holders 3 4 2) (fun s a => GetsAtomic s a ∧ MovesHit s a) s ∧
      claims s.hist = 3 ∧ takes s.hist = 1 ∧
      OldestOpen 4 (claims s.hist) (writeTicket s.hist) (posted s.hist) s.mem.writeEnd
        s.mem.writeStart ∧
      OldestOpen 4 (takes s.hist) (readTicket s.hist) (returned s.hist) s.mem.readEnd
        s.mem.readStart := by
  obtain ⟨s, hs, hclaims, htakes, hpost, hreturn⟩ :
      ∃ s, Reached (holders 3 4 2) (fun s a => GetsAtomic s a ∧ MovesHit s a) s ∧
        claims s.hist = 3 ∧ takes s.hist = 1 ∧ (∀ t, (s.threads t).inPost = false) ∧
        ∀ t, (s.threads t).inReturn = false :=
    Reach.exists_of_run outOfOrder (by decide +kernel)
  have hN : 2 ≤ (holders 3 4 2).blockCount := by decide
  obtain ⟨hwrite, hread⟩ := cursors_oldest_open hN hs
  exact ⟨s, hs, hclaims, htakes, hwrite hpost, hread hreturn⟩

/-- Thread 0 reads `m_writeEnd` while it is at block 0 and acts on it a lap later, when thread 2 has
just posted block 0 again: it takes the flag and its CAS fails. -/
def staleHelper : List (Fin 4 × Choice) :=
  during 0 .getBlockWrite 3 ++ during 1 .getBlockWrite 3 ++ during 0 (.postBlock 0) 2 ++
  during 1 (.postBlock 1) 13 ++ returning 3 0 10 ++ returning 3 1 8 ++
  during 1 .getBlockWrite 3 ++ during 2 .getBlockWrite 3 ++ during 2 (.postBlock 0) 3 ++ runs 0 5 ++
  during 1 (.postBlock 2) 9

/-- Four blocks have been claimed and posted, everybody has left, and `m_writeEnd` stays behind
`m_writeStart`. -/
theorem writeEnd_left_behind :
    ∃ s, Reached (holders 4 3 3) GetsAtomic s ∧ (∀ t, (s.threads t).pc.isNone) ∧
      ¬ OldestOpen 3 (claims s.hist) (writeTicket s.hist) (posted s.hist) s.mem.writeEnd
        s.mem.writeStart := by
  obtain ⟨s, hs, hout, hall, hne⟩ : ∃ s, Reached (holders 4 3 3) GetsAtomic s ∧
      (∀ t, (s.threads t).pc.isNone) ∧ (∀ p, p < claims s.hist → posted s.hist p = true) ∧
      s.mem.writeEnd ≠ s.mem.writeStart :=
    Reach.exists_of_run staleHelper (by decide +kernel)
  refine ⟨s, hs, hout, ?_⟩
  rintro (⟨q, hq, hopen, -⟩ | ⟨-, heq⟩)
  · rw [hall q hq] at hopen
    cases hopen
  · exact hne heq

end AtomicMessageQueue
