import AtomicMessageQueue.Lib.Settling
import AtomicMessageQueue.Sequential.Holders

/-! # Giving blocks back in any order

`post_block` and `return_block` first raise the flag of their block and then go rounds of a loop, and
it depends on the order of the calls which of them goes which round. The rounds of the two loops touch
different flags and cursors, and raising a flag that is down commutes with every round, so that all
orders end in the same buffer.
-/

namespace AtomicMessageQueue

open Function Relation Settling Simulation TicketQueue TicketRing

/-- A block given back: by the writer it was handed out to, or by the reader. -/
inductive Give
  | post (b : ℕ)
  | giveBack (b : ℕ)
deriving DecidableEq, Repr

namespace Give

/-- The call that gives the block back. -/
def call : Give → Call
  | .post b => .postBlock b
  | .giveBack b => .returnBlock b

/-- The store with which the call begins. -/
def store : Give → ℕ × (Block → Block)
  | .post b => (b, fun blk => { blk with doneWrite := 1 })
  | .giveBack b => (b, fun blk => { blk with doneRead := 1, amount := 0 })

/-- The buffer after that store. -/
def mark (m : MemBuff) (g : Give) : MemBuff := m.setBlock g.store.1 g.store.2

/-- The flag that the call raises. -/
def flag (m : MemBuff) : Give → ℕ
  | .post b => (m.blocks b).doneWrite
  | .giveBack b => (m.blocks b).doneRead

end Give

/-- A round of either loop. -/
def Round (m m' : MemBuff) : Prop := PostRound m m' ∨ ReturnRound m m'

/-! ## Stores and rounds commute -/

variable {m m' : MemBuff}

/-- Stores into two blocks commute, and so do two stores into one block that touch different
fields. -/
theorem MemBuff.setBlock_comm (m : MemBuff) {b b' : ℕ} {f g : Block → Block}
    (h : b ≠ b' ∨ ∀ blk, g (f blk) = f (g blk)) :
    (m.setBlock b f).setBlock b' g = (m.setBlock b' g).setBlock b f := by
  by_cases hb : b' = b
  · subst hb
    have hfg := h.resolve_left fun hne => hne rfl
    simp only [MemBuff.setBlock, update_self, update_idem, hfg]
  · simp only [MemBuff.setBlock, update_of_ne hb, update_of_ne (Ne.symm hb), MemBuff.mk.injEq,
      and_true]
    exact update_comm (Ne.symm hb) _ _ _

/-- A round of `post_block` commutes with a store that leaves the links alone, if the store goes into
another block than the cursor's or touches another field than `doneWrite`. -/
theorem postRound_setBlock {b : ℕ} {f : Block → Block} (hnext : ∀ blk, (f blk).next = blk.next)
    (hcomm : b ≠ m.writeEnd ∨ ∀ blk, (f blk).writeTaken = f blk.writeTaken) :
    postRound (m.setBlock b f) = (postRound m).setBlock b f := by
  have hnext' : ((m.setBlock b f).blocks m.writeEnd).next = (m.blocks m.writeEnd).next :=
    m.get_setBlock (·.next) hnext _
  rw [postRound_eq, postRound_eq, show (m.setBlock b f).writeEnd = m.writeEnd from rfl, hnext',
    m.setBlock_comm hcomm]
  rfl

theorem returnRound_setBlock {b : ℕ} {f : Block → Block} (hnext : ∀ blk, (f blk).next = blk.next)
    (hprev : ∀ blk, (f blk).prev = blk.prev)
    (hcomm : b ≠ m.readEnd ∨ ∀ blk, (f blk).readTaken = f blk.readTaken) :
    returnRound (m.setBlock b f) = (returnRound m).setBlock b f := by
  have hnext' : ((m.setBlock b f).blocks m.readEnd).next = (m.blocks m.readEnd).next :=
    m.get_setBlock (·.next) hnext _
  have hprev' : ((m.setBlock b f).blocks m.readEnd).prev = (m.blocks m.readEnd).prev :=
    m.get_setBlock (·.prev) hprev _
  rw [returnRound_eq, returnRound_eq, show (m.setBlock b f).readEnd = m.readEnd from rfl, hnext',
    hprev', m.setBlock_comm hcomm]
  rfl

/-- A round of `post_block` does not look at what a round of `return_block` writes. -/
theorem postRound_withReadEnd (m : MemBuff) (readEnd : ℕ) (avail : EventT) :
    postRound { m with readEnd := readEnd, avail := avail } =
      { postRound m with readEnd := readEnd, avail := avail } := by
  rw [postRound_eq, postRound_eq]
  rfl

theorem returnRound_writeEnd (m : MemBuff) : (returnRound m).writeEnd = m.writeEnd := by
  rw [returnRound_eq]
  rfl

theorem postRound_cursors (m : MemBuff) :
    (postRound m).readEnd = m.readEnd ∧ (postRound m).writeStart = m.writeStart ∧
      (postRound m).avail = m.avail := by
  rw [postRound_eq]
  exact ⟨rfl, rfl, rfl⟩

/-- Rounds of the two loops commute. -/
theorem postRound_returnRound (m : MemBuff) :
    postRound (returnRound m) = returnRound (postRound m) := by
  obtain ⟨hnext, hprev⟩ := postRound_links m m.readEnd
  obtain ⟨hend, hstart, havail⟩ := postRound_cursors m
  calc postRound (returnRound m)
      = { postRound (m.setBlock m.readEnd Block.readTaken) with
          readEnd := (m.blocks m.readEnd).next
          avail := if (m.blocks m.readEnd).prev = m.writeStart then m.avail.setState.broadcast
            else m.avail } := by
        rw [returnRound_eq, postRound_withReadEnd]
    _ = { ((postRound m).setBlock m.readEnd Block.readTaken) with
          readEnd := (m.blocks m.readEnd).next
          avail := if (m.blocks m.readEnd).prev = m.writeStart then m.avail.setState.broadcast
            else m.avail } := by
        rw [postRound_setBlock (f := Block.readTaken) (fun _ => rfl) (.inr fun _ => rfl)]
    _ = returnRound (postRound m) := by
        rw [returnRound_eq, hend, hnext, hprev, hstart, havail]

/-! ## The calls as marks that settle -/

/-- A store raises the flag of its own call and no other. -/
theorem flag_mark (m : MemBuff) (g g' : Give) :
    Give.flag (g'.mark m) g = if g = g' then 1 else Give.flag m g := by
  cases g <;> cases g' <;>
    simp only [Give.flag, Give.mark, Give.store, MemBuff.setBlock_blocks, Give.post.injEq,
      Give.giveBack.injEq, reduceCtorEq, if_false] <;>
    split <;> rfl

/-- A round takes down the flag at its cursor and no other. -/
theorem flag_postRound (m : MemBuff) (g : Give) :
    Give.flag (postRound m) g = if g = .post m.writeEnd then 0 else Give.flag m g := by
  rw [postRound_eq]
  cases g <;>
    simp only [Give.flag, MemBuff.setBlock_blocks, Block.writeTaken, Give.post.injEq, reduceCtorEq,
      if_false] <;>
    split <;> rfl

theorem flag_returnRound (m : MemBuff) (g : Give) :
    Give.flag (returnRound m) g = if g = .giveBack m.readEnd then 0 else Give.flag m g := by
  rw [returnRound_eq]
  cases g <;>
    simp only [Give.flag, MemBuff.setBlock_blocks, Block.readTaken, Give.giveBack.injEq,
      reduceCtorEq, if_false] <;>
    split <;> rfl

/-- A flag that is down stays down in a round. -/
theorem Round.flag_down (hround : Round m m') {g : Give} (h : g.flag m ≠ 1) : g.flag m' ≠ 1 := by
  rcases hround with ⟨-, rfl⟩ | ⟨-, rfl⟩
  · rw [flag_postRound]
    split
    · exact Nat.zero_ne_one
    · exact h
  · rw [flag_returnRound]
    split
    · exact Nat.zero_ne_one
    · exact h

/-- A round commutes with the store of a call whose flag is down: they meet only at the block a cursor
stands at, and there the flag the round takes down is up. -/
theorem Round.mark (hround : Round m m') {g : Give} (h : g.flag m ≠ 1) :
    Round (g.mark m) (g.mark m') := by
  have hstay : ∀ g', Give.flag m g' = 1 → Give.flag (g.mark m) g' = 1 := by
    intro g' hup
    rw [flag_mark, hup, ite_self]
  have hnext : ∀ blk, (g.store.2 blk).next = blk.next := fun blk => by cases g <;> rfl
  have hprev : ∀ blk, (g.store.2 blk).prev = blk.prev := fun blk => by cases g <;> rfl
  rcases hround with ⟨hup, rfl⟩ | ⟨hup, rfl⟩
  · refine .inl ⟨hstay (.post m.writeEnd) hup, (postRound_setBlock hnext ?_).symm⟩
    cases g with
    | post b =>
        left
        rintro rfl
        exact h hup
    | giveBack b => exact .inr fun _ => rfl
  · refine .inr ⟨hstay (.giveBack m.readEnd) hup, (returnRound_setBlock hnext hprev ?_).symm⟩
    cases g with
    | post b => exact .inr fun _ => rfl
    | giveBack b =>
        left
        rintro rfl
        exact h hup

theorem round_diamond {m₁ m₂ : MemBuff} (h₁ : Round m m₁) (h₂ : Round m m₂) :
    m₁ = m₂ ∨ ∃ m', Round m₁ m' ∧ Round m₂ m' := by
  have hmeet : PostRound m (postRound m) → ReturnRound m (returnRound m) →
      ∃ m', Round (postRound m) m' ∧ Round (returnRound m) m' := by
    rintro ⟨hpost, -⟩ ⟨hreturn, -⟩
    refine ⟨postRound (returnRound m), .inr ⟨?_, postRound_returnRound m⟩, .inl ⟨?_, rfl⟩⟩
    · rw [(postRound_cursors m).1]
      exact (flag_postRound m (.giveBack m.readEnd)).trans hreturn
    · rw [returnRound_writeEnd]
      exact (flag_returnRound m (.post m.writeEnd)).trans hpost
  rcases h₁ with ⟨hup, rfl⟩ | ⟨hup, rfl⟩ <;> rcases h₂ with ⟨hup', rfl⟩ | ⟨hup', rfl⟩
  · exact .inl rfl
  · exact .inr (hmeet ⟨hup, rfl⟩ ⟨hup', rfl⟩)
  · obtain ⟨m', hpost, hreturn⟩ := hmeet ⟨hup', rfl⟩ ⟨hup, rfl⟩
    exact .inr ⟨m', hreturn, hpost⟩
  · exact .inl rfl

theorem give_lawful :
    Lawful (fun m (g : Give) => g.mark m) Round fun m g => Give.flag m g ≠ 1 where
  diamond _ _ _ h₁ h₂ := round_diamond h₁ h₂
  mark_comm m g g' := m.setBlock_comm (.inr fun blk => by cases g <;> cases g' <;> rfl)
  mark_unmade m g g' hne h := by rwa [flag_mark, if_neg hne]
  round_unmade _ _ _ hround h := hround.flag_down h
  round_mark _ _ _ hround h := hround.mark h

/-! ## The held blocks of a ring at rest -/

/-- The buffer shows these tickets and is between calls: the end cursors have moved as far as they
can. -/
structure Rests (N : ℕ) (m : MemBuff) (c : Positions) : Prop extends Shows N m c where
  unposted : ¬ c.posted c.published
  unreturned : ¬ c.returned c.retired

/-- The block of a ticket that has not been posted, or been taken and not been returned. -/
def Give.Open (N : ℕ) (c : Positions) : Give → Prop
  | .post b => ∃ q, q < c.created ∧ ¬ c.posted q ∧ b = q % N
  | .giveBack b => ∃ q, q < c.taken ∧ ¬ c.returned q ∧ b = q % N

/-- A complete call that gives a block back. -/
def GiveStep (blockSize : ℕ) (m : MemBuff) (g : Give) (m' : MemBuff) : Prop :=
  Completes blockSize m g.call m' .unit

theorem GiveStep.determ {blockSize : ℕ} (m : MemBuff) (g : Give) (m₁ m₂ : MemBuff)
    (h₁ : GiveStep blockSize m g m₁) (h₂ : GiveStep blockSize m g m₂) : m₁ = m₂ :=
  (Completes.determ h₁ h₂).1

section Rests

variable {N blockSize : ℕ} {c : Positions}

theorem Rests.settled (h : Rests N m c) (m' : MemBuff) : ¬ Round m m' := by
  rintro (⟨hup, -⟩ | ⟨hup, -⟩)
  · exact h.writeEnd_down h.unposted hup
  · exact h.readEnd_down h.unreturned hup

/-- The flag of a block that is held is down. -/
theorem Rests.flag_down (h : Rests N m c) {g : Give} (hg : g.Open N c) : g.flag m ≠ 1 := by
  cases g with
  | post b =>
      obtain ⟨q, hq, hopen, rfl⟩ := hg
      have hle : c.published ≤ q := by
        by_contra hlt
        exact hopen (h.write.done_of_lt q (by omega))
      exact mt (h.write.flag_iff q hle (hq.trans h.write.lt)).mp hopen
  | giveBack b =>
      obtain ⟨q, hq, hopen, rfl⟩ := hg
      have hle : c.retired ≤ q := by
        by_contra hlt
        exact hopen (h.read.done_of_lt q (by omega))
      exact mt (h.read.flag_iff q hle (hq.trans h.read.lt)).mp hopen

variable (blockSize)

/-- **Step lemma.** Giving a held block back is a store and rounds; it leaves a ring at rest in which
the other held blocks are still held. -/
theorem Rests.giveBack (h : Rests N m c) {g : Give} (hg : g.Open N c) :
    ∃ m' c', GiveStep blockSize m g m' ∧ Settles Round (g.mark m) m' ∧ Rests N m' c' ∧
      ∀ g', g' ≠ g → g'.Open N c → g'.Open N c' := by
  cases g with
  | post b =>
      obtain ⟨q, hq, hopen, rfl⟩ := hg
      obtain ⟨m', p, hrounds, hshows, -, hp, -⟩ := (h.setDoneWrite hq hopen).postRounds
      have hrest : Rests N m' { c with posted := fun r => r = q ∨ c.posted r, published := p } :=
        { hshows with unposted := hp, unreturned := h.unreturned }
      have hrun := Runs.post_rounds blockSize hrounds (hshows.writeEnd_down hp) .holder
      refine ⟨m', _, .step (.setDoneWrite .holder (q % N)) hrun,
        ⟨hrounds.lift id fun _ _ => .inl, hrest.settled⟩, hrest, ?_⟩
      rintro (b | b) hne hg'
      · obtain ⟨r, hr, hopen', rfl⟩ := hg'
        refine ⟨r, hr, ?_, rfl⟩
        rintro (rfl | hposted)
        · exact hne rfl
        · exact hopen' hposted
      · exact hg'
  | giveBack b =>
      obtain ⟨q, hq, hopen, rfl⟩ := hg
      have hclear := (h.setDoneRead hq hopen).setBlock (q % N)
        (f := fun blk => { blk with amount := 0 }) (fun _ => ⟨rfl, rfl⟩) fun _ => ⟨rfl, rfl⟩
      obtain ⟨m', p, hrounds, hshows, -, hp, -⟩ := hclear.returnRounds
      have hrest : Rests N m' { c with returned := fun r => r = q ∨ c.returned r, retired := p } :=
        { hshows with unposted := h.unposted, unreturned := hp }
      have hrun := Runs.return_rounds blockSize hrounds (hshows.readEnd_down hp) .holder
      have hstore := m.setBlock_setBlock (q % N) (fun blk => { blk with doneRead := 1 })
        fun blk => { blk with amount := 0 }
      rw [hstore] at hrounds
      refine ⟨m', _, .step (.setDoneRead .holder (q % N)) (.step (.clearAmount .holder (q % N)) hrun),
        ⟨hrounds.lift id fun _ _ => .inr, hrest.settled⟩, hrest, ?_⟩
      rintro (b | b) hne hg'
      · exact hg'
      · obtain ⟨r, hr, hopen', rfl⟩ := hg'
        refine ⟨r, hr, ?_, rfl⟩
        rintro (rfl | hreturned)
        · exact hne rfl
        · exact hopen' hreturned

/-- **Run lemma.** Held blocks can be given back one after the other. -/
theorem Rests.giveBacks (h : Rests N m c) {gives : List Give} (hnodup : gives.Nodup)
    (hopen : ∀ g ∈ gives, g.Open N c) :
    ∃ m', Trace (GiveStep blockSize) m gives m' ∧
      Trace (MarkStep (fun m (g : Give) => g.mark m) Round) m gives m' := by
  induction gives generalizing m c with
  | nil => exact ⟨m, .nil m, .nil m⟩
  | cons g gives ih =>
      obtain ⟨hnot, hnodup⟩ := List.nodup_cons.mp hnodup
      obtain ⟨m₁, c₁, hcall, hsettles, hrest, hstay⟩ := h.giveBack blockSize
        (hopen g List.mem_cons_self)
      obtain ⟨m', hcalls, hmarks⟩ := ih hrest hnodup fun g' hg' =>
        hstay g' (fun heq => hnot (heq ▸ hg')) (hopen g' (List.mem_cons_of_mem g hg'))
      exact ⟨m', .cons hcall hcalls, .cons hsettles hmarks⟩

end Rests

/-! ## Any order -/

namespace Holders

/-- The block is held: handed out by `get_block_write` and not posted, or handed out by
`get_block_read` and not returned. -/
def Held (s : Holders) : Give → Prop
  | .post b => ∃ q, s.granted[q]? = some b ∧ s.posted q = false
  | .giveBack b => ∃ q, s.obtained[q]? = some b ∧ s.returned q = false

end Holders

variable {N blockSize published retired : ℕ} {s : Holders} {t : Tickets Content}

theorem Implements.rests (h : Implements N s t published retired) :
    Rests N s.mem (positionsOf t published retired) :=
  { h.shows with
    unposted := by simp [positionsOf, h.unposted]
    unreturned := by simp [positionsOf, h.unreturned] }

theorem Implements.open (h : Implements N s t published retired) {g : Give} (hg : s.Held g) :
    g.Open N (positionsOf t published retired) := by
  cases g with
  | post b =>
      obtain ⟨q, hb, hopen⟩ := hg
      rw [h.granted] at hb
      obtain ⟨hq, rfl⟩ := getElem?_slots hb
      exact ⟨q, hq, by simp [positionsOf, h.posted_eq_none.mp hopen], rfl⟩
  | giveBack b =>
      obtain ⟨q, hb, hopen⟩ := hg
      rw [h.obtained] at hb
      obtain ⟨hq, rfl⟩ := getElem?_slots hb
      exact ⟨q, hq, by simp [positionsOf, ← h.returned, hopen], rfl⟩

/-- **Blocks can be given back in any order.** From every state reached by complete calls, and for
every choice of held blocks, there is one buffer in which every order of giving them back ends. -/
theorem giveBack_anyOrder (hN : 2 ≤ N) (blockSize : ℕ) {events : List (Event Content)}
    (h : Trace (Holders.Step blockSize) (Holders.start N) events s) {gives : List Give}
    (hnodup : gives.Nodup) (hheld : ∀ g ∈ gives, s.Held g) :
    ∃ m, ∀ order, order.Perm gives → Trace (GiveStep blockSize) s.mem order m ∧
      ∀ m', Trace (GiveStep blockSize) s.mem order m' → m' = m := by
  obtain ⟨t, -, published, retired, himp⟩ :=
    h.simulate (simulates_forward hN blockSize) ⟨0, 0, implements_start hN⟩
  have hopen : ∀ g ∈ gives, g.Open N (positionsOf t published retired) := fun g hg =>
    himp.open (hheld g hg)
  obtain ⟨m, -, hmarks⟩ := himp.rests.giveBacks blockSize hnodup hopen
  refine ⟨m, fun order hperm => ?_⟩
  obtain ⟨m₁, hcalls₁, hmarks₁⟩ := himp.rests.giveBacks blockSize (hperm.nodup_iff.mpr hnodup)
    fun g hg => hopen g (hperm.mem_iff.mp hg)
  obtain rfl : m = m₁ := give_lawful.trace_perm hmarks hmarks₁ hperm.symm himp.rests.settled hnodup
    fun g hg => himp.rests.flag_down (hopen g hg)
  exact ⟨hcalls₁, fun m' hcalls' => Trace.determ GiveStep.determ hcalls' hcalls₁⟩

/-- Four blocks: one is with a reader and two are with writers. They are given back oldest first, and
youngest first. -/
theorem giveBack_anyOrder_threeHeld :
    ∃ (s : Holders) (m : MemBuff),
      s.Held (.giveBack 0) ∧ s.Held (.post 1) ∧ s.Held (.post 2) ∧
      Trace (GiveStep 4) s.mem [.giveBack 0, .post 1, .post 2] m ∧
      Trace (GiveStep 4) s.mem [.post 2, .post 1, .giveBack 0] m := by
  have h₀ := implements_start (N := 4) (by decide)
  obtain ⟨m₁, call₁, h₁⟩ := h₀.getBlockWrite 4 (by decide) (by decide)
  obtain ⟨m₂, call₂, h₂⟩ := h₁.getBlockWrite 4 (by decide) (by decide)
  obtain ⟨m₃, call₃, h₃⟩ := h₂.getBlockWrite 4 (by decide) (by decide)
  obtain ⟨m₄, p₄, call₄, h₄⟩ := h₃.postBlock 4 (q := 0) (by decide) rfl
  obtain ⟨m₅, call₅, hcontent, h₅⟩ := h₄.getBlockRead 4
    (fun p hp => by obtain rfl := Nat.le_zero.mp hp; rfl) 0
  obtain ⟨s, htrace, hreader, hwriter₁, hwriter₂⟩ : ∃ s, Trace (Holders.Step 4) (Holders.start 4)
      [.create true, .create true, .create true, .post 0 (m₃.blocks 0).content,
        .take (some (m₅.blocks 0).content)] s ∧
      s.Held (.giveBack 0) ∧ s.Held (.post 1) ∧ s.Held (.post 2) :=
    ⟨_, .cons (.granted call₁) <| .cons (.granted call₂) <| .cons (.granted call₃) <|
      .cons (.post rfl rfl call₄) <| .cons (.took 0 call₅) (.nil _),
      ⟨0, rfl, rfl⟩, ⟨1, rfl, rfl⟩, ⟨2, rfl, rfl⟩⟩
  have hheld : ∀ g ∈ [Give.giveBack 0, .post 1, .post 2], s.Held g := by
    simp only [List.forall_mem_cons]
    exact ⟨hreader, hwriter₁, hwriter₂, nofun⟩
  obtain ⟨m, hm⟩ := giveBack_anyOrder (by decide) 4 htrace (by decide) hheld
  exact ⟨s, m, hreader, hwriter₁, hwriter₂, (hm _ (.refl _)).1, (hm _ (by decide)).1⟩

end AtomicMessageQueue
