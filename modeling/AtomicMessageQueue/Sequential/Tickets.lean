import AtomicMessageQueue.Lib.TicketQueue
import AtomicMessageQueue.Sequential.Calls

/-! # The ring in ticket numbers

What the buffer looks like between accesses of a thread that is alone: the cursors are ticket numbers
modulo the ring size, and in the window from the end cursor on a done flag is up exactly when the
ticket has been posted or returned. Each block operation is followed from one such buffer to another.
-/

namespace AtomicMessageQueue

open Function Relation TicketRing

/-- Where the cursors stand, in tickets, and which tickets have been posted and returned. -/
structure Positions where
  created : ℕ
  published : ℕ
  taken : ℕ
  retired : ℕ
  posted : ℕ → Prop
  returned : ℕ → Prop

/-- No tickets yet. -/
def Positions.zero : Positions where
  created := 0
  published := 0
  taken := 0
  retired := 0
  posted := fun _ => False
  returned := fun _ => False

/-- The buffer shows these tickets. -/
structure Shows (N : ℕ) (m : MemBuff) (c : Positions) : Prop where
  linked : Linked N m
  writeStart : m.writeStart = c.created % N
  writeEnd : m.writeEnd = c.published % N
  readStart : m.readStart = c.taken % N
  readEnd : m.readEnd = c.retired % N
  write : Window N c.created c.published c.posted fun i => (m.blocks i).doneWrite = 1
  read : Window N c.taken c.retired c.returned fun i => (m.blocks i).doneRead = 1
  taken_le : c.taken ≤ c.published
  lt : c.created < c.retired + N
  signal : m.signal.Quiet
  avail : m.avail.Quiet

/-- The contents of the blocks and the count are the same. -/
structure SameData (m m' : MemBuff) : Prop where
  data : ∀ i, (m'.blocks i).data = (m.blocks i).data
  amount : ∀ i, (m'.blocks i).amount = (m.blocks i).amount
  count : m'.msgCount = m.msgCount

variable {N blockSize : ℕ} {m m' : MemBuff} {c : Positions}

theorem SameData.refl (m : MemBuff) : SameData m m :=
  ⟨fun _ => rfl, fun _ => rfl, rfl⟩

theorem SameData.trans {m'' : MemBuff} (h : SameData m m') (h' : SameData m' m'') :
    SameData m m'' :=
  ⟨fun i => (h'.data i).trans (h.data i), fun i => (h'.amount i).trans (h.amount i),
    h'.count.trans h.count⟩

theorem SameData.setBlock (m : MemBuff) (b : ℕ) {f : Block → Block}
    (hf : ∀ blk, (f blk).data = blk.data ∧ (f blk).amount = blk.amount) :
    SameData m (m.setBlock b f) where
  data := m.get_setBlock (·.data) fun blk => (hf blk).1
  amount := m.get_setBlock (·.amount) fun blk => (hf blk).2
  count := rfl

theorem Linked.of_blocks (h : Linked N m) (hb : m'.blocks = m.blocks) : Linked N m' :=
  h.of_links fun i => by
    rw [hb]
    exact ⟨rfl, rfl⟩

/-- The state `create` leaves shows no tickets. -/
theorem shows_create (hN : 2 ≤ N) :
    Shows N (create N) Positions.zero where
  linked := create_linked hN
  writeStart := by rw [create_eq hN]; rfl
  writeEnd := by rw [create_eq hN]; rfl
  readStart := by rw [create_eq hN]; rfl
  readEnd := by rw [create_eq hN]; rfl
  write := by
    refine ⟨le_rfl, Nat.lt_add_of_pos_right (Nat.zero_lt_of_lt hN), fun _ h => h.elim, fun _ h => absurd h (Nat.not_lt_zero _),
      fun q _ _ => ?_⟩
    rw [(create_block hN _).2.1]
    exact ⟨fun h => absurd h (by decide), False.elim⟩
  read := by
    refine ⟨le_rfl, Nat.lt_add_of_pos_right (Nat.zero_lt_of_lt hN), fun _ h => h.elim, fun _ h => absurd h (Nat.not_lt_zero _),
      fun q _ _ => ?_⟩
    rw [(create_block hN _).1]
    exact ⟨fun h => absurd h (by decide), False.elim⟩
  taken_le := le_rfl
  lt := Nat.lt_add_of_pos_right (Nat.zero_lt_of_lt hN)
  signal := by rw [create_eq hN]; exact EventT.Quiet.create
  avail := by rw [create_eq hN]; exact EventT.Quiet.create

theorem Linked.setBlock (h : Linked N m) (b : ℕ) {f : Block → Block}
    (hf : ∀ blk, (f blk).next = blk.next ∧ (f blk).prev = blk.prev) :
    Linked N (m.setBlock b f) :=
  h.of_links fun i => ⟨m.get_setBlock (·.next) (fun blk => (hf blk).1) i,
    m.get_setBlock (·.prev) (fun blk => (hf blk).2) i⟩

namespace Shows

/-- A store that touches neither the links nor the flags of a block leaves the tickets. -/
theorem setBlock (h : Shows N m c) (b : ℕ) {f : Block → Block}
    (hlinks : ∀ blk, (f blk).next = blk.next ∧ (f blk).prev = blk.prev)
    (hflags : ∀ blk, (f blk).doneRead = blk.doneRead ∧ (f blk).doneWrite = blk.doneWrite) :
    Shows N (m.setBlock b f) c :=
  { h with
    linked := h.linked.setBlock b hlinks
    write := by
      simp only [m.get_setBlock (·.doneWrite) (fun blk => (hflags blk).2)]
      exact h.write
    read := by
      simp only [m.get_setBlock (·.doneRead) (fun blk => (hflags blk).1)]
      exact h.read }

theorem withSignal (h : Shows N m c) {e : EventT} (he : e.Quiet) :
    Shows N { m with signal := e } c :=
  { h with linked := h.linked.of_blocks rfl, signal := he }

theorem pos (h : Shows N m c) : 0 < N := by
  have := h.write.fin_le
  have := h.write.lt
  omega

/-- The link of a slot is the slot of the next ticket. -/
theorem next (h : Shows N m c) (q : ℕ) : (m.blocks (q % N)).next = (q + 1) % N := by
  rw [h.linked.next _ (Nat.mod_lt _ h.pos), succ_mod]

/-! ### Getting a block -/

/-- The room test compares ticket numbers. -/
theorem full_iff (h : Shows N m c) :
    (m.blocks m.writeStart).next = m.readEnd ↔ c.created + 1 = c.retired + N := by
  rw [h.writeStart, h.next, h.readEnd]
  constructor
  · intro hmod
    by_contra hne
    have hle : c.retired ≤ c.created :=
      h.read.fin_le.trans (h.taken_le.trans h.write.fin_le)
    have := eq_of_mod_eq (a := c.retired) (by omega) (by have := h.lt; omega) le_rfl
      (by have := h.lt; omega) hmod
    omega
  · intro heq
    rw [heq, Nat.add_mod_right]

/-- The emptiness test compares ticket numbers. -/
theorem empty_iff (h : Shows N m c) : m.readStart = m.writeEnd ↔ c.taken = c.published := by
  rw [h.readStart, h.writeEnd]
  refine ⟨fun hmod => ?_, fun heq => by rw [heq]⟩
  have hle := h.taken_le
  have hle' := h.read.fin_le
  have hlt := h.write.fin_le
  have hlt' := h.lt
  exact eq_of_mod_eq (a := c.taken) le_rfl (by omega) hle (by omega) hmod

variable (blockSize)

/-- `get_block_write` hands out the block of the next ticket while there is room. -/
theorem getBlockWrite (h : Shows N m c) (hroom : c.created + 1 < c.retired + N) (k : WriteCaller) :
    Runs blockSize m (.next (.getBlockWrite k .load))
        { m with writeStart := (m.blocks m.writeStart).next }
        (k.resume blockSize (some (c.created % N))) ∧
      Shows N { m with writeStart := (m.blocks m.writeStart).next }
        { c with created := c.created + 1 } := by
  have hne : (m.blocks m.writeStart).next ≠ m.readEnd := by
    rw [Ne, h.full_iff]
    omega
  have hrun := Runs.getBlockWrite_room blockSize hne k
  rw [← h.writeStart]
  refine ⟨hrun, ?_⟩
  have hgrant := h.write.grant
    (by have := h.read.fin_le; have := h.taken_le; omega)
  exact { h with
    linked := h.linked.of_blocks rfl
    writeStart := by rw [h.writeStart, h.next]
    write := hgrant
    lt := hroom }

/-- `get_block_write` gives up on a full ring. -/
theorem getBlockWrite_full (h : Shows N m c) (hfull : c.created + 1 = c.retired + N)
    (k : WriteCaller) :
    Runs blockSize m (.next (.getBlockWrite k .load)) { m with avail := m.avail.cleared }
        (k.resume blockSize none) ∧ Shows N { m with avail := m.avail.cleared } c :=
  ⟨Runs.getBlockWrite_full blockSize (h.full_iff.mpr hfull) h.avail k, 
    { h with linked := h.linked.of_blocks rfl, avail := h.avail.cleared }⟩

/-- `get_block_read` hands out the block of the oldest untaken ticket once that is published. -/
theorem getBlockRead (h : Shows N m c) (hmsg : c.taken < c.published) (k : ReadCaller) :
    Runs blockSize m (.next (.getBlockRead k .load))
        { m with readStart := (m.blocks m.readStart).next } (k.resume (some (c.taken % N))) ∧
      Shows N { m with readStart := (m.blocks m.readStart).next }
        { c with taken := c.taken + 1 } := by
  have hne : m.readStart ≠ m.writeEnd := by
    rw [Ne, h.empty_iff]
    omega
  have hrun := Runs.getBlockRead_message blockSize hne k
  rw [← h.readStart]
  refine ⟨hrun, ?_⟩
  have hgrant := h.read.grant
    (by have := h.write.fin_le; have := h.lt; omega)
  exact { h with
    linked := h.linked.of_blocks rfl
    readStart := by rw [h.readStart, h.next]
    read := hgrant
    taken_le := hmsg }

/-- `get_block_read` gives up on an empty ring. -/
theorem getBlockRead_empty (h : Shows N m c) (hempty : c.taken = c.published) (k : ReadCaller) :
    ∃ m', Runs blockSize m (.next (.getBlockRead k .load)) m' (k.resume none) ∧ Shows N m' c ∧
      m'.blocks = m.blocks ∧ m'.msgCount = m.msgCount := by
  refine ⟨_, Runs.getBlockRead_empty blockSize (h.empty_iff.mpr hempty) h.signal k, ?_⟩
  split
  · exact ⟨h.withSignal h.signal.cleared, rfl, rfl⟩
  · exact ⟨h, rfl, rfl⟩

/-! ### Posting and returning a block -/

/-- `doneWrite` goes up at the block of a ticket that has not been posted. -/
theorem setDoneWrite (h : Shows N m c) {q : ℕ} (hq : q < c.created) (hopen : ¬ c.posted q) :
    Shows N (m.setBlock (q % N) fun blk => { blk with doneWrite := 1 })
      { c with posted := fun p => p = q ∨ c.posted p } :=
  { h with
    linked := h.linked.setBlock _ fun _ => ⟨rfl, rfl⟩
    write := h.write.finish hq hopen fun i => by
      rw [MemBuff.setBlock_blocks]
      by_cases hi : i = q % N <;> simp [hi]
    read := by
      simp only [m.get_setBlock (·.doneRead) (f := fun blk => { blk with doneWrite := 1 })
        fun _ => rfl]
      exact h.read }

/-- A round of the loop in `post_block` publishes one ticket. -/
theorem postRound (h : Shows N m c) (hup : (m.blocks m.writeEnd).doneWrite = 1) :
    Shows N (postRound m) { c with published := c.published + 1 } ∧
      SameData m (postRound m) := by
  have hlinked := h.linked.of_links (postRound_links m)
  have hsame : SameData m (m.setBlock m.writeEnd Block.writeTaken) :=
    .setBlock m m.writeEnd fun _ => ⟨rfl, rfl⟩
  have hdoneWrite : ∀ i, ((m.setBlock m.writeEnd Block.writeTaken).blocks i).doneWrite = 1 ↔
      i ≠ c.published % N ∧ (m.blocks i).doneWrite = 1 := by
    intro i
    rw [MemBuff.setBlock_blocks, ← h.writeEnd]
    by_cases hi : i = m.writeEnd <;> simp [hi, Block.writeTaken]
  have hread := m.get_setBlock (·.doneRead) (b := m.writeEnd) (f := Block.writeTaken) fun _ => rfl
  rw [postRound_eq] at hlinked ⊢
  refine ⟨?_, ⟨hsame.data, hsame.amount, hsame.count⟩⟩
  exact
    { linked := hlinked
      writeStart := h.writeStart
      writeEnd := by rw [h.writeEnd, h.next]
      readStart := h.readStart
      readEnd := h.readEnd
      write := h.write.advance (by rw [← h.writeEnd]; exact hup) hdoneWrite
      read := by simp only [hread]; exact h.read
      taken_le := h.taken_le.trans (Nat.le_succ _)
      lt := h.lt
      signal := by
        split
        · exact h.signal.set
        · exact h.signal
      avail := h.avail }

/-- The rounds of the loop in `post_block` publish all they can. -/
theorem postRounds (h : Shows N m c) :
    ∃ m' p, ReflTransGen PostRound m m' ∧ Shows N m' { c with published := p } ∧
      c.published ≤ p ∧ ¬ c.posted p ∧ SameData m m' := by
  have hround : ∀ p m₁, Shows N m₁ { c with published := p } ∧ SameData m m₁ → c.posted p →
      ∃ m₂, PostRound m₁ m₂ ∧ Shows N m₂ { c with published := p + 1 } ∧ SameData m m₂ := by
    rintro p m₁ ⟨h₁, hsame⟩ hp
    have hup : (m₁.blocks m₁.writeEnd).doneWrite = 1 := by
      rw [h₁.writeEnd]
      exact h₁.write.flag_of_done hp
    obtain ⟨hnext, hsame'⟩ := h₁.postRound hup
    exact ⟨_, ⟨hup, rfl⟩, hnext, hsame.trans hsame'⟩
  obtain ⟨p, m', hle, hrounds, ⟨hshows, hsame⟩, hp⟩ :=
    rounds_to_open h.write.done_lt hround ⟨h, .refl m⟩
  exact ⟨m', p, hrounds, hshows, hle, hp, hsame⟩

/-- No flag is up at a cursor that stands at a ticket that is not posted. -/
theorem writeEnd_down (h : Shows N m c) (hopen : ¬ c.posted c.published) :
    (m.blocks m.writeEnd).doneWrite ≠ 1 := by
  rw [h.writeEnd]
  exact mt h.write.done_of_flag hopen

/-- The loop in `post_block` publishes all it can. -/
theorem postLoop (h : Shows N m c) (k : PostCaller) :
    ∃ m' p, Runs blockSize m (.next (.postBlock k .load)) m' k.resume ∧
      Shows N m' { c with published := p } ∧ c.published ≤ p ∧ ¬ c.posted p ∧ SameData m m' := by
  obtain ⟨m', p, hrounds, hshows, hle, hp, hsame⟩ := h.postRounds
  exact ⟨m', p, .post_rounds blockSize hrounds (hshows.writeEnd_down hp) k, hshows, hle, hp, hsame⟩

/-- `post_block` at the block of a ticket that has not been posted. -/
theorem postBlock (h : Shows N m c) {q : ℕ} (hq : q < c.created) (hopen : ¬ c.posted q)
    (k : PostCaller) :
    ∃ m' p, Runs blockSize m (.next (.postBlock k (.set (q % N)))) m' k.resume ∧
      Shows N m' { c with posted := fun r => r = q ∨ c.posted r, published := p } ∧
      c.published ≤ p ∧ ¬ (p = q ∨ c.posted p) ∧ SameData m m' := by
  obtain ⟨m', p, hrun, hshows, hle, hp, hsame⟩ := (h.setDoneWrite hq hopen).postLoop blockSize k
  have hset : SameData m (m.setBlock (q % N) fun blk => { blk with doneWrite := 1 }) :=
    .setBlock m _ fun _ => ⟨rfl, rfl⟩
  exact ⟨m', p, .step (.setDoneWrite k (q % N)) hrun, hshows, hle, hp, hset.trans hsame⟩

/-- `doneRead` goes up at the block of a ticket that has been taken and not returned. -/
theorem setDoneRead (h : Shows N m c) {q : ℕ} (hq : q < c.taken) (hopen : ¬ c.returned q) :
    Shows N (m.setBlock (q % N) fun blk => { blk with doneRead := 1 })
      { c with returned := fun p => p = q ∨ c.returned p } :=
  { h with
    linked := h.linked.setBlock _ fun _ => ⟨rfl, rfl⟩
    read := h.read.finish hq hopen fun i => by
      rw [MemBuff.setBlock_blocks]
      by_cases hi : i = q % N <;> simp [hi]
    write := by
      simp only [m.get_setBlock (·.doneWrite) (f := fun blk => { blk with doneRead := 1 })
        fun _ => rfl]
      exact h.write }

/-- A round of the loop in `return_block` retires one ticket. -/
theorem returnRound (h : Shows N m c) (hup : (m.blocks m.readEnd).doneRead = 1) :
    Shows N (returnRound m) { c with retired := c.retired + 1 } ∧
      SameData m (returnRound m) := by
  have hlinked := h.linked.of_links (returnRound_links m)
  have hsame : SameData m (m.setBlock m.readEnd Block.readTaken) :=
    .setBlock m m.readEnd fun _ => ⟨rfl, rfl⟩
  have hdoneRead : ∀ i, ((m.setBlock m.readEnd Block.readTaken).blocks i).doneRead = 1 ↔
      i ≠ c.retired % N ∧ (m.blocks i).doneRead = 1 := by
    intro i
    rw [MemBuff.setBlock_blocks, ← h.readEnd]
    by_cases hi : i = m.readEnd <;> simp [hi, Block.readTaken]
  have hwrite := m.get_setBlock (·.doneWrite) (b := m.readEnd) (f := Block.readTaken) fun _ => rfl
  have hlt := h.lt
  rw [returnRound_eq] at hlinked ⊢
  refine ⟨?_, ⟨hsame.data, hsame.amount, hsame.count⟩⟩
  exact
    { linked := hlinked
      writeStart := h.writeStart
      writeEnd := h.writeEnd
      readStart := h.readStart
      readEnd := by rw [h.readEnd, h.next]
      write := by simp only [hwrite]; exact h.write
      read := h.read.advance (by rw [← h.readEnd]; exact hup) hdoneRead
      taken_le := h.taken_le
      lt := by show c.created < c.retired + 1 + N; omega
      signal := h.signal
      avail := by
        split
        · exact h.avail.set
        · exact h.avail }

/-- The rounds of the loop in `return_block` retire all they can. -/
theorem returnRounds (h : Shows N m c) :
    ∃ m' p, ReflTransGen ReturnRound m m' ∧ Shows N m' { c with retired := p } ∧
      c.retired ≤ p ∧ ¬ c.returned p ∧ SameData m m' := by
  have hround : ∀ p m₁, Shows N m₁ { c with retired := p } ∧ SameData m m₁ → c.returned p →
      ∃ m₂, ReturnRound m₁ m₂ ∧ Shows N m₂ { c with retired := p + 1 } ∧ SameData m m₂ := by
    rintro p m₁ ⟨h₁, hsame⟩ hp
    have hup : (m₁.blocks m₁.readEnd).doneRead = 1 := by
      rw [h₁.readEnd]
      exact h₁.read.flag_of_done hp
    obtain ⟨hnext, hsame'⟩ := h₁.returnRound hup
    exact ⟨_, ⟨hup, rfl⟩, hnext, hsame.trans hsame'⟩
  obtain ⟨p, m', hle, hrounds, ⟨hshows, hsame⟩, hp⟩ :=
    rounds_to_open h.read.done_lt hround ⟨h, .refl m⟩
  exact ⟨m', p, hrounds, hshows, hle, hp, hsame⟩

/-- No flag is up at a cursor that stands at a ticket that is not returned. -/
theorem readEnd_down (h : Shows N m c) (hopen : ¬ c.returned c.retired) :
    (m.blocks m.readEnd).doneRead ≠ 1 := by
  rw [h.readEnd]
  exact mt h.read.done_of_flag hopen

/-- The loop in `return_block` retires all it can. -/
theorem returnLoop (h : Shows N m c) (k : ReturnCaller) :
    ∃ m' p, Runs blockSize m (.next (.returnBlock k .load)) m' k.resume ∧
      Shows N m' { c with retired := p } ∧ c.retired ≤ p ∧ ¬ c.returned p ∧ SameData m m' := by
  obtain ⟨m', p, hrounds, hshows, hle, hp, hsame⟩ := h.returnRounds
  exact ⟨m', p, .return_rounds blockSize hrounds (hshows.readEnd_down hp) k, hshows, hle, hp, hsame⟩

/-- `return_block` at the block of a ticket that has been taken and not returned. It clears the
block's `Amount`. -/
theorem returnBlock (h : Shows N m c) {q : ℕ} (hq : q < c.taken) (hopen : ¬ c.returned q)
    (k : ReturnCaller) :
    ∃ m' p, Runs blockSize m (.next (.returnBlock k (.set (q % N)))) m' k.resume ∧
      Shows N m' { c with returned := fun r => r = q ∨ c.returned r, retired := p } ∧
      c.retired ≤ p ∧ ¬ (p = q ∨ c.returned p) ∧
      SameData (m.setBlock (q % N) fun blk => { blk with amount := 0 }) m' := by
  have hclear := (h.setDoneRead hq hopen).setBlock (q % N)
    (f := fun blk => { blk with amount := 0 }) (fun _ => ⟨rfl, rfl⟩) fun _ => ⟨rfl, rfl⟩
  obtain ⟨m', p, hrun, hshows, hle, hp, hsame⟩ := hclear.returnLoop blockSize k
  have hset : SameData (m.setBlock (q % N) fun blk => { blk with amount := 0 })
      ((m.setBlock (q % N) fun blk => { blk with doneRead := 1 }).setBlock (q % N)
        fun blk => { blk with amount := 0 }) := by
    refine ⟨fun i => ?_, fun i => ?_, rfl⟩
    · simp only [MemBuff.setBlock_blocks]
      split <;> rfl
    · simp only [MemBuff.setBlock_blocks]
      split <;> rfl
  refine ⟨m', p, ?_, hshows, hle, hp, hset.trans hsame⟩
  exact .step (.setDoneRead k (q % N)) (.step (.clearAmount k (q % N)) hrun)

end Shows

end AtomicMessageQueue
