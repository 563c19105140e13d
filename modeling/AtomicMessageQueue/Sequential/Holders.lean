import AtomicMessageQueue.Sequential.Tickets

/-! # The ring as a ticket queue

Holders call the four block operations, each call run to completion before the next. Which holder a
block is with makes no difference to the ring, so what the holders know is kept together: the blocks
`get_block_write` and `get_block_read` have handed out, oldest first, and which of them have been
posted or returned, by their place in these lists. The ring simulates the ticket queue.
-/

namespace AtomicMessageQueue

open Function Simulation TicketQueue TicketRing

/-- The `Data` and `Amount` of a block. -/
abbrev Content := (ℕ → UInt8) × ℕ

def Block.content (blk : Block) : Content := (blk.data, blk.amount)

/-- The buffer, and what its holders know. -/
structure Holders where
  mem : MemBuff
  granted : List ℕ
  posted : ℕ → Bool
  obtained : List ℕ
  returned : ℕ → Bool

namespace Holders

/-- The buffer `create` sets up, with no block handed out. -/
def start (blockCount : ℕ) : Holders where
  mem := create blockCount
  granted := []
  posted := fun _ => false
  obtained := []
  returned := fun _ => false

/-- A complete call by some holder, or a holder storing into a block it has not posted yet. A block
is posted or returned at most once. -/
inductive Step (blockSize : ℕ) (s : Holders) : Event Content → Holders → Prop
  | granted {m' : MemBuff} {b : ℕ}
      (call : Completes blockSize s.mem .getBlockWrite m' (.block (some b))) :
      Step blockSize s (.create true) { s with mem := m', granted := s.granted ++ [b] }
  | refused {m' : MemBuff} (call : Completes blockSize s.mem .getBlockWrite m' (.block none)) :
      Step blockSize s (.create false) { s with mem := m' }
  | fill {q b : ℕ} (content : Content) (hb : s.granted[q]? = some b) (hopen : s.posted q = false) :
      Step blockSize s (.fill q)
        { s with
          mem := s.mem.setBlock b fun blk => { blk with data := content.1, amount := content.2 } }
  | post {q b : ℕ} {m' : MemBuff} (hb : s.granted[q]? = some b) (hopen : s.posted q = false)
      (call : Completes blockSize s.mem (.postBlock b) m' .unit) :
      Step blockSize s (.post q (s.mem.blocks b).content)
        { s with mem := m', posted := update s.posted q true }
  | took (msTimeout : ℤ) {m' : MemBuff} {b : ℕ}
      (call : Completes blockSize s.mem (.getBlockRead msTimeout) m' (.block (some b))) :
      Step blockSize s (.take (some (m'.blocks b).content))
        { s with mem := m', obtained := s.obtained ++ [b] }
  | nothing (msTimeout : ℤ) {m' : MemBuff}
      (call : Completes blockSize s.mem (.getBlockRead msTimeout) m' (.block none)) :
      Step blockSize s (.take none) { s with mem := m' }
  | giveBack {q b : ℕ} {m' : MemBuff} (hb : s.obtained[q]? = some b)
      (hopen : s.returned q = false) (call : Completes blockSize s.mem (.returnBlock b) m' .unit) :
      Step blockSize s (.giveBack q) { s with mem := m', returned := update s.returned q true }

end Holders

/-- The cursors that belong to a ticket queue. -/
def positionsOf (t : Tickets Content) (published retired : ℕ) : Positions where
  created := t.created
  published := published
  taken := t.taken
  retired := retired
  posted := fun q => (t.posted q).isSome
  returned := fun q => t.returned q = true

/-- The ring and its holders stand for these tickets: ticket `q` is in block `q % N`. -/
structure Implements (N : ℕ) (s : Holders) (t : Tickets Content) (published retired : ℕ) :
    Prop where
  shows : Shows N s.mem (positionsOf t published retired)
  unposted : t.posted published = none
  unreturned : t.returned retired = false
  granted : s.granted = (List.range t.created).map (· % N)
  obtained : s.obtained = (List.range t.taken).map (· % N)
  posted : ∀ q, s.posted q = (t.posted q).isSome
  returned : s.returned = t.returned
  content : ∀ q c, t.taken ≤ q → t.posted q = some c → (s.mem.blocks (q % N)).content = c

variable {N blockSize published retired : ℕ} {s s' : Holders} {t : Tickets Content}

theorem positionsOf_empty : positionsOf Tickets.empty 0 0 = Positions.zero := by
  simp [positionsOf, Tickets.empty, Positions.zero]

theorem implements_start (hN : 2 ≤ N) :
    Implements N (Holders.start N) Tickets.empty 0 0 where
  shows := by rw [positionsOf_empty]; exact shows_create hN
  unposted := rfl
  unreturned := rfl
  granted := rfl
  obtained := rfl
  posted _ := rfl
  returned := rfl
  content _ _ _ h := by cases h

/-- The block at place `q` of a list of the blocks of the first `n` tickets. -/
theorem getElem?_slots {n q b : ℕ} (h : ((List.range n).map (· % N))[q]? = some b) :
    q < n ∧ b = q % N := by
  obtain ⟨hq, hb⟩ := List.getElem?_eq_some_iff.mp h
  rw [List.getElem_map, List.getElem_range] at hb
  exact ⟨by simpa using hq, hb.symm⟩

theorem slots_succ (n : ℕ) :
    (List.range n).map (· % N) ++ [n % N] = (List.range (n + 1)).map (· % N) := by
  rw [List.range_succ, List.map_append, List.map_singleton]

namespace Implements

theorem unretired (h : Implements N s t published retired) :
    t.unretired = t.created - retired :=
  Tickets.unretired_eq h.shows.read.done_of_lt h.unreturned

theorem ready_iff (h : Implements N s t published retired) : t.Ready ↔ t.taken < published :=
  Tickets.ready_iff h.shows.write.done_of_lt h.unposted

/-- A ticket is granted exactly when there is room in the ring. -/
theorem room_iff (hN : 2 ≤ N) (h : Implements N s t published retired) :
    t.unretired < N - 1 ↔ t.created + 1 < retired + N := by
  have hle : retired ≤ t.created :=
    h.shows.read.fin_le.trans (h.shows.taken_le.trans h.shows.write.fin_le)
  rw [h.unretired]
  omega

theorem posted_lt (h : Implements N s t published retired) {q : ℕ} {c : Content}
    (hc : t.posted q = some c) : q < t.created :=
  h.shows.write.done_lt q (by simp only [positionsOf, hc, Option.isSome_some])

theorem posted_eq_none (h : Implements N s t published retired) {q : ℕ} :
    s.posted q = false ↔ t.posted q = none := by
  rw [h.posted, Option.isSome_eq_false_iff, Option.isNone_iff_eq_none]

/-- The blocks of two tickets that are not retired yet are different. -/
theorem slot_ne (h : Implements N s t published retired) {p q : ℕ} (hp : retired ≤ p)
    (hp' : p < t.created) (hq : retired ≤ q) (hq' : q < t.created) (hne : p ≠ q) :
    p % N ≠ q % N := by
  intro hmod
  have hlt : t.created < retired + N := h.shows.lt
  exact hne (eq_of_mod_eq hp (by omega) hq (by omega) hmod)

/-! ### What each call does -/

variable (blockSize)

theorem getBlockWrite (hN : 2 ≤ N) (h : Implements N s t published retired)
    (hroom : t.unretired < N - 1) :
    ∃ m', Completes blockSize s.mem .getBlockWrite m' (.block (some (t.created % N))) ∧
      Implements N { s with mem := m', granted := s.granted ++ [t.created % N] }
        { t with created := t.created + 1 } published retired := by
  obtain ⟨hrun, hshows⟩ := h.shows.getBlockWrite blockSize ((h.room_iff hN).mp hroom)
    .holder
  refine ⟨_, hrun, { h with shows := hshows, granted := ?_ }⟩
  rw [h.granted]
  exact slots_succ _

theorem getBlockWrite_full (hN : 2 ≤ N) (h : Implements N s t published retired)
    (hfull : ¬ t.unretired < N - 1) :
    ∃ m', Completes blockSize s.mem .getBlockWrite m' (.block none) ∧
      Implements N { s with mem := m' } t published retired := by
  have hlt := h.shows.lt
  have hroom := mt (h.room_iff hN).mpr hfull
  simp only [positionsOf] at hlt
  obtain ⟨hrun, hshows⟩ := h.shows.getBlockWrite_full blockSize
    (by show t.created + 1 = retired + N; omega) .holder
  exact ⟨_, hrun, { h with shows := hshows }⟩

theorem getBlockRead (h : Implements N s t published retired) (hready : t.Ready) (ms : ℤ) :
    ∃ m', Completes blockSize s.mem (.getBlockRead ms) m' (.block (some (t.taken % N))) ∧
      t.posted t.taken = some (m'.blocks (t.taken % N)).content ∧
      Implements N { s with mem := m', obtained := s.obtained ++ [t.taken % N] }
        { t with taken := t.taken + 1 } published retired := by
  obtain ⟨hrun, hshows⟩ := h.shows.getBlockRead blockSize (h.ready_iff.mp hready)
    (.holder ms)
  obtain ⟨c, hc⟩ := Option.isSome_iff_exists.mp (hready t.taken le_rfl)
  refine ⟨_, hrun, ?_, { h with shows := hshows, obtained := ?_, content := ?_ }⟩
  · rw [hc]
    exact congrArg some (h.content _ _ le_rfl hc).symm
  · rw [h.obtained]
    exact slots_succ _
  · exact fun q c hq => h.content q c (Nat.le_of_succ_le hq)

theorem getBlockRead_empty (h : Implements N s t published retired) (hready : ¬ t.Ready) (ms : ℤ) :
    ∃ m', Completes blockSize s.mem (.getBlockRead ms) m' (.block none) ∧
      Implements N { s with mem := m' } t published retired := by
  have hle : t.taken ≤ published := h.shows.taken_le
  have hnot := mt h.ready_iff.mpr hready
  obtain ⟨m', hrun, hshows, hblocks, -⟩ := h.shows.getBlockRead_empty blockSize
    (by show t.taken = published; omega) (.holder ms)
  exact ⟨m', hrun, { h with shows := hshows, content := by rw [hblocks]; exact h.content }⟩

theorem postBlock (h : Implements N s t published retired) {q : ℕ} (hq : q < t.created)
    (hopen : t.posted q = none) :
    ∃ m' p, Completes blockSize s.mem (.postBlock (q % N)) m' .unit ∧
      Implements N { s with mem := m', posted := update s.posted q true }
        { t with posted := update t.posted q (some (s.mem.blocks (q % N)).content) } p retired := by
  obtain ⟨m', p, hrun, hshows, -, hp, hsame⟩ := h.shows.postBlock blockSize hq
    (by simp [positionsOf, hopen]) .holder
  have hcontent : ∀ i, (m'.blocks i).content = (s.mem.blocks i).content := by
    intro i
    simp only [Block.content, hsame.data, hsame.amount]
  have hpositions : { positionsOf t published retired with
        posted := fun r => r = q ∨ (positionsOf t published retired).posted r, published := p } =
      positionsOf { t with posted := update t.posted q (some (s.mem.blocks (q % N)).content) }
        p retired := by
    simp only [positionsOf, Positions.mk.injEq, true_and, and_true]
    funext r
    by_cases hr : r = q <;> simp [hr]
  rw [hpositions] at hshows
  refine ⟨m', p, hrun, { h with
    shows := hshows, unposted := ?_, posted := ?_, content := ?_ }⟩
  · have hne : p ≠ q := fun heq => hp (.inl heq)
    have hnone : ¬ (t.posted p).isSome := fun hs => hp (.inr hs)
    simpa [hne] using hnone
  · intro r
    by_cases hr : r = q
    · simp [hr]
    · simpa [hr] using h.posted r
  · intro r c hr hc
    rw [hcontent]
    by_cases hrq : r = q
    · subst hrq
      simpa only [update_self, Option.some.injEq] using hc
    · have hc' : t.posted r = some c := by simpa only [update_of_ne hrq] using hc
      exact h.content r c hr hc'

theorem returnBlock (h : Implements N s t published retired) {q : ℕ} (hq : q < t.taken)
    (hopen : t.returned q = false) :
    ∃ m' p, Completes blockSize s.mem (.returnBlock (q % N)) m' .unit ∧
      Implements N { s with mem := m', returned := update s.returned q true }
        { t with returned := update t.returned q true } published p := by
  obtain ⟨m', p, hrun, hshows, -, hp, hsame⟩ := h.shows.returnBlock blockSize hq
    (by simp [positionsOf, hopen]) .holder
  have hpositions : { positionsOf t published retired with
        returned := fun r => r = q ∨ (positionsOf t published retired).returned r, retired := p } =
      positionsOf { t with returned := update t.returned q true } published p := by
    simp only [positionsOf, Positions.mk.injEq, true_and]
    funext r
    by_cases hr : r = q <;> simp [hr]
  rw [hpositions] at hshows
  refine ⟨m', p, hrun, { h with
    shows := hshows, unreturned := ?_, returned := ?_, content := ?_ }⟩
  · have hne : p ≠ q := fun heq => hp (.inl heq)
    have hnone : ¬ t.returned p = true := fun hs => hp (.inr hs)
    simpa [hne] using hnone
  · rw [h.returned]
  · intro r c hr hc
    have hr' : t.taken ≤ r := hr
    have hcreated : r < t.created := h.posted_lt hc
    -- clearing `Amount` spares the unread messages: they are in the blocks of other open tickets
    have hretired : retired ≤ q := by
      by_contra hlt
      have := h.shows.read.done_of_lt q (by show q < retired; omega)
      rw [show t.returned q = true from this] at hopen
      cases hopen
    have hne := h.slot_ne (p := r) (q := q) (by omega) hcreated hretired (by omega) (by omega)
    rw [← h.content r c hr hc]
    simp only [Block.content, hsame.data, hsame.amount, MemBuff.setBlock_blocks, if_neg hne]

theorem fill (h : Implements N s t published retired) {q : ℕ} (hq : q < t.created)
    (hopen : t.posted q = none) (f : Content) :
    Implements N
      { s with
        mem := s.mem.setBlock (q % N) fun blk => { blk with data := f.1, amount := f.2 } }
      t published retired := by
  have hshows := h.shows.setBlock (q % N)
    (f := fun blk => { blk with data := f.1, amount := f.2 }) (fun _ => ⟨rfl, rfl⟩)
    fun _ => ⟨rfl, rfl⟩
  refine { h with shows := hshows, content := ?_ }
  intro r c hr hc
  have hle : retired ≤ t.taken := h.shows.read.fin_le
  have hle' : t.taken ≤ published := h.shows.taken_le
  -- a block is filled before it is posted, so its ticket is not published yet
  have hpub : published ≤ q := by
    by_contra hlt
    have hsome : (t.posted q).isSome := h.shows.write.done_of_lt q (by show q < published; omega)
    rw [hopen] at hsome
    cases hsome
  have hcreated : r < t.created := h.posted_lt hc
  have hrq : r ≠ q := by
    rintro rfl
    rw [hopen] at hc
    cases hc
  have hne := h.slot_ne (by omega) hcreated (by omega) hq hrq
  simp only [MemBuff.setBlock_blocks, if_neg hne]
  exact h.content r c hr hc

end Implements

/-- The ring and its holders stand for some point of the end cursors. -/
def Simulates (N : ℕ) (s : Holders) (t : Tickets Content) : Prop :=
  ∃ published retired, Implements N s t published retired

/-- **The ring simulates the ticket queue.** Each complete call is matched by the step of the ticket
queue that shows the same result. -/
theorem simulates_forward (hN : 2 ≤ N) (blockSize : ℕ) :
    Forward (Holders.Step blockSize) (Tickets.Step (N - 1)) (Simulates N) := by
  rintro s t e s' ⟨published, retired, h⟩ hstep
  -- calls are determined by the ring, so each is the one its ticket predicts
  cases hstep with
  | granted call =>
      by_cases hroom : t.unretired < N - 1
      · obtain ⟨m', hcall, h'⟩ := h.getBlockWrite blockSize hN hroom
        obtain ⟨rfl, hr⟩ := call.determ hcall
        cases hr
        exact ⟨_, .granted hroom, _, _, h'⟩
      · obtain ⟨m', hcall, h'⟩ := h.getBlockWrite_full blockSize hN hroom
        cases (call.determ hcall).2
  | refused call =>
      by_cases hroom : t.unretired < N - 1
      · obtain ⟨m', hcall, h'⟩ := h.getBlockWrite blockSize hN hroom
        cases (call.determ hcall).2
      · obtain ⟨m', hcall, h'⟩ := h.getBlockWrite_full blockSize hN hroom
        obtain ⟨rfl, -⟩ := call.determ hcall
        exact ⟨_, .refused hroom, _, _, h'⟩
  | @fill q b content hb hopen =>
      rw [h.granted] at hb
      obtain ⟨hq, rfl⟩ := getElem?_slots hb
      have hnone := h.posted_eq_none.mp hopen
      exact ⟨_, .fill q hq hnone, _, _, h.fill hq hnone content⟩
  | @post q b m' hb hopen call =>
      rw [h.granted] at hb
      obtain ⟨hq, rfl⟩ := getElem?_slots hb
      have hnone := h.posted_eq_none.mp hopen
      obtain ⟨m₁, p, hcall, h'⟩ := h.postBlock blockSize hq hnone
      obtain ⟨rfl, -⟩ := call.determ hcall
      exact ⟨_, .post q _ hq hnone, _, _, h'⟩
  | took ms call =>
      by_cases hready : t.Ready
      · obtain ⟨m', hcall, hcontent, h'⟩ := h.getBlockRead blockSize hready ms
        obtain ⟨rfl, hr⟩ := call.determ hcall
        cases hr
        exact ⟨_, .took _ hready hcontent, _, _, h'⟩
      · obtain ⟨m', hcall, h'⟩ := h.getBlockRead_empty blockSize hready ms
        cases (call.determ hcall).2
  | nothing ms call =>
      by_cases hready : t.Ready
      · obtain ⟨m', hcall, -, h'⟩ := h.getBlockRead blockSize hready ms
        cases (call.determ hcall).2
      · obtain ⟨m', hcall, h'⟩ := h.getBlockRead_empty blockSize hready ms
        obtain ⟨rfl, -⟩ := call.determ hcall
        exact ⟨_, .nothing hready, _, _, h'⟩
  | @giveBack q b m' hb hopen call =>
      rw [h.obtained] at hb
      obtain ⟨hq, rfl⟩ := getElem?_slots hb
      have hne : t.returned q = false := by rw [← h.returned]; exact hopen
      obtain ⟨m₁, p, hcall, h'⟩ := h.returnBlock blockSize hq hne
      obtain ⟨rfl, -⟩ := call.determ hcall
      exact ⟨_, .giveBack q hq hne, _, _, h'⟩

/-- No call a holder may make gets stuck. -/
structure Holders.CallsReturn (blockSize : ℕ) (s : Holders) : Prop where
  getBlockWrite : ∃ m' b, Completes blockSize s.mem .getBlockWrite m' (.block b)
  postBlock : ∀ q b, s.granted[q]? = some b → s.posted q = false →
    ∃ m', Completes blockSize s.mem (.postBlock b) m' .unit
  getBlockRead : ∀ ms, ∃ m' b, Completes blockSize s.mem (.getBlockRead ms) m' (.block b)
  returnBlock : ∀ q b, s.obtained[q]? = some b → s.returned q = false →
    ∃ m', Completes blockSize s.mem (.returnBlock b) m' .unit

theorem Implements.callsReturn (hN : 2 ≤ N) (h : Implements N s t published retired) :
    s.CallsReturn blockSize where
  getBlockWrite := by
    by_cases hroom : t.unretired < N - 1
    · obtain ⟨m', hcall, -⟩ := h.getBlockWrite blockSize hN hroom
      exact ⟨m', _, hcall⟩
    · obtain ⟨m', hcall, -⟩ := h.getBlockWrite_full blockSize hN hroom
      exact ⟨m', _, hcall⟩
  postBlock q b hb hopen := by
    rw [h.granted] at hb
    obtain ⟨hq, rfl⟩ := getElem?_slots hb
    obtain ⟨m', -, hcall, -⟩ := h.postBlock blockSize hq (h.posted_eq_none.mp hopen)
    exact ⟨m', hcall⟩
  getBlockRead ms := by
    by_cases hready : t.Ready
    · obtain ⟨m', hcall, -⟩ := h.getBlockRead blockSize hready ms
      exact ⟨m', _, hcall⟩
    · obtain ⟨m', hcall, -⟩ := h.getBlockRead_empty blockSize hready ms
      exact ⟨m', _, hcall⟩
  returnBlock q b hb hopen := by
    rw [h.obtained] at hb
    obtain ⟨hq, rfl⟩ := getElem?_slots hb
    obtain ⟨m', -, hcall, -⟩ := h.returnBlock blockSize hq (by rw [← h.returned]; exact hopen)
    exact ⟨m', hcall⟩

/-- For every history of complete calls there is the same history of the ticket queue with `N - 1`
tickets. The blocks are taken in the order in which they were handed out, each at most once, two
unretired tickets never share a block, and every call a holder may make returns. -/
theorem ring_simulates_ticketQueue (hN : 2 ≤ N) (blockSize : ℕ) {events : List (Event Content)}
    (h : Trace (Holders.Step blockSize) (Holders.start N) events s) :
    ∃ t, Trace (Tickets.Step (N - 1)) Tickets.empty events t ∧
      s.granted.length = t.created ∧ s.obtained = s.granted.take t.taken ∧
      (∀ p q b, s.granted[p]? = some b → s.granted[q]? = some b →
        ¬ t.Retired p → ¬ t.Retired q → p = q) ∧
      s.CallsReturn blockSize := by
  obtain ⟨t, htrace, published, retired, himp⟩ :=
    h.simulate (simulates_forward hN blockSize) ⟨0, 0, implements_start hN⟩
  refine ⟨t, htrace, ?_, ?_, ?_, himp.callsReturn hN⟩
  · rw [himp.granted, List.length_map, List.length_range]
  · have hle : t.taken ≤ t.created := himp.shows.taken_le.trans himp.shows.write.fin_le
    rw [himp.granted, himp.obtained, ← List.map_take, List.take_range, Nat.min_eq_left hle]
  · intro p q b hp hq hp' hq'
    rw [himp.granted] at hp hq
    obtain ⟨hpc, rfl⟩ := getElem?_slots hp
    obtain ⟨hqc, hmod⟩ := getElem?_slots hq
    have hle : ∀ r, ¬ t.Retired r → retired ≤ r := by
      intro r hr
      by_contra hlt
      exact hr fun r' hr' => himp.shows.read.done_of_lt r' (by show r' < retired; omega)
    by_contra hne
    exact himp.slot_ne (hle p hp') hpc (hle q hq') hqc hne hmod

/-- Three blocks: two tickets fill the ring, the younger is posted first. -/
theorem ring_simulates_ticketQueue_outOfOrder :
    ∃ (c₀ c₁ : Content) (s : Holders) (t : Tickets Content),
      Trace (Holders.Step 4) (Holders.start 3)
        [.create true, .create true, .create false, .post 1 c₁, .take none, .post 0 c₀,
          .take (some c₀)] s ∧
      Trace (Tickets.Step 2) Tickets.empty
        [.create true, .create true, .create false, .post 1 c₁, .take none, .post 0 c₀,
          .take (some c₀)] t ∧
      s.obtained = s.granted.take t.taken ∧ s.CallsReturn 4 := by
  have h₀ := implements_start (N := 3) (by decide)
  obtain ⟨m₁, call₁, h₁⟩ := h₀.getBlockWrite 4 (by decide) (by decide)
  obtain ⟨m₂, call₂, h₂⟩ := h₁.getBlockWrite 4 (by decide) (by decide)
  obtain ⟨m₃, call₃, h₃⟩ := h₂.getBlockWrite_full 4 (by decide) (by decide)
  obtain ⟨m₄, p₄, call₄, h₄⟩ := h₃.postBlock 4 (q := 1) (by decide) rfl
  obtain ⟨m₅, call₅, h₅⟩ := h₄.getBlockRead_empty 4 (fun h => Bool.false_ne_true (h 0 le_rfl)) 0
  obtain ⟨m₆, p₆, call₆, h₆⟩ := h₅.postBlock 4 (q := 0) Nat.zero_lt_two rfl
  obtain ⟨m₇, call₇, hcontent, h₇⟩ := h₆.getBlockRead 4
    (fun p hp => by obtain rfl := Nat.le_zero.mp hp; rfl) 0
  have hsame : (m₅.blocks 0).content = (m₇.blocks 0).content := Option.some.inj hcontent
  have htrace : Trace (Holders.Step 4) (Holders.start 3)
      [.create true, .create true, .create false, .post 1 (m₃.blocks 1).content, .take none,
        .post 0 (m₅.blocks 0).content, .take (some (m₇.blocks 0).content)] _ :=
    .cons (.granted call₁) <| .cons (.granted call₂) <| .cons (.refused call₃) <|
      .cons (.post rfl rfl call₄) <| .cons (.nothing 0 call₅) <| .cons (.post rfl rfl call₆) <|
      .cons (.took 0 call₇) (.nil _)
  rw [← hsame] at htrace
  obtain ⟨t, ht, -, hobtained, -, hreturn⟩ := ring_simulates_ticketQueue (by decide) 4 htrace
  exact ⟨_, _, _, t, htrace, ht, hobtained, hreturn⟩

end AtomicMessageQueue
