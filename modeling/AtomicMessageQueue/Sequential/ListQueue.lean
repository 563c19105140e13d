import AtomicMessageQueue.Sequential.Tickets

/-! # `write` and `read` as a list queue

One thread calls `write` and `read`, each call run to completion, every wait ending in a timeout. The
results and the bytes copied are those of a list of byte strings.
-/

namespace AtomicMessageQueue

open Function Simulation TicketRing

/-! ## The list queue -/

/-- A call of `write` or `read` with what it returned. -/
inductive Exchange
  | write (pBuff : ℕ → UInt8) (amount result : ℕ)
  | read (buffSize : ℕ) (msTimeout : ℤ) (bytes : List UInt8)

/-- A write is refused by a full list, and otherwise appends what fits in a block. -/
def listWrite (capacity blockSize : ℕ) (pBuff : ℕ → UInt8) (amount : ℕ)
    (queue : List (List UInt8)) : ℕ × List (List UInt8) :=
  if queue.length = capacity then (0, queue)
  else (min amount blockSize, queue ++ [(List.range (min amount blockSize)).map pBuff])

/-- A read drops the empty entries at the front, and removes and copies the first of the others. -/
def listRead (buffSize : ℕ) (queue : List (List UInt8)) : List UInt8 × List (List UInt8) :=
  match queue.dropWhile List.isEmpty with
  | [] => ([], [])
  | entry :: rest => (entry.take buffSize, rest)

/-- The steps of the list queue. -/
def ListStep (capacity blockSize : ℕ) (queue : List (List UInt8)) :
    Exchange → List (List UInt8) → Prop
  | .write pBuff amount result, queue' =>
      listWrite capacity blockSize pBuff amount queue = (result, queue')
  | .read buffSize _ bytes, queue' => listRead buffSize queue = (bytes, queue')

/-- The same calls on the ring. -/
def CallStep (blockSize : ℕ) (m : MemBuff) : Exchange → MemBuff → Prop
  | .write pBuff amount result, m' => Completes blockSize m (.write pBuff amount) m' (.wrote result)
  | .read buffSize msTimeout bytes, m' =>
      Completes blockSize m (.read buffSize msTimeout) m' (.got bytes)

/-! ## The copy loops -/

variable {N : ℕ} {m m' : MemBuff} {queue : List (List UInt8)}

theorem MemBuff.setBlock_id (m : MemBuff) (b : ℕ) {f : Block → Block} (hf : ∀ blk, f blk = blk) :
    m.setBlock b f = m := by
  simp only [MemBuff.setBlock, hf, update_eq_self]

/-- `memcpy` into a block stores the bytes that are left. -/
theorem runs_copyIn (blockSize : ℕ) (pBuff : ℕ → UInt8) (n b d : ℕ) (m : MemBuff) :
    Runs blockSize m (.next (.copyIn pBuff n b d))
      (m.setBlock b fun blk =>
        { blk with data := fun i => if d ≤ i ∧ i < n then pBuff i else blk.data i })
      (.next (.storeAmount pBuff n b)) := by
  -- on the number of bytes left
  generalize hk : n - d = k
  induction k generalizing d m with
  | zero =>
      have hdone : ¬ d < n := by omega
      rw [m.setBlock_id b fun blk => ?_]
      · exact .step (.copiedIn pBuff n b d hdone) (.refl _ _)
      · have hnone : ∀ i, ¬ (d ≤ i ∧ i < n) := fun i => by omega
        simp only [hnone, if_false]
  | succ k ih =>
      have hd : d < n := by omega
      have hrest := ih (d + 1)
        (m.setBlock b fun blk => { blk with data := update blk.data d (pBuff d) }) (by omega)
      rw [MemBuff.setBlock_setBlock] at hrest
      have hdata : ∀ data : ℕ → UInt8,
          (fun i => if d + 1 ≤ i ∧ i < n then pBuff i else update data d (pBuff d) i) =
            fun i => if d ≤ i ∧ i < n then pBuff i else data i := by
        intro data
        funext i
        by_cases hi : i = d
        · subst hi
          have h₁ : ¬ (i + 1 ≤ i ∧ i < n) := by omega
          have h₂ : i ≤ i ∧ i < n := by omega
          rw [if_neg h₁, if_pos h₂, update_self]
        · have hiff : (d + 1 ≤ i ∧ i < n) ↔ (d ≤ i ∧ i < n) := by omega
          simp only [hiff, update_of_ne hi]
      simp only [hdata] at hrest
      exact .step (.copyIn pBuff n b d hd) hrest

/-- A block after `write` has stored a message of `n` bytes in it. -/
def Block.fill (pBuff : ℕ → UInt8) (n : ℕ) (blk : Block) : Block :=
  { blk with data := fun i => if i < n then pBuff i else blk.data i, amount := n }

theorem Block.contents_fill (pBuff : ℕ → UInt8) (n : ℕ) (blk : Block) :
    (blk.fill pBuff n).contents = (List.range n).map pBuff := by
  simp only [Block.contents, Block.fill]
  exact List.map_congr_left fun i hi => if_pos (List.mem_range.mp hi)

theorem runs_fill (blockSize : ℕ) (pBuff : ℕ → UInt8) (n b : ℕ) (m : MemBuff) :
    Runs blockSize m (.next (.copyIn pBuff n b 0)) (m.setBlock b (Block.fill pBuff n))
      (.next (.postBlock (.write n) (.set b))) := by
  have hstore := MemBuff.setBlock_setBlock m b
    (fun blk => { blk with data := fun i => if 0 ≤ i ∧ i < n then pBuff i else blk.data i })
    (fun blk => { blk with amount := n })
  simp only [Nat.zero_le, true_and] at hstore
  have hcopy := runs_copyIn blockSize pBuff n b 0 m
  simp only [Nat.zero_le, true_and] at hcopy
  refine hcopy.trans ?_
  rw [show m.setBlock b (Block.fill pBuff n) = _ from hstore.symm]
  exact .step (.storeAmount pBuff n b) (.refl _ _)

/-- `std::min`, with nobody else storing into the block. -/
theorem runs_min (blockSize buffSize b : ℕ) (m : MemBuff) :
    Runs blockSize m (.next (.loadMin buffSize b)) m
      (.next (.copyOut buffSize (min (m.blocks b).amount buffSize) b [])) := by
  by_cases hlt : buffSize < (m.blocks b).amount
  · rw [Nat.min_eq_right hlt.le]
    exact .step (.minBuffSize buffSize b hlt) (.refl _ _)
  · rw [Nat.min_eq_left (Nat.le_of_not_lt hlt)]
    exact .step (.minAmount buffSize b hlt) (.step (.loadDwAmount buffSize b) (.refl _ _))

/-- `memcpy` out of a block copies the bytes that are left. -/
theorem runs_copyOut (blockSize buffSize n b d : ℕ) (hd : d ≤ n) (m : MemBuff) :
    Runs blockSize m
      (.next (.copyOut buffSize n b ((List.range d).map (m.blocks b).data))) m
      (.next (.returnBlock (.read ((List.range n).map (m.blocks b).data)) (.set b))) := by
  -- on the number of bytes left
  generalize hk : n - d = k
  have hlen : ((List.range d).map (m.blocks b).data).length = d := by
    rw [List.length_map, List.length_range]
  induction k generalizing d with
  | zero =>
      obtain rfl : d = n := by omega
      refine .step (.copiedOut buffSize d b _ ?_) (.refl _ _)
      rw [hlen]
      exact lt_irrefl d
  | succ k ih =>
      have hlt : d < n := by omega
      have hrest := ih (d + 1) hlt (by omega) (by rw [List.length_map, List.length_range])
      rw [List.range_succ, List.map_append, List.map_singleton] at hrest
      refine .step (.copyOut buffSize n b _ (by rw [hlen]; exact hlt)) ?_
      rw [hlen]
      exact hrest

/-! ## The representation -/

/-- The cursors of a ring in which `n` messages follow the `taken` ones that are gone. -/
def listPositions (taken n : ℕ) : Positions where
  created := taken + n
  published := taken + n
  taken := taken
  retired := taken
  posted := fun q => q < taken + n
  returned := fun q => q < taken

/-- The ring holds these messages, the first of them in the block of ticket `taken`. -/
structure HoldsFrom (N : ℕ) (m : MemBuff) (taken : ℕ) (queue : List (List UInt8)) : Prop where
  shows : Shows N m (listPositions taken queue.length)
  contents : ∀ i msg, queue[i]? = some msg → (m.blocks ((taken + i) % N)).contents = msg

/-- The ring holds these messages. -/
def Holds (N : ℕ) (m : MemBuff) (queue : List (List UInt8)) : Prop :=
  ∃ taken, HoldsFrom N m taken queue

theorem holds_create (hN : 2 ≤ N) : Holds N (create N) [] := by
  have heq : listPositions 0 0 = Positions.zero := by
    simp [listPositions, Positions.zero]
  exact ⟨0, ⟨by rw [List.length_nil, heq]; exact shows_create hN, fun i msg h => by cases h⟩⟩

theorem SameData.contents (h : SameData m m') (i : ℕ) :
    (m'.blocks i).contents = (m.blocks i).contents :=
  Block.contents_eq (h.data i) (h.amount i)

namespace HoldsFrom

variable {taken : ℕ}

/-- Fewer messages than blocks. -/
theorem length_lt (h : HoldsFrom N m taken queue) : queue.length < N := by
  have hlt : taken + queue.length < taken + N := h.shows.lt
  omega

/-- A message leaves the queue when its block has been taken and returned. -/
theorem pop {msg : List UInt8} {rest : List (List UInt8)}
    (h : HoldsFrom N m taken (msg :: rest)) (blockSize : ℕ) (k : ReturnCaller) :
    ∃ m', Runs blockSize { m with readStart := (m.blocks m.readStart).next }
        (.next (.returnBlock k (.set (taken % N)))) m' k.resume ∧
      HoldsFrom N m' (taken + 1) rest ∧ m'.msgCount = m.msgCount := by
  have htaken : (listPositions taken (msg :: rest).length).taken <
      (listPositions taken (msg :: rest).length).published := by
    simp only [listPositions, List.length_cons]
    omega
  obtain ⟨-, hshows⟩ := h.shows.getBlockRead blockSize htaken (.holder 0)
  obtain ⟨m', p, hrun, hshows', hle, hp, hsame⟩ := hshows.returnBlock blockSize (q := taken)
    (Nat.lt_succ_self _) (Nat.lt_irrefl _) k
  have hfin : p ≤ taken + 1 := hshows'.read.fin_le
  have hp' : ¬ (p = taken ∨ p < taken) := hp
  -- the ticket returned is the oldest, and no later one is returned: the cursor moves by one
  obtain rfl : p = taken + 1 := by omega
  have hpositions : { { listPositions taken (msg :: rest).length with
          taken := (listPositions taken (msg :: rest).length).taken + 1 } with
        returned := fun r => r = taken ∨ (listPositions taken (msg :: rest).length).returned r
        retired := taken + 1 } = listPositions (taken + 1) rest.length := by
    simp only [listPositions, List.length_cons, Positions.mk.injEq]
    refine ⟨by omega, by omega, trivial, trivial, ?_, ?_⟩
    · funext r
      exact propext (by omega)
    · funext r
      exact propext (by omega)
  refine ⟨m', hrun, ⟨hpositions ▸ hshows', fun i msg' hi => ?_⟩, hsame.count⟩
  have hlt := h.length_lt
  have hi' : i < rest.length := (List.getElem?_eq_some_iff.mp hi).1
  have hne : (taken + 1 + i) % N ≠ taken % N := by
    intro hmod
    have := eq_of_mod_eq (a := taken) (by omega) (by rw [List.length_cons] at hlt; omega) le_rfl
      (by omega) hmod
    omega
  have hcontents := h.contents (i + 1) msg' (by simpa using hi)
  rw [hsame.contents, MemBuff.setBlock_blocks, if_neg hne, ← hcontents,
    show taken + 1 + i = taken + (i + 1) by omega]

/-- A message enters the queue when its block has been claimed, filled and posted. -/
theorem push (h : HoldsFrom N m taken queue) (hroom : queue.length < N - 1) (blockSize : ℕ)
    (k : PostCaller) (pBuff : ℕ → UInt8) (n : ℕ) :
    ∃ m', Runs blockSize
        ({ m with writeStart := (m.blocks m.writeStart).next }.setBlock
          ((taken + queue.length) % N) (Block.fill pBuff n))
        (.next (.postBlock k (.set ((taken + queue.length) % N)))) m' k.resume ∧
      HoldsFrom N m' taken (queue ++ [(List.range n).map pBuff]) ∧
      m'.msgCount = m.msgCount := by
  have hlt := h.length_lt
  have hgrant : (listPositions taken queue.length).created + 1 <
      (listPositions taken queue.length).retired + N := by
    simp only [listPositions]
    omega
  obtain ⟨-, hshows⟩ := h.shows.getBlockWrite blockSize hgrant .holder
  have hfill := hshows.setBlock ((taken + queue.length) % N) (f := Block.fill pBuff n)
    (fun _ => ⟨rfl, rfl⟩) fun _ => ⟨rfl, rfl⟩
  obtain ⟨m', p, hrun, hshows', hle, hp, hsame⟩ := hfill.postBlock blockSize
    (q := taken + queue.length) (Nat.lt_succ_self _) (Nat.lt_irrefl _) k
  have hfin : p ≤ taken + queue.length + 1 := hshows'.write.fin_le
  have hle' : taken + queue.length ≤ p := hle
  have hp' : ¬ (p = taken + queue.length ∨ p < taken + queue.length) := hp
  -- all older tickets are published: the cursor moves by one
  obtain rfl : p = taken + queue.length + 1 := by omega
  have hpositions : { { listPositions taken queue.length with
          created := (listPositions taken queue.length).created + 1 } with
        posted := fun r => r = taken + queue.length ∨
          (listPositions taken queue.length).posted r
        published := taken + queue.length + 1 } =
      listPositions taken (queue ++ [(List.range n).map pBuff]).length := by
    simp only [listPositions, List.length_append, List.length_singleton, Positions.mk.injEq]
    refine ⟨by omega, by omega, trivial, trivial, ?_, trivial⟩
    funext r
    exact propext (by omega)
  refine ⟨m', hrun, ⟨hpositions ▸ hshows', fun i msg' hi => ?_⟩, hsame.count⟩
  rw [hsame.contents, MemBuff.setBlock_blocks]
  rcases Nat.lt_trichotomy i queue.length with hlt' | rfl | hgt
  · -- an older message is in another block
    have hne : (taken + i) % N ≠ (taken + queue.length) % N := by
      intro hmod
      have := eq_of_mod_eq (a := taken) (by omega) (by omega) (by omega) (by omega) hmod
      omega
    rw [if_neg hne]
    exact h.contents i msg' (by rwa [List.getElem?_append_left hlt'] at hi)
  · rw [if_pos rfl, Block.contents_fill]
    simpa using hi
  · rw [List.getElem?_eq_none (by simp; omega)] at hi
    cases hi

theorem withCount (h : HoldsFrom N m taken queue) (n : UInt32) :
    HoldsFrom N { m with msgCount := n } taken queue where
  shows := { h.shows with linked := h.shows.linked.of_blocks rfl }
  contents := h.contents

/-! ## The calls -/

/-- `write` does to the ring what the list queue does. It adds one to the count if it finds room. -/
theorem write (hN : 2 ≤ N) (h : HoldsFrom N m taken queue) (blockSize : ℕ) (pBuff : ℕ → UInt8)
    (amount : ℕ) :
    ∃ m', Completes blockSize m (.write pBuff amount) m'
        (.wrote (listWrite (N - 1) blockSize pBuff amount queue).1) ∧
      HoldsFrom N m' taken (listWrite (N - 1) blockSize pBuff amount queue).2 ∧
      m'.msgCount = if queue.length = N - 1 then m.msgCount else m.msgCount + 1 := by
  have hlt := h.length_lt
  by_cases hfull : queue.length = N - 1
  · simp only [listWrite, if_pos hfull]
    have hcreated : (listPositions taken queue.length).created + 1 =
        (listPositions taken queue.length).retired + N := by
      simp only [listPositions]
      omega
    obtain ⟨hrun, hshows⟩ := h.shows.getBlockWrite_full blockSize hcreated (.write pBuff amount)
    exact ⟨_, hrun, ⟨hshows, h.contents⟩, rfl⟩
  · simp only [listWrite, if_neg hfull]
    have hgrant : (listPositions taken queue.length).created + 1 <
        (listPositions taken queue.length).retired + N := by
      simp only [listPositions]
      omega
    obtain ⟨hget, -⟩ := h.shows.getBlockWrite blockSize hgrant (.write pBuff amount)
    have hfill := runs_fill blockSize pBuff (min amount blockSize) ((taken + queue.length) % N)
      { m with writeStart := (m.blocks m.writeStart).next }
    obtain ⟨m', hpost, hholds, hcount⟩ := h.push (by omega) blockSize
      (.write (min amount blockSize)) pBuff (min amount blockSize)
    refine ⟨{ m' with msgCount := m'.msgCount + 1 }, ?_, hholds.withCount _, by rw [hcount]⟩
    exact hget.trans (hfill.trans (hpost.trans (.step (.increment _) (.refl _ _))))

/-- `read` does to the ring what the list queue does. It takes one from the count if it finds a
message that is not empty; the empty ones it drops stay counted. -/
theorem read (h : HoldsFrom N m taken queue) (blockSize buffSize : ℕ) (ms : ℤ) :
    ∃ m' taken', Completes blockSize m (.read buffSize ms) m'
        (.got (listRead buffSize queue).1) ∧
      HoldsFrom N m' taken' (listRead buffSize queue).2 ∧
      m'.msgCount =
        if queue.dropWhile List.isEmpty = [] then m.msgCount else m.msgCount - 1 := by
  -- each round of the loop drops one empty message from the front
  induction queue generalizing m taken with
  | nil =>
      obtain ⟨m', hrun, hshows, hblocks, hcount⟩ := h.shows.getBlockRead_empty blockSize rfl
        (.read buffSize ms)
      exact ⟨m', taken, hrun, ⟨hshows, by rw [hblocks]; exact h.contents⟩, hcount⟩
  | cons msg rest ih =>
      have htaken : (listPositions taken (msg :: rest).length).taken <
          (listPositions taken (msg :: rest).length).published := by
        simp only [listPositions, List.length_cons]
        omega
      obtain ⟨hget, -⟩ := h.shows.getBlockRead blockSize htaken (.read buffSize ms)
      have hmsg : (m.blocks (taken % N)).contents = msg := h.contents 0 msg rfl
      cases msg with
      | nil =>
          have hamount := Block.contents_eq_nil.mp hmsg
          obtain ⟨m₁, hreturn, hholds, hcount⟩ := h.pop blockSize (.again buffSize ms)
          obtain ⟨m', taken', hrun, hholds', hcount'⟩ := ih hholds
          refine ⟨m', taken', hget.trans ?_, hholds', ?_⟩
          · exact .step (.skip buffSize ms (taken % N) hamount) (hreturn.trans hrun)
          · rw [hcount', hcount]
            rfl
      | cons x xs =>
          have hamount : (m.blocks (taken % N)).amount ≠ 0 := by
            rw [Ne, ← Block.contents_eq_nil, hmsg]
            exact List.cons_ne_nil x xs
          obtain ⟨m₁, hreturn, hholds, hcount⟩ := h.pop blockSize (.read ((x :: xs).take buffSize))
          have hcopy := runs_copyOut blockSize buffSize
            (min (m.blocks (taken % N)).amount buffSize) (taken % N) 0 (Nat.zero_le _)
            { m with readStart := (m.blocks m.readStart).next }
          rw [show (List.range (min (m.blocks (taken % N)).amount buffSize)).map
              (m.blocks (taken % N)).data = (x :: xs).take buffSize by
            rw [← hmsg, Block.contents_take]] at hcopy
          refine ⟨{ m₁ with msgCount := m₁.msgCount - 1 }, taken + 1, ?_, hholds.withCount _, ?_⟩
          · refine hget.trans ?_
            refine .step (.loadAmount buffSize ms (taken % N) hamount) ?_
            refine (runs_min blockSize buffSize (taken % N) _).trans (hcopy.trans (hreturn.trans ?_))
            exact .step (.decrement _) (.refl _ _)
          · rw [if_neg (by simp), hcount]

end HoldsFrom

/-! ## The simulation -/

/-- Each call on the ring is matched by the list queue. -/
theorem calls_forward (hN : 2 ≤ N) (blockSize : ℕ) :
    Forward (CallStep blockSize) (ListStep (N - 1) blockSize) (Holds N) := by
  rintro m queue e m' ⟨taken, h⟩ hcall
  cases e with
  | write pBuff amount result =>
      obtain ⟨m₁, hrun, hholds, -⟩ := h.write hN blockSize pBuff amount
      obtain ⟨rfl, hr⟩ := Completes.determ hcall hrun
      cases hr
      exact ⟨_, rfl, taken, hholds⟩
  | read buffSize ms bytes =>
      obtain ⟨m₁, taken', hrun, hholds, -⟩ := h.read blockSize buffSize ms
      obtain ⟨rfl, hr⟩ := Completes.determ hcall hrun
      cases hr
      exact ⟨_, rfl, taken', hholds⟩

/-- Each step of the list queue is a call on the ring, which returns. -/
theorem calls_backward (hN : 2 ≤ N) (blockSize : ℕ) :
    Forward (ListStep (N - 1) blockSize) (CallStep blockSize) fun queue m => Holds N m queue := by
  rintro queue m e queue' ⟨taken, h⟩ hstep
  cases e with
  | write pBuff amount result =>
      obtain ⟨m₁, hrun, hholds, -⟩ := h.write hN blockSize pBuff amount
      rw [show listWrite (N - 1) blockSize pBuff amount queue = (result, queue') from hstep]
        at hrun hholds
      exact ⟨m₁, hrun, taken, hholds⟩
  | read buffSize ms bytes =>
      obtain ⟨m₁, taken', hrun, hholds, -⟩ := h.read blockSize buffSize ms
      rw [show listRead buffSize queue = (bytes, queue') from hstep] at hrun hholds
      exact ⟨m₁, hrun, taken', hholds⟩

/-- **`write` and `read` of one thread are a list queue.** From the state `create` sets up the ring
shows exactly the histories of calls, results and copied bytes that a list with room for `N - 1`
entries shows. -/
theorem write_read_listQueue (hN : 2 ≤ N) (blockSize : ℕ) (history : List Exchange) :
    (∃ m, Trace (CallStep blockSize) (create N) history m) ↔
      ∃ queue, Trace (ListStep (N - 1) blockSize) [] history queue :=
  Trace.iff_of_forward (calls_forward hN blockSize) (calls_backward hN blockSize)
    (holds_create hN) history

/-- Three blocks of four bytes: an empty message, an oversized one, a refused one, and a read into
three bytes that skips the empty one. -/
theorem write_read_listQueue_mixed :
    ∃ m, Trace (CallStep 4) (create 3)
      [.write (fun _ => 0) 0 0, .write (fun _ => 7) 6 4, .write (fun _ => 9) 1 0,
        .read 3 1 [7, 7, 7], .read 3 0 []] m :=
  (write_read_listQueue (by decide) 4 _).mpr
    ⟨[], .cons rfl <| .cons rfl <| .cons rfl <| .cons rfl <| .cons rfl <| .nil _⟩

end AtomicMessageQueue
