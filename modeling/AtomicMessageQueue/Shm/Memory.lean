import Mathlib.Data.Nat.Basic
import Mathlib.Logic.Function.Basic
import Mathlib.Tactic.Basic

/-! # The shared memory buffer

Reference: `shmIPC.h`, `struct block`, `struct memBuff` and the initialisation in `ShmQueue::create`;
`events2.h`, `struct event_t` and `CreateEvent`. Alignment padding is left out. Block indices and
byte counts are natural numbers; `msgCount`, the one field that can wrap, keeps its 32-bit type.
-/

namespace AtomicMessageQueue

open Function

/-- `struct event_t`. The mutex is its locked bit. The condition variable is the number of
broadcasts made on it so far, so that a sleeper is notified once that number has changed. -/
structure EventT where
  state : ℕ
  kill : Bool
  mtx : Bool
  cond : ℕ
deriving DecidableEq, Repr

/-- `CreateEvent`. -/
def createEvent : EventT :=
  { state := 0, kill := false, mtx := false, cond := 0 }

/-- `struct block`. -/
structure Block where
  next : ℕ
  prev : ℕ
  doneRead : ℕ
  doneWrite : ℕ
  amount : ℕ
  data : ℕ → UInt8

/-- The bytes a block holds: the first `Amount` of `Data`. -/
def Block.contents (blk : Block) : List UInt8 := (List.range blk.amount).map blk.data

theorem Block.contents_length (blk : Block) : blk.contents.length = blk.amount := by
  rw [Block.contents, List.length_map, List.length_range]

theorem Block.contents_eq_nil {blk : Block} : blk.contents = [] ↔ blk.amount = 0 := by
  rw [← List.length_eq_zero_iff, blk.contents_length]

theorem Block.contents_eq {b b' : Block} (hdata : b'.data = b.data) (hamount : b'.amount = b.amount) :
    b'.contents = b.contents := by
  rw [Block.contents, Block.contents, hdata, hamount]

theorem Block.contents_take (blk : Block) (n : ℕ) :
    blk.contents.take n = (List.range (min blk.amount n)).map blk.data := by
  rw [Block.contents, ← List.map_take, List.take_range, Nat.min_comm]

/-- A value-initialised block. -/
def Block.zero : Block where
  next := 0
  prev := 0
  doneRead := 0
  doneWrite := 0
  amount := 0
  data := fun _ => 0

/-- `struct memBuff`. -/
structure MemBuff where
  blocks : ℕ → Block
  msgCount : UInt32
  readEnd : ℕ
  readStart : ℕ
  writeEnd : ℕ
  writeStart : ℕ
  signal : EventT
  avail : EventT

namespace MemBuff

/-- Store into one block. -/
def setBlock (m : MemBuff) (i : ℕ) (f : Block → Block) : MemBuff :=
  { m with blocks := update m.blocks i (f (m.blocks i)) }

theorem setBlock_blocks (m : MemBuff) (b : ℕ) (f : Block → Block) (i : ℕ) :
    (m.setBlock b f).blocks i = if i = b then f (m.blocks i) else m.blocks i := by
  simp only [setBlock, update_apply]
  split
  next hib => rw [hib]
  next => rfl

theorem setBlock_setBlock (m : MemBuff) (b : ℕ) (f g : Block → Block) :
    (m.setBlock b f).setBlock b g = m.setBlock b fun blk => g (f blk) := by
  simp only [MemBuff.setBlock, update_self, update_idem]

/-- A store into one block that leaves some field alone leaves it alone in every block. -/
theorem get_setBlock {α : Type*} (m : MemBuff) (get : Block → α) {b : ℕ} {f : Block → Block}
    (hf : ∀ blk, get (f blk) = get blk) (i : ℕ) :
    get ((m.setBlock b f).blocks i) = get (m.blocks i) := by
  simp only [setBlock, update_apply]
  split
  next hib => rw [hf, hib]
  next => rfl

/-- `MemBuff()`: value-initialisation zeroes every field. -/
def zero : MemBuff where
  blocks := fun _ => Block.zero
  msgCount := 0
  readEnd := 0
  readStart := 0
  writeEnd := 0
  writeStart := 0
  signal := createEvent
  avail := createEvent

end MemBuff

/-- `m_blocks[i].Next = v`. -/
def setNext (i v : ℕ) (m : MemBuff) : MemBuff :=
  m.setBlock i fun b => { b with next := v }

/-- `m_blocks[i].Prev = v`. -/
def setPrev (i v : ℕ) (m : MemBuff) : MemBuff :=
  m.setBlock i fun b => { b with prev := v }

/-- The stores of the loop `for (i = 1; i < BLOCK_COUNT - 1; i++)` in `create`. -/
def linkStores (i : ℕ) : List (MemBuff → MemBuff) :=
  [setNext i (i + 1), setPrev i (i - 1)]

/-- The stores of the two `CreateEvent` calls in `create`. -/
def eventStores : List (MemBuff → MemBuff) :=
  [fun m => { m with signal := { m.signal with state := 0 } },
   fun m => { m with signal := { m.signal with kill := false } },
   fun m => { m with signal := { m.signal with cond := 0 } },
   fun m => { m with signal := { m.signal with mtx := false } },
   fun m => { m with avail := { m.avail with state := 0 } },
   fun m => { m with avail := { m.avail with kill := false } },
   fun m => { m with avail := { m.avail with cond := 0 } },
   fun m => { m with avail := { m.avail with mtx := false } }]

/-- The stores with which `create` fills a fresh segment, in program order. -/
def createStores (blockCount : ℕ) : List (MemBuff → MemBuff) :=
  [fun _ => MemBuff.zero, setNext 0 1, setPrev 0 (blockCount - 1)] ++
  (List.range' 1 (blockCount - 2)).flatMap linkStores ++
  [setNext (blockCount - 1) 0, setPrev (blockCount - 1) (blockCount - 2),
   fun m => { m with msgCount := 0 },
   fun m => { m with readEnd := 0 },
   fun m => { m with readStart := 0 },
   fun m => { m with writeEnd := 0 },
   fun m => { m with writeStart := 0 }] ++
  eventStores

/-- Run a list of stores. -/
def runStores (stores : List (MemBuff → MemBuff)) (m : MemBuff) : MemBuff :=
  stores.foldl (fun m store => store m) m

/-- The buffer `create` sets up on a fresh segment; its first store overwrites all that was there. -/
def create (blockCount : ℕ) : MemBuff :=
  runStores (createStores blockCount) MemBuff.zero

/-- The initialisation starts from any contents: its first store overwrites them. -/
theorem runStores_createStores (blockCount : ℕ) (m : MemBuff) :
    runStores (createStores blockCount) m = create blockCount := by
  simp only [create, createStores, runStores, List.cons_append, List.foldl_cons]

/-- The ring links of every block, `Next` forwards and `Prev` backwards modulo the ring size. -/
structure Linked (blockCount : ℕ) (m : MemBuff) : Prop where
  next : ∀ i, i < blockCount → (m.blocks i).next = (i + 1) % blockCount
  prev : ∀ i, i < blockCount → (m.blocks i).prev = (i + blockCount - 1) % blockCount

/-- The links do not depend on the rest of the buffer. -/
theorem Linked.of_links {blockCount : ℕ} {m m' : MemBuff} (h : Linked blockCount m)
    (hlinks : ∀ i, (m'.blocks i).next = (m.blocks i).next ∧ (m'.blocks i).prev = (m.blocks i).prev) :
    Linked blockCount m' where
  next i hi := (hlinks i).1.trans (h.next i hi)
  prev i hi := (hlinks i).2.trans (h.prev i hi)

/-! ## The state `create` leaves -/

theorem runStores_append (as bs : List (MemBuff → MemBuff)) (m : MemBuff) :
    runStores (as ++ bs) m = runStores bs (runStores as m) := by
  simp only [runStores, List.foldl_append]

/-- The link loop from block `a` on sets the links of the `k` blocks it visits and nothing else. -/
theorem runStores_linkStores (k a : ℕ) (m : MemBuff) :
    runStores ((List.range' a k).flatMap linkStores) m =
      { m with
        blocks := fun i =>
          if a ≤ i ∧ i < a + k then { m.blocks i with next := i + 1, prev := i - 1 }
          else m.blocks i } := by
  induction k generalizing a m with
  | zero =>
      have hnone : ∀ i, ¬ (a ≤ i ∧ i < a + 0) := fun i => by omega
      simp only [List.range'_zero, List.flatMap_nil, runStores, List.foldl_nil, hnone, if_false]
  | succ k ih =>
      rw [List.range'_succ, List.flatMap_cons, runStores_append, ih]
      simp only [runStores, linkStores, List.foldl_cons, List.foldl_nil, setNext, setPrev,
        MemBuff.setBlock]
      congr 1
      funext i
      by_cases hi : i = a
      · subst hi
        have h1 : ¬ (i + 1 ≤ i ∧ i < i + 1 + k) := by omega
        have h2 : i ≤ i ∧ i < i + (k + 1) := by omega
        simp only [h1, h2, if_false, if_true, update_self, and_self]
      · have hiff : (a + 1 ≤ i ∧ i < a + 1 + k) ↔ (a ≤ i ∧ i < a + (k + 1)) := by omega
        simp only [update_of_ne hi, hiff]

/-- The buffer `create` sets up, field by field. -/
theorem create_eq {blockCount : ℕ} (hN : 2 ≤ blockCount) :
    create blockCount =
      { MemBuff.zero with
        blocks := fun i =>
          if i < blockCount then
            { MemBuff.zero.blocks i with
              next := (i + 1) % blockCount
              prev := (i + blockCount - 1) % blockCount }
          else MemBuff.zero.blocks i } := by
  simp only [create, createStores, runStores_append]
  rw [runStores_linkStores]
  simp only [runStores, eventStores, List.foldl_cons, List.foldl_nil, setNext, setPrev,
    MemBuff.setBlock]
  simp only [MemBuff.zero, createEvent, MemBuff.mk.injEq, and_true]
  funext i
  -- the last block, block 0, the blocks of the loop, and those outside the ring
  by_cases hlast : i = blockCount - 1
  · subst hlast
    have h1 : blockCount - 1 < blockCount := by omega
    have h2 : blockCount - 1 + 1 = blockCount := by omega
    have h3 : blockCount - 1 + blockCount - 1 = blockCount - 2 + blockCount := by omega
    have h4 : blockCount - 2 < blockCount := by omega
    simp only [h1, if_true, update_self, h2, Nat.mod_self, h3, Nat.add_mod_right,
      Nat.mod_eq_of_lt h4]
    split <;> (by_cases h0 : blockCount - 1 = 0 <;> simp [h0])
  · simp only [update_of_ne hlast]
    by_cases h0 : i = 0
    · subst h0
      have h1 : ¬ (1 ≤ 0 ∧ 0 < 1 + (blockCount - 2)) := by omega
      have h2 : 0 < blockCount := by omega
      have h3 : 0 + blockCount - 1 < blockCount := by omega
      simp only [h1, if_false, h2, if_true, update_self, Nat.mod_eq_of_lt h3]
      rw [Nat.mod_eq_of_lt (show 0 + 1 < blockCount by omega)]
      simp
    · by_cases hi : i < blockCount
      · have h1 : 1 ≤ i ∧ i < 1 + (blockCount - 2) := by omega
        have h2 : i + 1 < blockCount := by omega
        have h3 : i + blockCount - 1 = i - 1 + blockCount := by omega
        have h4 : i - 1 < blockCount := by omega
        simp only [h1, and_self, if_true, hi, update_of_ne h0, Nat.mod_eq_of_lt h2, h3,
          Nat.add_mod_right, Nat.mod_eq_of_lt h4]
      · have h1 : ¬ (1 ≤ i ∧ i < 1 + (blockCount - 2)) := by omega
        simp only [h1, if_false, hi, update_of_ne h0]

theorem create_linked {blockCount : ℕ} (hN : 2 ≤ blockCount) :
    Linked blockCount (create blockCount) := by
  rw [create_eq hN]
  exact ⟨fun i hi => by simp only [hi, if_true], fun i hi => by simp only [hi, if_true]⟩

/-- In a fresh buffer no done flag is up and every block is empty. -/
theorem create_block {blockCount : ℕ} (hN : 2 ≤ blockCount) (i : ℕ) :
    ((create blockCount).blocks i).doneRead = 0 ∧ ((create blockCount).blocks i).doneWrite = 0 ∧
      ((create blockCount).blocks i).amount = 0 := by
  rw [create_eq hN]
  by_cases hi : i < blockCount <;> simp [hi, MemBuff.zero, Block.zero]

end AtomicMessageQueue
