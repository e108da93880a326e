import Mathlib.Algebra.Group.Nat.Defs
import Mathlib.Algebra.Group.Int.Defs
import Mathlib.Data.List.Pairwise
import Protoc.Lib.Regions

/-!
# The serial arena and its layout

What was handed out lies in blocks that are apart, in the current block before `ptr` or from
`limit` on, so that what is handed out next is apart from it.
-/

namespace Protoc.Arena

/-! ## The serial arena -/

open Protoc.Lib

/-! ## `size_t` -/

/-- The values of `size_t`. -/
def sizeMod : ℕ := 2 ^ 64

/-- The sum of two `size_t`. -/
def plus (a b : ℕ) : ℕ := (a + b) % sizeMod

/-- The difference of two `size_t`. -/
def minus (a b : ℕ) : ℕ := (a + sizeMod - b) % sizeMod

/-- `n & static_cast<size_t>(-8)` -/
def roundDown8 (n : ℕ) : ℕ := n / 8 * 8

/-! ## Data -/

/-- The block sizes of an `AllocationPolicy`. -/
structure AllocationPolicy where
  startBlockSize : ℕ := 256
  maxBlockSize : ℕ := 8192

/-- `SerialArena::CleanupNode` -/
structure CleanupNode where
  elem : ℕ
  cleanup : ℕ
deriving DecidableEq

/-- `SerialArena::Block` at an address; the blocks that follow are in the arena. -/
structure Block where
  addr : ℕ
  size : ℕ
  start : ℕ
deriving DecidableEq

/-- `AlignUpTo8(sizeof(Block))` -/
def kBlockHeaderSize : ℕ := 24

/-- `AlignUpTo8(sizeof(CleanupNode))` -/
def kCleanupSize : ℕ := 16

/-- `AlignUpTo8(sizeof(SerialArena))` -/
def kSerialArenaSize : ℕ := 56

/-- `Pointer` -/
def Block.pointer (b : Block) (n : ℕ) : ℕ := b.addr + n

def Block.region (b : Block) : Region := ⟨b.addr, b.size⟩

def Block.data (b : Block) : Region := ⟨b.addr + kBlockHeaderSize, b.size - kBlockHeaderSize⟩

/-- `next` holds the blocks that `head_->next` leads to. -/
structure SerialArena where
  head : Block
  next : List Block
  spaceUsed : ℕ
  spaceAllocated : ℕ
  ptr : ℕ
  limit : ℕ

abbrev NodeMemory : Type := ℕ → Option CleanupNode

/-! ## Blocks -/

/-- `AllocateMemory`: the size of the block that is asked for.  The check that the size does not
overflow is fatal. -/
def allocateMemory (policy : Option AllocationPolicy) (lastSize minBytes : ℕ) : Option ℕ :=
  let policy := policy.getD {}
  let size :=
    if lastSize ≠ 0 then min (2 * lastSize % sizeMod) policy.maxBlockSize else policy.startBlockSize
  if minBytes ≤ sizeMod - 1 - kBlockHeaderSize then some (max size (kBlockHeaderSize + minBytes))
  else none

/-- `SerialArena::New` -/
def SerialArena.new (mem size : ℕ) : SerialArena :=
  let b : Block := ⟨mem, size, 0⟩
  { head := b
    next := []
    spaceUsed := 0
    spaceAllocated := size
    ptr := b.pointer (kBlockHeaderSize + kSerialArenaSize)
    limit := b.pointer (roundDown8 size) }

/-- `AllocateNewBlock`, where the block that is allocated is at `mem`. -/
def allocateNewBlock (policy : Option AllocationPolicy) (mem n : ℕ) (s : SerialArena) : Option SerialArena :=
  (allocateMemory policy s.head.size n).map fun size =>
    let retired : Block := { s.head with start := s.limit }
    let head : Block := ⟨mem, size, 0⟩
    { head := head
      next := retired :: s.next
      spaceUsed := plus s.spaceUsed (minus s.ptr (s.head.pointer kBlockHeaderSize))
      spaceAllocated := plus s.spaceAllocated size
      ptr := head.pointer kBlockHeaderSize
      limit := head.pointer size }

/-! ## Allocation -/

/-- `HasSpace` -/
def SerialArena.hasSpace (s : SerialArena) (n : ℕ) : Bool := decide (n ≤ minus s.limit s.ptr)

/-- Makes room for `n` bytes in the current block: the fallbacks come back to a check that then
succeeds. -/
def reserve (policy : Option AllocationPolicy) (mem n : ℕ) (s : SerialArena) : Option SerialArena :=
  if s.hasSpace n then some s
  else
    (allocateNewBlock policy mem n s).bind fun s => if s.hasSpace n then some s else none

/-- `AllocateAligned` -/
def allocateAligned (policy : Option AllocationPolicy) (mem n : ℕ) (s : SerialArena) :
    Option (ℕ × SerialArena) :=
  (reserve policy mem n s).map fun s => (s.ptr, { s with ptr := plus s.ptr n })

/-- `AllocateAlignedWithCleanup`: the region and the node. -/
def allocateAlignedWithCleanup (policy : Option AllocationPolicy) (mem n : ℕ) (s : SerialArena) :
    Option ((ℕ × ℕ) × SerialArena) :=
  (reserve policy mem (plus n kCleanupSize) s).map fun s =>
    let limit := minus s.limit kCleanupSize
    ((s.ptr, limit), { s with ptr := plus s.ptr n, limit := limit })

/-- A node is written: `elem` and `cleanup`. -/
def NodeMemory.write (memory : NodeMemory) (addr : ℕ) (node : CleanupNode) : NodeMemory :=
  fun a => if a = addr then some node else memory a

/-- `AddCleanup`: the node, and the memory with it. -/
def addCleanup (policy : Option AllocationPolicy) (mem : ℕ) (node : CleanupNode)
    (memory : NodeMemory) (s : SerialArena) : Option (ℕ × NodeMemory × SerialArena) :=
  (allocateAlignedWithCleanup policy mem 0 s).map fun res =>
    (res.1.2, memory.write res.1.2 node, res.2)

/-! ## Cleanup -/

/-- `for (; it < limit; it++)`; every round moves on, so `limit - it` rounds are enough. -/
def runNodes (memory : NodeMemory) (limit : ℕ) : ℕ → ℕ → Option (List CleanupNode)
  | 0, _ => some []
  | rounds + 1, it =>
    if it < limit then do
      let node ← memory it
      let rest ← runNodes memory limit rounds (it + kCleanupSize)
      some (node :: rest)
    else some []

/-- The cleanups of one block.  `nodeDistance` is the difference of two node pointers by their
distance in bytes, which is defined only for whole nodes. -/
def cleanupBlock (nodeDistance : ℤ → ℤ) (memory : NodeMemory) (b : Block) : Option (List CleanupNode) :=
  let limit := b.pointer (roundDown8 b.size)
  let it := b.start
  let num := nodeDistance ((limit : ℤ) - it)
  if 0 < num then runNodes memory limit (limit - it) it else some []

/-- The cleanups of several blocks, one block after the other. -/
def cleanupBlocks (nodeDistance : ℤ → ℤ) (memory : NodeMemory) : List Block → Option (List CleanupNode)
  | [] => some []
  | b :: bs => do
      let first ← cleanupBlock nodeDistance memory b
      let rest ← cleanupBlocks nodeDistance memory bs
      some (first ++ rest)

/-- `CleanupList` -/
def cleanupList (nodeDistance : ℤ → ℤ) (memory : NodeMemory) (s : SerialArena) : Option (List CleanupNode) :=
  cleanupBlocks nodeDistance memory ({ s.head with start := s.limit } :: s.next)

end Protoc.Arena

namespace Protoc.Arena

/-! ## The layout of an arena -/

open Protoc.Lib
open Protoc.Lib.Region (Apart Within)

variable {policy : Option AllocationPolicy} {mem n size : ℕ} {s s' : SerialArena} {items : List Region}

/-! ## `size_t` -/

theorem plus_of_lt {a b : ℕ} (h : a + b < sizeMod) : plus a b = a + b := Nat.mod_eq_of_lt h

theorem minus_of_le {a b : ℕ} (h : b ≤ a) (ha : a < sizeMod) : minus a b = a - b := by
  rw [minus, add_comm, Nat.add_sub_assoc h, Nat.add_mod_left]
  exact Nat.mod_eq_of_lt (by omega)

theorem roundDown8_le (n : ℕ) : roundDown8 n ≤ n := Nat.div_mul_le_self n 8

/-! ## The invariant -/

def SerialArena.blocks (s : SerialArena) : List Block := s.head :: s.next

def Placed (s : SerialArena) (r : Region) : Prop :=
  (s.head.addr + kBlockHeaderSize ≤ r.base ∧ r.limit ≤ s.ptr) ∨
    (s.limit ≤ r.base ∧ r.limit ≤ s.head.addr + s.head.size) ∨ ∃ b ∈ s.next, Within r b.data

/-- The blocks are apart and in the address space, and what was handed out is apart. -/
structure Layout (s : SerialArena) (items : List Region) : Prop where
  /-- Every block has a header and ends in the address space. -/
  bounds : ∀ b ∈ s.blocks, kBlockHeaderSize ≤ b.size ∧ b.addr + b.size < sizeMod
  blocks : s.blocks.Pairwise fun b c => Apart b.region c.region
  /-- The free memory of the current block lies between `ptr` and `limit`. -/
  front : s.head.addr + kBlockHeaderSize ≤ s.ptr
  gap : s.ptr ≤ s.limit
  back : s.limit ≤ s.head.addr + s.head.size
  aligned : s.ptr % 8 = 0
  placed : ∀ r ∈ items, Placed s r
  apart : items.Pairwise Apart

theorem within_region {b : Block} {r : Region} (hb : kBlockHeaderSize ≤ b.size) (h : Within r b.data) :
    Within r b.region := by
  refine ⟨Nat.le_trans (Nat.le_add_right _ _) h.1, ?_⟩
  have hlimit := h.2
  simp only [Block.data, Block.region, Region.limit] at hlimit ⊢
  omega

theorem Layout.inside (h : Layout s items) {r : Region} (hr : r ∈ items) : ∃ b ∈ s.blocks, Within r b.data := by
  have hgap := h.gap
  have hfront := h.front
  have hback := h.back
  rcases h.placed r hr with ⟨hbase, hlimit⟩ | ⟨hbase, hlimit⟩ | ⟨b, hb, hwithin⟩
  · refine ⟨s.head, List.mem_cons_self, hbase, ?_⟩
    simp only [Block.data, Region.limit] at hlimit ⊢
    omega
  · refine ⟨s.head, List.mem_cons_self, ?_, ?_⟩ <;>
      simp only [Block.data, Region.limit] at hlimit ⊢ <;> omega
  · exact ⟨b, List.mem_cons_of_mem _ hb, hwithin⟩

theorem Layout.free_apart (h : Layout s items) {r t : Region} (hr : r ∈ items)
    (hbase : s.ptr ≤ t.base) (hlimit : t.limit ≤ s.limit) : Apart t r := by
  rcases h.placed r hr with hfront | hback | ⟨b, hb, hwithin⟩
  · exact Or.inr (Nat.le_trans hfront.2 hbase)
  · exact Or.inl (Nat.le_trans hlimit hback.1)
  · have hapart : Apart s.head.region b.region := (List.pairwise_cons.mp h.blocks).1 b hb
    have ht : Within t s.head.region := by
      refine ⟨?_, Nat.le_trans hlimit h.back⟩
      exact Nat.le_trans (Nat.le_trans (Nat.le_add_right _ _) h.front) hbase
    have hr' := within_region (h.bounds b (List.mem_cons_of_mem _ hb)).1 hwithin
    exact ((hapart.of_within ht).symm.of_within hr').symm

/-! ## A new arena -/

theorem layout_new (haligned : mem % 8 = 0) (hsize : kBlockHeaderSize + kSerialArenaSize ≤ size)
    (hspace : mem + size < sizeMod) : Layout (SerialArena.new mem size) [] where
  bounds b hb := by
    obtain rfl : b = ⟨mem, size, 0⟩ := List.mem_singleton.mp hb
    exact ⟨Nat.le_trans (Nat.le_add_right _ _) hsize, hspace⟩
  blocks := List.pairwise_singleton _ _
  front := by
    simp only [SerialArena.new, Block.pointer]
    omega
  gap := by
    simp only [SerialArena.new, Block.pointer, roundDown8, kBlockHeaderSize, kSerialArenaSize] at hsize ⊢
    omega
  back := Nat.add_le_add_left (roundDown8_le size) mem
  aligned := by
    simp only [SerialArena.new, Block.pointer, kBlockHeaderSize, kSerialArenaSize]
    omega
  placed _ h := absurd h List.not_mem_nil
  apart := List.Pairwise.nil

/-! ## Making room -/

/-- What the block allocator promises of a block at `mem`. -/
structure Fresh (s : SerialArena) (mem size : ℕ) : Prop where
  aligned : mem % 8 = 0
  space : mem + size < sizeMod
  apart : ∀ b ∈ s.blocks, Apart ⟨mem, size⟩ b.region

theorem allocateMemory_le {lastSize minBytes : ℕ} (h : allocateMemory policy lastSize minBytes = some size) :
    kBlockHeaderSize + minBytes ≤ size := by
  simp only [allocateMemory] at h
  split_ifs at h
  all_goals
    cases h
    exact Nat.le_max_right _ _

/-- What was handed out stays where it is when the current block is retired. -/
theorem Layout.allocateNewBlock (h : Layout s items) (hsize : allocateMemory policy s.head.size n = some size)
    (hfresh : Fresh s mem size) (hs' : allocateNewBlock policy mem n s = some s') : Layout s' items := by
  rw [Arena.allocateNewBlock, hsize, Option.map_some, Option.some.injEq] at hs'
  subst hs'
  have hle := allocateMemory_le hsize
  exact
    { bounds := by
        intro b hb
        rcases List.mem_cons.mp hb with rfl | hb
        · exact ⟨Nat.le_trans (Nat.le_add_right _ _) hle, hfresh.space⟩
        · rcases List.mem_cons.mp hb with rfl | hb
          · exact h.bounds s.head List.mem_cons_self
          · exact h.bounds b (List.mem_cons_of_mem _ hb)
      blocks := by
        refine List.pairwise_cons.mpr ⟨fun b hb => ?_, ?_⟩
        · rcases List.mem_cons.mp hb with rfl | hb
          · exact hfresh.apart s.head List.mem_cons_self
          · exact hfresh.apart b (List.mem_cons_of_mem _ hb)
        · obtain ⟨hhead, hnext⟩ := List.pairwise_cons.mp h.blocks
          exact List.pairwise_cons.mpr ⟨hhead, hnext⟩
      front := Nat.le_refl _
      gap := by
        simp only [Block.pointer]
        omega
      back := Nat.le_refl _
      aligned := by
        have haligned := hfresh.aligned
        simp only [Block.pointer, kBlockHeaderSize]
        omega
      placed := by
        intro r hr
        obtain ⟨b, hb, hwithin⟩ := h.inside hr
        refine Or.inr (Or.inr ?_)
        rcases List.mem_cons.mp hb with rfl | hb
        · exact ⟨_, List.mem_cons_self, hwithin⟩
        · exact ⟨b, List.mem_cons_of_mem _ hb, hwithin⟩
      apart := h.apart }

theorem Layout.hasSpace_iff (h : Layout s items) : s.hasSpace n = true ↔ n ≤ s.limit - s.ptr := by
  have hlimit : s.limit < sizeMod := Nat.lt_of_le_of_lt h.back (h.bounds s.head List.mem_cons_self).2
  rw [SerialArena.hasSpace, decide_eq_true_iff, minus_of_le h.gap hlimit]

theorem Layout.hasSpace_of_allocateNewBlock (h : Layout s' items)
    (hs' : Arena.allocateNewBlock policy mem n s = some s') : s'.hasSpace n = true := by
  rw [h.hasSpace_iff]
  obtain ⟨size, hsize, rfl⟩ := Option.map_eq_some_iff.mp hs'
  have hle := allocateMemory_le hsize
  simp only [Block.pointer]
  omega

def blockFor (policy : Option AllocationPolicy) (n : ℕ) (s : SerialArena) : Option ℕ :=
  if s.hasSpace n then none else allocateMemory policy s.head.size n

theorem Layout.reserve (h : Layout s items) (hfresh : ∀ size ∈ blockFor policy n s, Fresh s mem size)
    (hs' : reserve policy mem n s = some s') : Layout s' items ∧ n ≤ s'.limit - s'.ptr := by
  rw [Arena.reserve] at hs'
  split_ifs at hs' with hspace
  · cases hs'
    exact ⟨h, h.hasSpace_iff.mp hspace⟩
  · obtain ⟨t, ht, hs'⟩ := Option.bind_eq_some_iff.mp hs'
    have hsome := Option.map_eq_some_iff.mp ht
    obtain ⟨size, hsize, -⟩ := hsome
    have hblock : size ∈ blockFor policy n s := by
      rw [blockFor, if_neg hspace]
      exact hsize
    have hlayout := h.allocateNewBlock hsize (hfresh size hblock) ht
    rw [if_pos (hlayout.hasSpace_of_allocateNewBlock ht)] at hs'
    cases hs'
    exact ⟨hlayout, hlayout.hasSpace_iff.mp (hlayout.hasSpace_of_allocateNewBlock ht)⟩

/-! ## Taking memory -/

theorem Layout.takeFront (h : Layout s items) (hn : n ≤ s.limit - s.ptr) (haligned : n % 8 = 0) :
    Layout { s with ptr := s.ptr + n } (⟨s.ptr, n⟩ :: items) where
  bounds := h.bounds
  blocks := h.blocks
  front := Nat.le_trans h.front (Nat.le_add_right _ _)
  gap := by
    have hgap := h.gap
    simp only
    omega
  back := h.back
  aligned := by
    have hptr := h.aligned
    simp only
    omega
  placed r hr := by
    rcases List.mem_cons.mp hr with rfl | hr
    · exact Or.inl ⟨h.front, Nat.le_refl _⟩
    · exact (h.placed r hr).imp_left fun hfront => ⟨hfront.1, Nat.le_trans hfront.2 (Nat.le_add_right _ _)⟩
  apart := by
    refine List.pairwise_cons.mpr ⟨fun r hr => ?_, h.apart⟩
    have hgap := h.gap
    refine h.free_apart hr (Nat.le_refl _) ?_
    simp only [Region.limit]
    omega

theorem Layout.takeBack (h : Layout s items) (hn : n ≤ s.limit - s.ptr) :
    Layout { s with limit := s.limit - n } (⟨s.limit - n, n⟩ :: items) where
  bounds := h.bounds
  blocks := h.blocks
  front := h.front
  gap := by
    have hgap := h.gap
    simp only
    omega
  back := Nat.le_trans (Nat.sub_le _ _) h.back
  aligned := h.aligned
  placed r hr := by
    have hgap := h.gap
    have hback := h.back
    rcases List.mem_cons.mp hr with rfl | hr
    · refine Or.inr (Or.inl ⟨Nat.le_refl _, ?_⟩)
      simp only [Region.limit]
      omega
    · exact (h.placed r hr).imp_right fun hrest =>
        hrest.imp_left fun hback => ⟨Nat.le_trans (Nat.sub_le _ _) hback.1, hback.2⟩
  apart := by
    have hgap := h.gap
    refine List.pairwise_cons.mpr ⟨fun r hr => ?_, h.apart⟩
    refine h.free_apart hr ?_ ?_
    · simp only
      omega
    · simp only [Region.limit]
      omega

end Protoc.Arena
