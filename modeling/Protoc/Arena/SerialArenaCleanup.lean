import Protoc.Arena.SerialArena

/-!
# The cleanups of an arena

Every block keeps its nodes from where its list starts to where `CleanupList` looks for the end.
-/

namespace Protoc.Arena

open Protoc.Lib
open Protoc.Lib.Region (Apart Within)

variable {policy : Option AllocationPolicy} {mem n size : ℕ} {s s' : SerialArena}
  {memory : NodeMemory} {b : Block} {start limit addr : ℕ} {ns : List CleanupNode} {node : CleanupNode}
  {nodeDistance : ℤ → ℤ}

/-! ## Nodes in a row -/

def NodesAt (memory : NodeMemory) : ℕ → List CleanupNode → Prop
  | _, [] => True
  | start, node :: ns => memory start = some node ∧ NodesAt memory (start + kCleanupSize) ns

theorem runNodes_of_nodesAt (h : NodesAt memory start ns) (hlimit : start + kCleanupSize * ns.length = limit)
    {rounds : ℕ} (hrounds : ns.length ≤ rounds) : runNodes memory limit rounds start = some ns := by
  induction ns generalizing start rounds with
  | nil =>
    have hstart : ¬ start < limit := by
      rw [← hlimit]
      exact Nat.lt_irrefl _
    cases rounds with
    | zero => rfl
    | succ rounds => rw [runNodes, if_neg hstart]
  | cons node ns ih =>
    obtain ⟨rounds, rfl⟩ := Nat.exists_eq_succ_of_ne_zero (Nat.ne_zero_of_lt hrounds)
    simp only [List.length_cons, kCleanupSize] at hlimit hrounds
    have hrest : start + kCleanupSize + kCleanupSize * ns.length = limit := by
      simp only [kCleanupSize]
      omega
    rw [runNodes, if_pos (by omega), h.1, Option.bind_eq_bind, Option.bind_some,
      ih h.2 hrest (by omega)]
    rfl

theorem NodesAt.write (h : NodesAt memory start ns)
    (haddr : addr < start ∨ start + kCleanupSize * ns.length ≤ addr) :
    NodesAt (memory.write addr node) start ns := by
  induction ns generalizing start with
  | nil => trivial
  | cons first ns ih =>
    simp only [List.length_cons, kCleanupSize] at haddr
    refine ⟨?_, ih h.2 ?_⟩
    · rw [NodeMemory.write, if_neg (by omega)]
      exact h.1
    · simp only [kCleanupSize]
      omega

/-! ## The nodes of a block -/

/-- The nodes of a block from `start` to `limit`.  If there are any, the limit is the one that
`CleanupList` computes from the size. -/
structure Keeps (memory : NodeMemory) (b : Block) (start limit : ℕ) (ns : List CleanupNode) : Prop where
  nodes : NodesAt memory start ns
  length : start + kCleanupSize * ns.length = limit
  whole : ns ≠ [] → limit = b.pointer (roundDown8 b.size)
  past : b.pointer (roundDown8 b.size) ≤ limit
  lower : b.addr + kBlockHeaderSize ≤ start
  upper : limit ≤ b.addr + b.size

/-- The difference of node pointers that are whole nodes apart. -/
def WholeDistance (nodeDistance : ℤ → ℤ) : Prop := ∀ k : ℕ, nodeDistance (kCleanupSize * k : ℕ) = k

theorem Keeps.cleanupBlock (hdistance : WholeDistance nodeDistance) (h : Keeps memory b b.start limit ns) :
    cleanupBlock nodeDistance memory b = some ns := by
  have hlength := h.length
  have hpast := h.past
  rw [Arena.cleanupBlock]
  cases ns with
  | nil =>
    -- the list is empty, and starts at its limit or after it
    have hnone : ∀ rounds, runNodes memory (b.pointer (roundDown8 b.size)) rounds b.start = some [] := by
      intro rounds
      rw [List.length_nil, Nat.mul_zero, Nat.add_zero] at hlength
      cases rounds with
      | zero => rfl
      | succ rounds => rw [runNodes, if_neg (by omega)]
    simp only [hnone, ite_self]
  | cons node ns =>
    obtain rfl := h.whole (List.cons_ne_nil _ _)
    have hnum : ((b.pointer (roundDown8 b.size) : ℕ) : ℤ) - (b.start : ℕ) =
        ((kCleanupSize * (node :: ns).length : ℕ) : ℤ) := by
      omega
    have hpos : (0 : ℤ) < ((node :: ns).length : ℕ) := by
      rw [List.length_cons]
      omega
    simp only [hnum, hdistance (node :: ns).length]
    rw [if_pos hpos]
    refine runNodes_of_nodesAt h.nodes hlength ?_
    simp only [kCleanupSize] at hlength
    omega

theorem Keeps.write (h : Keeps memory b start limit ns) (haddr : addr < b.addr ∨ b.addr + b.size ≤ addr) :
    Keeps (memory.write addr node) b start limit ns where
  nodes := by
    have hlower := h.lower
    have hupper := h.upper
    have hlength := h.length
    exact h.nodes.write (by omega)
  length := h.length
  whole := h.whole
  past := h.past
  lower := h.lower
  upper := h.upper

theorem Keeps.cons (h : Keeps memory b start limit ns) (hstart : start = addr + kCleanupSize)
    (hwhole : limit = b.pointer (roundDown8 b.size)) (hlower : b.addr + kBlockHeaderSize ≤ addr) :
    Keeps (memory.write addr node) b addr limit (node :: ns) where
  nodes := by
    refine ⟨if_pos rfl, ?_⟩
    rw [← hstart]
    refine h.nodes.write (Or.inl ?_)
    rw [hstart]
    exact Nat.lt_add_of_pos_right (by decide)
  length := by
    have hlength := h.length
    simp only [List.length_cons, kCleanupSize] at hlength hstart ⊢
    omega
  whole _ := hwhole
  past := h.past
  lower := hlower
  upper := h.upper

/-! ## The nodes of an arena -/

/-- The nodes of retired blocks. -/
inductive BlocksKeep (memory : NodeMemory) : List Block → List CleanupNode → Prop
  | nil : BlocksKeep memory [] []
  | cons {b : Block} {bs : List Block} {limit : ℕ} {ns ms : List CleanupNode}
      (first : Keeps memory b b.start limit ns) (rest : BlocksKeep memory bs ms) :
      BlocksKeep memory (b :: bs) (ns ++ ms)

theorem BlocksKeep.cleanupBlocks (hdistance : WholeDistance nodeDistance) {bs : List Block}
    (h : BlocksKeep memory bs ns) : cleanupBlocks nodeDistance memory bs = some ns := by
  induction h with
  | nil => rfl
  | cons first rest ih =>
    rw [Arena.cleanupBlocks, first.cleanupBlock hdistance, Option.bind_eq_bind, Option.bind_some, ih]
    rfl

theorem BlocksKeep.write {bs : List Block} (h : BlocksKeep memory bs ns)
    (haddr : ∀ b ∈ bs, addr < b.addr ∨ b.addr + b.size ≤ addr) : BlocksKeep (memory.write addr node) bs ns := by
  induction h with
  | nil => exact .nil
  | cons first rest ih =>
    obtain ⟨hfirst, hrest⟩ := List.forall_mem_cons.mp haddr
    exact .cons (first.write hfirst) (ih hrest)

/-- Where the nodes of the current block end: in the first block the size is rounded, in a later
one it is not. -/
def nodesEnd (s : SerialArena) : ℕ :=
  if s.next = [] then s.head.pointer (roundDown8 s.head.size) else s.head.pointer s.head.size

def Cleanups (memory : NodeMemory) (s : SerialArena) (ns : List CleanupNode) : Prop :=
  ∃ first rest, ns = first ++ rest ∧ Keeps memory s.head s.limit (nodesEnd s) first ∧
    BlocksKeep memory s.next rest

theorem nodesEnd_bounds (s : SerialArena) :
    s.head.pointer (roundDown8 s.head.size) ≤ nodesEnd s ∧ nodesEnd s ≤ s.head.addr + s.head.size := by
  have hround := roundDown8_le s.head.size
  rw [nodesEnd]
  split_ifs <;> simp only [Block.pointer] <;> omega

theorem Cleanups.cleanupList (hdistance : WholeDistance nodeDistance) (h : Cleanups memory s ns) :
    cleanupList nodeDistance memory s = some ns := by
  obtain ⟨first, rest, rfl, hfirst, hrest⟩ := h
  have hhead : Keeps memory { s.head with start := s.limit } s.limit (nodesEnd s) first :=
    ⟨hfirst.nodes, hfirst.length, hfirst.whole, hfirst.past, hfirst.lower, hfirst.upper⟩
  have hblocks : BlocksKeep memory ({ s.head with start := s.limit } :: s.next) (first ++ rest) :=
    .cons hhead hrest
  exact hblocks.cleanupBlocks hdistance

theorem cleanups_new (hsize : kBlockHeaderSize + kSerialArenaSize ≤ size) :
    Cleanups memory (SerialArena.new mem size) [] := by
  refine ⟨[], [], rfl, ⟨trivial, rfl, fun h => absurd rfl h, Nat.le_refl _, ?_, ?_⟩, .nil⟩
  · simp only [SerialArena.new, Block.pointer, roundDown8, kBlockHeaderSize, kSerialArenaSize] at hsize ⊢
    omega
  · exact (nodesEnd_bounds (SerialArena.new mem size)).2

theorem Cleanups.allocateNewBlock (h : Cleanups memory s ns)
    (hs' : allocateNewBlock policy mem n s = some s') : Cleanups memory s' ns := by
  obtain ⟨first, rest, rfl, hfirst, hrest⟩ := h
  obtain ⟨size, hsize, rfl⟩ := Option.map_eq_some_iff.mp hs'
  have hle := allocateMemory_le hsize
  have hretired : Keeps memory { s.head with start := s.limit } s.limit (nodesEnd s) first :=
    ⟨hfirst.nodes, hfirst.length, hfirst.whole, hfirst.past, hfirst.lower, hfirst.upper⟩
  refine ⟨[], first ++ rest, rfl, ?_, .cons hretired hrest⟩
  exact
    { nodes := trivial
      length := rfl
      whole := fun h => absurd rfl h
      past := Nat.add_le_add_left (roundDown8_le size) mem
      lower := by
        simp only [Block.pointer]
        omega
      upper := Nat.le_refl _ }

theorem Cleanups.reserve (h : Cleanups memory s ns) (hs' : reserve policy mem n s = some s') :
    Cleanups memory s' ns := by
  rw [Arena.reserve] at hs'
  split_ifs at hs'
  · cases hs'
    exact h
  · obtain ⟨t, ht, hs'⟩ := Option.bind_eq_some_iff.mp hs'
    split_ifs at hs'
    cases hs'
    exact h.allocateNewBlock ht

theorem Cleanups.takeBack {items : List Region} (h : Cleanups memory s ns) (hlayout : Layout s items)
    (hn : kCleanupSize ≤ s.limit - s.ptr) (hwhole : s.next = [] ∨ s.head.size % 8 = 0) :
    Cleanups (memory.write (s.limit - kCleanupSize) node) { s with limit := s.limit - kCleanupSize }
      (node :: ns) := by
  obtain ⟨first, rest, rfl, hfirst, hrest⟩ := h
  have hgap := hlayout.gap
  have hfront := hlayout.front
  have hback := hlayout.back
  have hend : nodesEnd s = s.head.pointer (roundDown8 s.head.size) := by
    rw [nodesEnd]
    split_ifs with hnext
    · rfl
    · have hsize := hwhole.resolve_left hnext
      simp only [roundDown8]
      congr 1
      omega
  refine ⟨node :: first, rest, rfl, hfirst.cons ?_ hend ?_, hrest.write ?_⟩
  · omega
  · omega
  · intro b hb
    have hapart : Apart s.head.region b.region := (List.pairwise_cons.mp hlayout.blocks).1 b hb
    simp only [Apart, Block.region, Region.limit] at hapart
    simp only [kCleanupSize, kBlockHeaderSize] at hn hfront ⊢
    omega

end Protoc.Arena
