import Mathlib.Data.List.Perm.Subperm
import Protoc.Lib.Run
import Protoc.Arena.SerialArenaCleanup

/-!
# Runs of an arena

Calls on one arena, with what they handed out and the cleanups they registered.
-/

namespace Protoc.Arena

open Protoc.Lib
open Protoc.Lib.Region (Apart Within)

/-! ## The machine -/

/-- An arena, the nodes in its memory, the regions that were returned, and the cleanups that were
registered with the addresses of their nodes, the latest first. -/
structure State where
  arena : SerialArena
  memory : NodeMemory
  regions : List Region
  cleanups : List (ℕ × CleanupNode)

/-- The calls; the caller of `AllocateAlignedWithCleanup` writes the node. -/
inductive Call
  | allocateAligned (n : ℕ)
  | allocateAlignedWithCleanup (n : ℕ) (node : CleanupNode)
  | addCleanup (node : CleanupNode)

/-- An arena in memory of the caller or in a block that was just allocated. -/
def State.new (mem size : ℕ) : State := ⟨SerialArena.new mem size, fun _ => none, [], []⟩

def State.returned (s : State) (n : ℕ) (r : ℕ × SerialArena) : State :=
  { s with arena := r.2, regions := ⟨r.1, n⟩ :: s.regions }

/-- A region and a node were returned, and the caller wrote the node. -/
def State.returnedWithCleanup (s : State) (n : ℕ) (node : CleanupNode) (r : (ℕ × ℕ) × SerialArena) : State :=
  { arena := r.2
    memory := s.memory.write r.1.2 node
    regions := ⟨r.1.1, n⟩ :: s.regions
    cleanups := (r.1.2, node) :: s.cleanups }

def State.added (s : State) (node : CleanupNode) (r : ℕ × NodeMemory × SerialArena) : State :=
  { s with arena := r.2.2, memory := r.2.1, cleanups := (r.1, node) :: s.cleanups }

/-- A call, with the address of the block that it may need. -/
def step (policy : Option AllocationPolicy) (s : State) : Call × ℕ → Option State
  | (.allocateAligned n, mem) => (allocateAligned policy mem n s.arena).map (s.returned n)
  | (.allocateAlignedWithCleanup n node, mem) =>
    (allocateAlignedWithCleanup policy mem n s.arena).map (s.returnedWithCleanup n node)
  | (.addCleanup node, mem) => (addCleanup policy mem node s.memory s.arena).map (s.added node)

def Call.size : Call → ℕ
  | .allocateAligned n => n
  | .allocateAlignedWithCleanup n _ => n
  | .addCleanup _ => 0

def Call.request : Call → ℕ
  | .allocateAligned n => n
  | .allocateAlignedWithCleanup n _ => plus n kCleanupSize
  | .addCleanup _ => plus 0 kCleanupSize

def Call.registers : Call → Bool
  | .allocateAligned _ => false
  | .allocateAlignedWithCleanup _ _ => true
  | .addCleanup _ => true

/-- A size that is a multiple of 8, and a block as the allocator promises it. -/
structure Allowed (policy : Option AllocationPolicy) (s : State) (a : Call × ℕ) : Prop where
  aligned : a.1.size % 8 = 0
  fresh : ∀ size ∈ blockFor policy a.1.request s.arena, Fresh s.arena a.2 size

/-- The size of the block that a call takes its memory from is a multiple of 8, or it is the block
that the arena began with. -/
def WholeBlock (policy : Option AllocationPolicy) (s : State) (a : Call × ℕ) : Prop :=
  if s.arena.hasSpace a.1.request then s.arena.next = [] ∨ s.arena.head.size % 8 = 0
  else ∀ size ∈ allocateMemory policy s.arena.head.size a.1.request, size % 8 = 0

/-- A cleanup is registered in a block whose size does not make `CleanupList` miss its end, and
with an object that leaves the request a `size_t`. -/
def WholeNodes (policy : Option AllocationPolicy) (s : State) (a : Call × ℕ) : Prop :=
  a.1.registers = true → a.1.size + kCleanupSize < sizeMod ∧ WholeBlock policy s a

instance (s : SerialArena) (mem size : ℕ) : Decidable (Fresh s mem size) :=
  decidable_of_iff (mem % 8 = 0 ∧ mem + size < sizeMod ∧ ∀ b ∈ s.blocks, Apart ⟨mem, size⟩ b.region)
    ⟨fun h => ⟨h.1, h.2.1, h.2.2⟩, fun h => ⟨h.aligned, h.space, h.apart⟩⟩

instance (policy : Option AllocationPolicy) (s : State) (a : Call × ℕ) : Decidable (Allowed policy s a) :=
  decidable_of_iff
    (a.1.size % 8 = 0 ∧ ∀ size ∈ blockFor policy a.1.request s.arena, Fresh s.arena a.2 size)
    ⟨fun h => ⟨h.1, h.2⟩, fun h => ⟨h.aligned, h.fresh⟩⟩

instance (policy : Option AllocationPolicy) (s : State) (a : Call × ℕ) : Decidable (WholeBlock policy s a) :=
  inferInstanceAs (Decidable (ite _ _ _))

instance (policy : Option AllocationPolicy) (s : State) (a : Call × ℕ) : Decidable (WholeNodes policy s a) :=
  inferInstanceAs (Decidable (_ → _))

/-! ## The invariant -/

def State.nodeRegions (s : State) : List Region := s.cleanups.map fun c => ⟨c.1, kCleanupSize⟩

/-- The cleanups that were registered, the latest first. -/
def State.registered (s : State) : List CleanupNode := s.cleanups.map Prod.snd

/-- What was handed out is laid out, and the cleanups can be found. -/
structure Invariant (s : State) : Prop where
  layout : Layout s.arena (s.regions ++ s.nodeRegions)
  aligned : ∀ r ∈ s.regions, r.base % 8 = 0
  cleanups : Cleanups s.memory s.arena s.registered

theorem Layout.subperm {arena : SerialArena} {items items' : List Region} (h : Layout arena items)
    (hperm : items'.Subperm items) : Layout arena items' where
  bounds := h.bounds
  blocks := h.blocks
  front := h.front
  gap := h.gap
  back := h.back
  aligned := h.aligned
  placed r hr := h.placed r (hperm.subset hr)
  apart := by
    obtain ⟨sub, hsub, hsublist⟩ := hperm
    exact (hsub.pairwise_iff fun h => h.symm).mp (h.apart.sublist hsublist)

theorem invariant_new {mem size : ℕ} (haligned : mem % 8 = 0)
    (hsize : kBlockHeaderSize + kSerialArenaSize ≤ size) (hspace : mem + size < sizeMod) :
    Invariant (State.new mem size) where
  layout := layout_new haligned hsize hspace
  aligned _ h := absurd h List.not_mem_nil
  cleanups := cleanups_new hsize

variable {policy : Option AllocationPolicy} {mem mem' n : ℕ} {s s' : State} {node : CleanupNode}
  {arena : SerialArena}

theorem whole_of_reserve {c : Call} (h : WholeBlock policy s (c, mem))
    (hs' : reserve policy mem c.request s.arena = some arena) : arena.next = [] ∨ arena.head.size % 8 = 0 := by
  simp only [WholeBlock] at h
  rw [reserve] at hs'
  split_ifs at h hs' with hspace
  · cases hs'
    exact h
  · obtain ⟨t, ht, hs'⟩ := Option.bind_eq_some_iff.mp hs'
    split_ifs at hs'
    cases hs'
    obtain ⟨size, hsize, rfl⟩ := Option.map_eq_some_iff.mp ht
    exact Or.inr (h size hsize)

theorem Layout.lt_sizeMod {items : List Region} (h : Layout arena items) : arena.limit < sizeMod :=
  Nat.lt_of_le_of_lt h.back (h.bounds arena.head List.mem_cons_self).2

theorem invariant_allocateAligned (h : Invariant s) (hallowed : Allowed policy s (.allocateAligned n, mem))
    (hs' : step policy s (.allocateAligned n, mem) = some s') : Invariant s' := by
  rw [step, allocateAligned, Option.map_map, Option.map_eq_some_iff] at hs'
  obtain ⟨t, ht, rfl⟩ := hs'
  have hroom := h.layout.reserve hallowed.fresh ht
  have hlayout := hroom.1
  have hn : n ≤ t.limit - t.ptr := hroom.2
  have hgap := hlayout.gap
  have hlimit := hlayout.lt_sizeMod
  have hptr : plus t.ptr n = t.ptr + n := plus_of_lt (by omega)
  have hcleanups := h.cleanups.reserve ht
  exact
    { layout := by
        simp only [Function.comp_apply, State.returned, hptr]
        exact hlayout.takeFront hn hallowed.aligned
      aligned := List.forall_mem_cons.mpr ⟨hlayout.aligned, h.aligned⟩
      cleanups := hcleanups }

theorem register_spec {t : SerialArena} (h : Invariant s) (hlayout : Layout t (s.regions ++ s.nodeRegions))
    (hcleanups : Cleanups s.memory t s.registered) (hroom : n + kCleanupSize ≤ t.limit - t.ptr)
    (hn : n % 8 = 0) (hwhole : t.next = [] ∨ t.head.size % 8 = 0) :
    Invariant (s.returnedWithCleanup n node ((t.ptr, minus t.limit kCleanupSize),
      { t with ptr := plus t.ptr n, limit := minus t.limit kCleanupSize })) := by
  have hgap := hlayout.gap
  have hlimit := hlayout.lt_sizeMod
  have hptr : plus t.ptr n = t.ptr + n := plus_of_lt (by omega)
  have hback : minus t.limit kCleanupSize = t.limit - kCleanupSize := minus_of_le (by omega) hlimit
  have hfront := hlayout.takeFront (n := n) (by omega) hn
  have hrest : kCleanupSize ≤ t.limit - (t.ptr + n) := by omega
  have hboth := hfront.takeBack hrest
  have hkeep : Cleanups s.memory { t with ptr := t.ptr + n } s.registered := hcleanups
  have hperm : (⟨t.ptr, n⟩ :: s.regions ++ ⟨t.limit - kCleanupSize, kCleanupSize⟩ :: s.nodeRegions).Perm
      (⟨t.limit - kCleanupSize, kCleanupSize⟩ :: ⟨t.ptr, n⟩ :: (s.regions ++ s.nodeRegions)) :=
    List.perm_middle
  rw [hptr, hback]
  exact
    { layout := hboth.subperm hperm.subperm
      aligned := List.forall_mem_cons.mpr ⟨hlayout.aligned, h.aligned⟩
      cleanups := hkeep.takeBack hfront hrest hwhole }

theorem invariant_allocateAlignedWithCleanup (h : Invariant s)
    (hallowed : Allowed policy s (.allocateAlignedWithCleanup n node, mem))
    (hwhole : WholeNodes policy s (.allocateAlignedWithCleanup n node, mem))
    (hs' : step policy s (.allocateAlignedWithCleanup n node, mem) = some s') : Invariant s' := by
  rw [step, allocateAlignedWithCleanup, Option.map_map, Option.map_eq_some_iff] at hs'
  obtain ⟨t, ht, rfl⟩ := hs'
  obtain ⟨hsize, hblock⟩ := hwhole rfl
  have hroom := h.layout.reserve hallowed.fresh ht
  have hn : n + kCleanupSize ≤ t.limit - t.ptr := plus_of_lt hsize ▸ hroom.2
  exact register_spec h hroom.1 (h.cleanups.reserve ht) hn hallowed.aligned (whole_of_reserve hblock ht)

theorem Invariant.dropRegion (h : Invariant (s.returnedWithCleanup n node ((mem, mem'), arena))) :
    Invariant (s.added node (mem', s.memory.write mem' node, arena)) where
  layout := h.layout.subperm (List.sublist_cons_self _ _).subperm
  aligned := (List.forall_mem_cons.mp h.aligned).2
  cleanups := h.cleanups

theorem invariant_addCleanup (h : Invariant s) (hallowed : Allowed policy s (.addCleanup node, mem))
    (hwhole : WholeNodes policy s (.addCleanup node, mem))
    (hs' : step policy s (.addCleanup node, mem) = some s') : Invariant s' := by
  rw [step, addCleanup, allocateAlignedWithCleanup, Option.map_map, Option.map_map,
    Option.map_eq_some_iff] at hs'
  obtain ⟨t, ht, rfl⟩ := hs'
  obtain ⟨hsize, hblock⟩ := hwhole rfl
  have hroom := h.layout.reserve hallowed.fresh ht
  have hn : 0 + kCleanupSize ≤ t.limit - t.ptr := plus_of_lt hsize ▸ hroom.2
  exact (register_spec h hroom.1 (h.cleanups.reserve ht) hn hallowed.aligned
    (whole_of_reserve hblock ht)).dropRegion

/-- **One call** keeps the invariant. -/
theorem invariant_step (policy : Option AllocationPolicy) (s : State) (a : Call × ℕ) (s' : State)
    (h : Invariant s) (hok : Allowed policy s a ∧ WholeNodes policy s a)
    (hs' : step policy s a = some s') : Invariant s' := by
  obtain ⟨hallowed, hwhole⟩ := hok
  obtain ⟨c, mem⟩ := a
  cases c with
  | allocateAligned n => exact invariant_allocateAligned h hallowed hs'
  | allocateAlignedWithCleanup n node =>
    exact invariant_allocateAlignedWithCleanup h hallowed hwhole hs'
  | addCleanup node => exact invariant_addCleanup h hallowed hwhole hs'

/-! ## Runs -/

/-- The regions are aligned, each is inside one block after its header, they are apart from each
other and from the nodes, and exactly the cleanups that were registered are run, each once. -/
structure Sound (nodeDistance : ℤ → ℤ) (s : State) : Prop where
  aligned : ∀ r ∈ s.regions, r.base % 8 = 0
  inside : ∀ r ∈ s.regions, ∃ b ∈ s.arena.blocks, Within r b.data
  apart : (s.regions ++ s.nodeRegions).Pairwise Apart
  cleanups : cleanupList nodeDistance s.memory s.arena = some s.registered

theorem Invariant.sound {nodeDistance : ℤ → ℤ} (h : Invariant s) (hdistance : WholeDistance nodeDistance) :
    Sound nodeDistance s where
  aligned := h.aligned
  inside _ hr := h.layout.inside (List.mem_append_left _ hr)
  apart := h.layout.apart
  cleanups := h.cleanups.cleanupList hdistance

/-- **Every run** in which `CleanupList` finds the nodes keeps the memory and the cleanups sound. -/
theorem sound_of_runs {nodeDistance : ℤ → ℤ} (hdistance : WholeDistance nodeDistance) {size : ℕ}
    (haligned : mem % 8 = 0) (hsize : kBlockHeaderSize + kSerialArenaSize ≤ size)
    (hspace : mem + size < sizeMod) {calls : List (Call × ℕ)}
    (run : Runs (step policy) (fun s a => Allowed policy s a ∧ WholeNodes policy s a)
      (State.new mem size) calls s') : Sound nodeDistance s' :=
  (run.invariant (invariant_step policy) (invariant_new haligned hsize hspace)).sound hdistance

/-- The difference of node pointers that a machine computes. -/
def machineDistance (bytes : ℤ) : ℤ := bytes.tdiv 16

theorem wholeDistance_machineDistance : WholeDistance machineDistance := by
  intro k
  rw [machineDistance, Int.natCast_mul]
  exact Int.mul_tdiv_cancel_left _ (by decide)

/-- The blocks of an arena that begins with 104 bytes have whole sizes. -/
theorem sound_of_runs_whole :
    ∃ s', execOk (step none) (fun s a => Allowed none s a ∧ WholeNodes none s a) (State.new 4096 104)
        [(.addCleanup ⟨1, 2⟩, 0), (.allocateAlignedWithCleanup 24 ⟨3, 4⟩, 8192), (.allocateAligned 64, 0)] =
          some s' ∧ Sound machineDistance s' := by
  obtain ⟨s', hs'⟩ : ∃ s', execOk (step none) (fun s a => Allowed none s a ∧ WholeNodes none s a)
      (State.new 4096 104)
      [(.addCleanup ⟨1, 2⟩, 0), (.allocateAlignedWithCleanup 24 ⟨3, 4⟩, 8192), (.allocateAligned 64, 0)] =
        some s' := Option.isSome_iff_exists.mp (by decide)
  exact ⟨s', hs', sound_of_runs wholeDistance_machineDistance (by decide) (by decide) (by decide)
    (runs_of_execOk hs')⟩

/-- After an initial block of 82 bytes the next one has 164, and the node at its end is 12 bytes
from where `CleanupList` looks for the end. -/
theorem cleanupList_misses_node : WholeDistance machineDistance ∧
    ∃ s', Runs (step none) (Allowed none) (State.new 4096 82) [(.addCleanup ⟨1, 2⟩, 8192)] s' ∧
      s'.registered = [⟨1, 2⟩] ∧ cleanupList machineDistance s'.memory s'.arena = some [] ∧
      ¬ Sound machineDistance s' := by
  refine ⟨wholeDistance_machineDistance, ?_⟩
  have hstep : (step none (State.new 4096 82) (.addCleanup ⟨1, 2⟩, 8192)).isSome := by decide
  obtain ⟨s', hs'⟩ := Option.isSome_iff_exists.mp hstep
  have hlists : ∀ s' ∈ step none (State.new 4096 82) (.addCleanup ⟨1, 2⟩, 8192),
      s'.registered = [⟨1, 2⟩] ∧ cleanupList machineDistance s'.memory s'.arena = some [] := by decide
  obtain ⟨hregistered, hcleanups⟩ := hlists s' hs'
  refine ⟨s', .single (by decide) hs', hregistered, hcleanups, fun hsound => ?_⟩
  have hrun := hsound.cleanups
  rw [hcleanups, hregistered] at hrun
  exact absurd hrun (by decide)

end Protoc.Arena
