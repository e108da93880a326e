import Protoc.Repeated.RepeatedPtrFieldMerge
import Protoc.Repeated.RepeatedPtrFieldRemoval

/-!
# Runs of repeated fields

Several fields with one heap, under any sequence of calls.  The fields own every object once and
show what lists would, as long as `InternalExtend` stays within the `int`s: it doubles the size
of an array without the clamp that `CalculateReserveSize` has.
-/

namespace Protoc.Repeated

open Protoc.Lib RepeatedPtrFieldBase
open Function (update)

/-- The fields and the heap. -/
structure World (ι Element : Type) where
  heap : Heap Element
  fields : ι → RepeatedPtrFieldBase

def World.init {ι Element : Type} : World ι Element := ⟨.empty, fun _ => .init⟩

/-- The calls; the first two are what the owners of objects outside the fields do. -/
inductive Op (ι Element : Type) where
  | newElement (x : Element)
  | assign (p : ℕ) (x : Element)
  | add (f : ι) (prototype : Option Element)
  | addValue (f : ι) (x : Element)
  | setElement (f : ι) (index : ℕ) (x : Element)
  | addAllocated (f : ι) (p : ℕ)
  | unsafeArenaAddAllocated (f : ι) (p : ℕ)
  | addCleared (f : ι) (p : ℕ)
  | releaseCleared (f : ι)
  | addFromCleared (f : ι)
  | removeLast (f : ι)
  | releaseLast (f : ι)
  | clear (f : ι)
  | mergeFrom (f other : ι)
  | reserve (f : ι) (newSize : ℤ)
  | swapElements (f : ι) (index1 index2 : ℕ)
  | deleteSubrange (f : ι) (start num : ℕ)
  | extractSubrange (f : ι) (start num : ℕ)
  | internalSwap (f other : ι)
  /-- The field is destroyed and another one constructed. -/
  | destroy (f : ι)

variable {ι Element : Type} [DecidableEq ι] [TypeHandler Element]

namespace World

def set (w : World ι Element) (f : ι) (hs : Heap Element × RepeatedPtrFieldBase) : World ι Element :=
  ⟨hs.1, update w.fields f hs.2⟩

end World

/-- A call, with the pointers it returns.  Where ownership changes hands the heap records it. -/
def step (w : World ι Element) : Op ι Element → Option (World ι Element × List ℕ)
  | .newElement x => some (⟨w.heap.alloc x, w.fields⟩, [w.heap.next])
  | .assign p x => (w.heap.modify p fun _ => x).map fun h => (⟨h, w.fields⟩, [])
  | .add f prototype =>
    ((w.fields f).add w.heap prototype).map fun r => (w.set f (r.2.1, r.2.2), [r.1])
  | .addValue f x => ((w.fields f).addValue w.heap x).map fun r => (w.set f r, [])
  | .setElement f index x =>
    ((w.fields f).setElement w.heap index x).map fun h => (⟨h, w.fields⟩, [])
  | .addAllocated f p =>
    ((w.fields f).addAllocated (w.heap.log (.given p)) p).map fun r => (w.set f r, [])
  | .unsafeArenaAddAllocated f p =>
    ((w.fields f).unsafeArenaAddAllocated (w.heap.log (.given p)) p).map fun r => (w.set f r, [])
  | .addCleared f p =>
    ((w.fields f).addCleared p).map fun s => (w.set f (w.heap.log (.given p), s), [])
  | .releaseCleared f => (w.fields f).releaseCleared.map fun r =>
      (w.set f (w.heap.log (.released r.1), r.2), [r.1])
  | .addFromCleared f =>
    (w.fields f).addFromCleared.map fun r => (w.set f (w.heap, r.2), r.1.toList)
  | .removeLast f => ((w.fields f).removeLast w.heap).map fun r => (w.set f r, [])
  | .releaseLast f =>
    (w.fields f).releaseLast.map fun r => (w.set f (w.heap.log (.released r.1), r.2), [r.1])
  | .clear f => ((w.fields f).clear w.heap).map fun r => (w.set f r, [])
  | .mergeFrom f other =>
    ((w.fields f).mergeFrom w.heap (w.fields other)).map fun r => (w.set f r, [])
  | .reserve f newSize => ((w.fields f).reserve newSize).map fun s => (w.set f (w.heap, s), [])
  | .swapElements f index1 index2 =>
    ((w.fields f).swapElements index1 index2).map fun s => (w.set f (w.heap, s), [])
  | .deleteSubrange f start num =>
    ((w.fields f).deleteSubrange w.heap start num).map fun r => (w.set f r, [])
  | .extractSubrange f start num => ((w.fields f).extractSubrange start num).map fun r =>
      (w.set f (w.heap.releaseAll r.1, r.2), r.1)
  | .internalSwap f other => some (⟨w.heap, w.fields ∘ Equiv.swap f other⟩, [])
  | .destroy f => ((w.fields f).destroy w.heap).map fun r => (w.set f (r.1, .init), [])

/-! ## What the callers promise -/

/-- The pointer is in one of the allocated slots of a field. -/
def InField (w : World ι Element) (p : ℕ) : Prop :=
  ∃ f, ∃ i < (w.fields f).allocatedSize, (w.fields f).slot i = some p

/-- The caller owns the object: it is live and no field's. -/
def Held (w : World ι Element) (p : ℕ) : Prop := (w.heap.cell p).isSome ∧ ¬ InField w p

/-- The conditions in the comments and checks of the calls. -/
def Legal (w : World ι Element) : Op ι Element → Prop
  | .assign p _ | .addAllocated _ p | .unsafeArenaAddAllocated _ p => Held w p
  | .addCleared _ p => Held w p ∧ w.heap.cell p = some (cleared Element)
  | .setElement f index _ => index < (w.fields f).currentSize
  | .releaseCleared f => (w.fields f).currentSize < (w.fields f).allocatedSize
  | .removeLast f | .releaseLast f => 0 < (w.fields f).currentSize
  | .mergeFrom f other | .internalSwap f other => f ≠ other
  | .reserve _ newSize => newSize ≤ intMax
  | .swapElements f index1 index2 =>
    index1 < (w.fields f).currentSize ∧ index2 < (w.fields f).currentSize
  | .deleteSubrange f start num | .extractSubrange f start num =>
    start + num ≤ (w.fields f).currentSize
  | _ => True

/-- The sizes a call computes are `int`s: an array that has to grow is below the size from which
doubling overflows, and so is the sum of the sizes. -/
def Fits (w : World ι Element) : Op ι Element → Prop
  | .add f _ | .addValue f _ => (w.fields f).hasCleared = false → (w.fields f).isFull = true →
      (w.fields f).totalSize < kRepeatedFieldUpperClampLimit
  | .addCleared f _ =>
    (w.fields f).isFull = true → (w.fields f).totalSize < kRepeatedFieldUpperClampLimit
  | .addAllocated f _ | .unsafeArenaAddAllocated f _ =>
    ((w.fields f).rep.isNone || (w.fields f).currentSize == (w.fields f).totalSize) = true →
      (w.fields f).totalSize < kRepeatedFieldUpperClampLimit
  | .reserve f newSize => ((w.fields f).currentSize : ℤ) < newSize →
      CanExtend (w.fields f) (newSize - (w.fields f).currentSize).toNat
  | .mergeFrom f other =>
    (w.fields other).currentSize ≠ 0 → CanExtend (w.fields f) (w.fields other).currentSize
  | _ => True

/-- Every call of a sequence is legal where it is made. -/
def AllLegal : World ι Element → List (Op ι Element) → Prop
  | _, [] => True
  | w, op :: ops => Legal w op ∧ ∀ r, step w op = some r → AllLegal r.1 ops

def AllFit : World ι Element → List (Op ι Element) → Prop
  | _, [] => True
  | w, op :: ops => Fits w op ∧ ∀ r, step w op = some r → AllFit r.1 ops

/-! ## Lists -/

/-- A call on lists.  Passing an object in appends its content; `AddFromCleared` appends if it
returns an element. -/
def plainStep (h : Heap Element) (returned : List ℕ) (l : ι → List Element) :
    Op ι Element → ι → List Element
  | .add f _ => update l f (l f ++ [cleared Element])
  | .addValue f x => update l f (l f ++ [x])
  | .setElement f index x => update l f ((l f).set index x)
  | .addAllocated f p | .unsafeArenaAddAllocated f p => update l f (l f ++ (h.cell p).toList)
  | .addFromCleared f => update l f (l f ++ returned.map fun _ => cleared Element)
  | .removeLast f | .releaseLast f => update l f (l f).dropLast
  | .clear f | .destroy f => update l f []
  | .mergeFrom f other => update l f (l f ++ l other)
  | .swapElements f i j => update l f (((l f).set i ((l f).getD j (cleared Element))).set j
      ((l f).getD i (cleared Element)))
  | .deleteSubrange f start num | .extractSubrange f start num =>
    update l f ((l f).take start ++ (l f).drop (start + num))
  | .internalSwap f other => l ∘ Equiv.swap f other
  | _ => l

/-- The contents of the objects a call returns. -/
def plainReturn (returned : List ℕ) (l : ι → List Element) : Op ι Element → List Element
  | .newElement x => [x]
  | .add _ _ | .releaseCleared _ => [cleared Element]
  | .addFromCleared _ => returned.map fun _ => cleared Element
  | .releaseLast f => (l f).getLast?.toList
  | .extractSubrange f start num => ((l f).drop start).take num
  | _ => []

/-- The fields own what is in their arrays, once, and show the lists. -/
structure Behaves (w : World ι Element) (l : ι → List Element) : Prop where
  sizes : ∀ f, (w.fields f).currentSize ≤ (w.fields f).allocatedSize ∧
    (w.fields f).allocatedSize ≤ (w.fields f).totalSize
  live : ∀ f, ∀ i < (w.fields f).allocatedSize,
    ∃ p, (w.fields f).slot i = some p ∧ (w.heap.cell p).isSome
  distinct : ∀ f g i j p, i < (w.fields f).allocatedSize → j < (w.fields g).allocatedSize →
    (w.fields f).slot i = some p → (w.fields g).slot j = some p → f = g ∧ i = j
  size_eq : ∀ f, (w.fields f).size = (l f).length
  get_eq : ∀ f, ∀ i < (w.fields f).size, (w.fields f).get w.heap i = (l f)[i]?
  clean : ∀ f i, (w.fields f).currentSize ≤ i → i < (w.fields f).allocatedSize →
    (w.fields f).get w.heap i = some (cleared Element)
  kept : ∀ p, InField w p → w.heap.acquired p = w.heap.disposed p + 1
  left : ∀ p, ¬ InField w p → w.heap.acquired p = w.heap.disposed p
  madeOnce : ∀ p, w.heap.events.count (.made p) ≤ 1
  deletedOnce : ∀ p, w.heap.events.count (.deleted p) ≤ 1

/-- The calls return, what they return has the contents it would have in lists, and the fields
show the lists before and after each call. -/
def BehavesThroughout : World ι Element → (ι → List Element) → List (Op ι Element) → Prop
  | w, l, [] => Behaves w l
  | w, l, op :: ops => Behaves w l ∧ ∃ r, step w op = some r ∧
      r.2.map r.1.heap.cell = (plainReturn r.2 l op).map some ∧
      BehavesThroughout r.1 (plainStep w.heap r.2 l op) ops

/-! ## The invariant -/

/-- Every field keeps its objects and shows its list. -/
structure Inv (w : World ι Element) (own : ι → Multiset ℕ) (l : ι → List Element) : Prop where
  owned : Owned w.heap own
  keeps : ∀ f, ∃ vis spare, Keeps w.heap own f (w.fields f) vis spare (l f)

variable {w : World ι Element} {own : ι → Multiset ℕ} {l : ι → List Element} {f g : ι}
variable {p : ℕ} {x : Element}

omit [DecidableEq ι] in
theorem Inv.init : Inv (World.init : World ι Element) (fun _ => 0) fun _ => [] where
  owned := .empty
  keeps _ := ⟨[], [], holds_init, .empty, rfl, rfl, by simp⟩

namespace Inv

omit [DecidableEq ι] in
/-- What a field owns is what is in its allocated slots. -/
theorem mem_own_iff (I : Inv w own l) :
    p ∈ own f ↔ ∃ i < (w.fields f).allocatedSize, (w.fields f).slot i = some p := by
  obtain ⟨vis, spare, K⟩ := I.keeps f
  rw [K.own_eq, Multiset.mem_coe, List.mem_iff_getElem?, K.holds.allocated]
  constructor
  · rintro ⟨i, hi⟩
    have hlt := (List.getElem?_eq_some_iff.mp hi).1
    exact ⟨i, hlt, (K.holds.reads i hlt).trans hi⟩
  · rintro ⟨i, hlt, hi⟩
    exact ⟨i, (K.holds.reads i hlt).symm.trans hi⟩

omit [DecidableEq ι] in
theorem inField_iff (I : Inv w own l) : InField w p ↔ ∃ f, p ∈ own f :=
  exists_congr fun _ => I.mem_own_iff.symm

omit [DecidableEq ι] in
/-- What the caller owns no field owns. -/
theorem free_of_held (I : Inv w own l) (hheld : Held w p) : ∀ f, p ∉ own f :=
  fun f hmem => hheld.2 (I.inField_iff.mpr ⟨f, hmem⟩)

variable {h' : Heap Element}

theorem set {s' : RepeatedPtrFieldBase} {xs : List Element} (I : Inv w own l)
    (hbecomes : Becomes w.heap own f h' s' xs) : ∃ own', Inv (w.set f (h', s')) own' (update l f xs) := by
  obtain ⟨vis, spare, K, huntouched⟩ := hbecomes
  refine ⟨update own f (Multiset.ofList (vis ++ spare)), K.owned, fun g => ?_⟩
  rcases eq_or_ne g f with rfl | hne
  · refine ⟨vis, spare, ?_⟩
    rw [Function.update_self]
    change Keeps h' _ g (update w.fields g s' g) vis spare xs
    rwa [Function.update_self]
  · obtain ⟨vis', spare', Kg⟩ := I.keeps g
    have hsame : ∀ p ∈ own g, h'.cell p = w.heap.cell p := fun p hp =>
      huntouched p (Kg.lt_next hp) fun hmem => hne (I.owned.disjoint g f p hp hmem)
    refine ⟨vis', spare', ?_⟩
    rw [Function.update_of_ne hne]
    change Keeps h' _ g (update w.fields f s' g) vis' spare' (l g)
    rw [Function.update_of_ne hne]
    exact
      { holds := Kg.holds
        owned := K.owned
        own_eq := by
          rw [Function.update_of_ne hne]
          exact Kg.own_eq
        content := Keeps.content_congr Kg.content fun p hp => hsame p (Kg.mem_own.mpr (Or.inl hp))
        clean := fun p hp => (hsame p (Kg.mem_own.mpr (Or.inr hp))).trans (Kg.clean p hp) }

omit [DecidableEq ι] in
/-- Objects outside the fields may change. -/
theorem heap (I : Inv w own l) (howned : Owned h' own)
    (hsame : ∀ f, ∀ p ∈ own f, h'.cell p = w.heap.cell p) : Inv ⟨h', w.fields⟩ own l where
  owned := howned
  keeps f := by
    obtain ⟨vis, spare, K⟩ := I.keeps f
    exact ⟨vis, spare, {
        holds := K.holds
        owned := howned
        own_eq := K.own_eq
        content := Keeps.content_congr K.content fun p hp => hsame f p (K.mem_own.mpr (Or.inl hp))
        clean := fun p hp => (hsame f p (K.mem_own.mpr (Or.inr hp))).trans (K.clean p hp) }⟩

theorem swap (I : Inv w own l) (f g : ι) :
    Inv ⟨w.heap, w.fields ∘ Equiv.swap f g⟩ (own ∘ Equiv.swap f g) (l ∘ Equiv.swap f g) where
  owned := I.owned.permute _
  keeps j := by
    obtain ⟨vis, spare, K⟩ := I.keeps (Equiv.swap f g j)
    exact ⟨vis, spare, K.holds, I.owned.permute _, K.own_eq, K.content, K.clean⟩

omit [DecidableEq ι] in
/-- The invariant gives what the fields show. -/
theorem behaves (I : Inv w own l) : Behaves w l where
  sizes f := by
    obtain ⟨vis, spare, K⟩ := I.keeps f
    exact ⟨K.holds.current_le, K.holds.allocated_le⟩
  live f i hi := by
    obtain ⟨vis, spare, K⟩ := I.keeps f
    rw [K.holds.allocated] at hi
    have hslot := K.holds.reads i hi
    rw [List.getElem?_eq_getElem hi] at hslot
    exact ⟨_, hslot, I.owned.live f _ (I.mem_own_iff.mpr ⟨i, K.holds.allocated ▸ hi, hslot⟩)⟩
  distinct f g i j p hi hj hslot hslot' := by
    obtain rfl : f = g := I.owned.disjoint f g p (I.mem_own_iff.mpr ⟨i, hi, hslot⟩)
      (I.mem_own_iff.mpr ⟨j, hj, hslot'⟩)
    obtain ⟨vis, spare, K⟩ := I.keeps f
    rw [K.holds.allocated] at hi hj
    rw [K.holds.reads i hi] at hslot
    rw [K.holds.reads j hj] at hslot'
    exact ⟨rfl, (List.getElem?_inj hi K.nodup).mp (hslot.trans hslot'.symm)⟩
  size_eq f := by
    obtain ⟨vis, spare, K⟩ := I.keeps f
    exact K.holds.current.trans K.length_eq
  get_eq f i hi := by
    obtain ⟨vis, spare, K⟩ := I.keeps f
    have hi' : i < (l f).length := by
      rw [← K.length_eq, ← K.holds.current]
      exact hi
    rw [K.get_eq hi', List.getElem?_eq_getElem hi']
  clean f i hle hi := by
    obtain ⟨vis, spare, K⟩ := I.keeps f
    rw [K.holds.current] at hle
    rw [K.holds.allocated] at hi
    obtain ⟨j, rfl⟩ := Nat.exists_eq_add_of_le hle
    have hj : j < spare.length := by
      rw [List.length_append] at hi
      omega
    rw [RepeatedPtrFieldBase.get, K.holds.reads.after hj, List.getElem?_eq_getElem hj]
    exact K.clean _ (List.getElem_mem hj)
  kept p hp := by
    obtain ⟨f, hmem⟩ := I.inField_iff.mp hp
    exact I.owned.kept f p hmem
  left p hp := I.owned.left p fun f hmem => hp (I.inField_iff.mpr ⟨f, hmem⟩)
  madeOnce := I.owned.madeOnce
  deletedOnce := I.owned.deletedOnce

/-! ## One call -/

def Returns (w : World ι Element) (l : ι → List Element) (op : Op ι Element) : Prop :=
  ∃ r, step w op = some r ∧ r.2.map r.1.heap.cell = (plainReturn r.2 l op).map some ∧
    ∃ own', Inv r.1 own' (plainStep w.heap r.2 l op)

theorem returns_set {op : Op ι Element} {s' : RepeatedPtrFieldBase}
    {xs : List Element} (I : Inv w own l) (hstep : step w op = some (w.set f (h', s'), []))
    (hreturn : plainReturn [] l op = []) (hplain : plainStep w.heap [] l op = update l f xs)
    (hbecomes : Becomes w.heap own f h' s' xs) : Returns w l op := by
  refine ⟨_, hstep, ?_, ?_⟩
  · rw [hreturn]
    rfl
  · rw [hplain]
    exact I.set hbecomes

/-- **One call** that is legal and whose sizes fit returns, and does what it does on lists. -/
theorem step [LawfulTypeHandler Element] (I : Inv w own l) {op : Op ι Element}
    (hlegal : Legal w op) (hfits : Fits w op) : Returns w l op := by
  have hlength : ∀ f, (w.fields f).currentSize = (l f).length := fun f => I.behaves.size_eq f
  cases op with
  | newElement x =>
    refine ⟨_, rfl, ?_, own, ?_⟩
    · simp [plainReturn]
    · refine I.heap (I.owned.alloc x) fun f p hp => ?_
      have hne : p ≠ w.heap.next := fun heq => I.owned.next_notMem f (heq ▸ hp)
      rw [Heap.cell_alloc, Function.update_of_ne hne]
  | assign p x =>
    obtain ⟨h', hh', howned, -, -, hother⟩ := I.owned.modify (fun _ => x) hlegal.1
    refine ⟨(⟨h', w.fields⟩, []), by rw [Repeated.step, hh']; rfl, rfl, own, ?_⟩
    refine I.heap howned fun f q hq => hother q ?_
    rintro rfl
    exact I.free_of_held hlegal f hq
  | add f prototype =>
    obtain ⟨vis, spare, K⟩ := I.keeps f
    obtain ⟨p, h', s', hadd, hp, hbecomes⟩ := K.add hfits prototype
    refine ⟨_, by rw [Repeated.step, hadd]; rfl, ?_, I.set hbecomes⟩
    simpa [plainReturn, World.set] using hp
  | addValue f x =>
    obtain ⟨vis, spare, K⟩ := I.keeps f
    obtain ⟨h', s', hadd, hbecomes⟩ := K.addValue hfits x
    exact I.returns_set (by rw [Repeated.step, hadd]; rfl) rfl rfl hbecomes
  | setElement f index x =>
    obtain ⟨vis, spare, K⟩ := I.keeps f
    have hi : index < (w.fields f).currentSize := hlegal
    obtain ⟨h', hset, hbecomes⟩ := K.setElement (hlength f ▸ hi) x
    refine I.returns_set ?_ rfl rfl hbecomes
    rw [Repeated.step, hset, World.set, Function.update_eq_self]
    rfl
  | addAllocated f p =>
    obtain ⟨vis, spare, K⟩ := I.keeps f
    obtain ⟨x, hx⟩ := Option.isSome_iff_exists.mp hlegal.1
    obtain ⟨h', s', hadd, hbecomes⟩ := K.unsafeArenaAddAllocated hx (I.free_of_held hlegal) hfits
    refine I.returns_set (by rw [Repeated.step, K.holds.addAllocated_eq, hadd]; rfl) rfl ?_ hbecomes
    rw [plainStep, hx]
    rfl
  | unsafeArenaAddAllocated f p =>
    obtain ⟨vis, spare, K⟩ := I.keeps f
    obtain ⟨x, hx⟩ := Option.isSome_iff_exists.mp hlegal.1
    obtain ⟨h', s', hadd, hbecomes⟩ := K.unsafeArenaAddAllocated hx (I.free_of_held hlegal) hfits
    refine I.returns_set (by rw [Repeated.step, hadd]; rfl) rfl ?_ hbecomes
    rw [plainStep, hx]
    rfl
  | addCleared f p =>
    obtain ⟨vis, spare, K⟩ := I.keeps f
    obtain ⟨s', hadd, hbecomes⟩ := K.addCleared hlegal.2 (I.free_of_held hlegal.1) hfits
    refine I.returns_set (by rw [Repeated.step, hadd]; rfl) rfl ?_ hbecomes
    rw [Function.update_eq_self]
    rfl
  | releaseCleared f =>
    obtain ⟨vis, spare, K⟩ := I.keeps f
    obtain ⟨p, s', hrelease, hp, hbecomes⟩ := K.releaseCleared hlegal
    refine ⟨_, by rw [Repeated.step, hrelease]; rfl, ?_, ?_⟩
    · simpa [plainReturn, World.set] using hp
    · have hset := I.set hbecomes
      rwa [Function.update_eq_self] at hset
  | addFromCleared f =>
    obtain ⟨vis, spare, K⟩ := I.keeps f
    obtain ⟨r, s', hadd, hp, hbecomes⟩ := K.addFromCleared
    refine ⟨_, by rw [Repeated.step, hadd]; rfl, ?_, ?_⟩
    · cases r with
      | none => rfl
      | some p => simpa [plainReturn, World.set] using hp p rfl
    · have hset := I.set hbecomes
      cases r with
      | none => simpa [plainStep] using hset
      | some p => simpa [plainStep] using hset
  | removeLast f =>
    obtain ⟨vis, spare, K⟩ := I.keeps f
    have hne : l f ≠ [] := List.length_pos_iff.mp (hlength f ▸ hlegal)
    obtain ⟨h', s', hremove, hbecomes⟩ := K.removeLast hne
    exact I.returns_set (by rw [Repeated.step, hremove]; rfl) rfl rfl hbecomes
  | releaseLast f =>
    obtain ⟨vis, spare, K⟩ := I.keeps f
    have hne : l f ≠ [] := List.length_pos_iff.mp (hlength f ▸ hlegal)
    obtain ⟨p, s', hrelease, hp, hbecomes⟩ := K.releaseLast hne
    refine ⟨_, by rw [Repeated.step, hrelease]; rfl, ?_, I.set hbecomes⟩
    rw [List.getLast?_eq_getLast_of_ne_nil hne] at hp
    simpa [plainReturn, World.set, List.getLast?_eq_getLast_of_ne_nil hne] using hp
  | clear f =>
    obtain ⟨vis, spare, K⟩ := I.keeps f
    obtain ⟨h', s', hclear, hbecomes⟩ := K.clear
    exact I.returns_set (by rw [Repeated.step, hclear]; rfl) rfl rfl hbecomes
  | mergeFrom f other =>
    obtain ⟨vis, spare, K⟩ := I.keeps f
    obtain ⟨vis', spare', Ko⟩ := I.keeps other
    obtain ⟨h', s', hmerge, hbecomes⟩ := K.mergeFrom Ko hlegal hfits
    exact I.returns_set (by rw [Repeated.step, hmerge]; rfl) rfl rfl hbecomes
  | reserve f newSize =>
    obtain ⟨vis, spare, K⟩ := I.keeps f
    obtain ⟨s', hreserve, hbecomes⟩ := K.reserve hfits
    refine I.returns_set (by rw [Repeated.step, hreserve]; rfl) rfl ?_ hbecomes
    rw [Function.update_eq_self]
    rfl
  | swapElements f index1 index2 =>
    obtain ⟨vis, spare, K⟩ := I.keeps f
    have hi : index1 < (l f).length := hlength f ▸ hlegal.1
    have hj : index2 < (l f).length := hlength f ▸ hlegal.2
    obtain ⟨s', hswap, hbecomes⟩ := K.swapElements hi hj
    refine I.returns_set (by rw [Repeated.step, hswap]; rfl) rfl ?_ hbecomes
    have hget : ∀ i (hi : i < (l f).length), (l f).getD i (cleared Element) = (l f)[i] :=
      fun i hi => by simp [hi]
    rw [plainStep, hget _ hi, hget _ hj]
  | deleteSubrange f start num =>
    obtain ⟨vis, spare, K⟩ := I.keeps f
    have hle : start + num ≤ (l f).length := hlength f ▸ hlegal
    obtain ⟨h', s', hdelete, hbecomes⟩ := K.deleteSubrange hle
    exact I.returns_set (by rw [Repeated.step, hdelete]; rfl) rfl rfl hbecomes
  | extractSubrange f start num =>
    obtain ⟨vis, spare, K⟩ := I.keeps f
    have hle : start + num ≤ (l f).length := hlength f ▸ hlegal
    obtain ⟨gap, s', hextract, hgap, hbecomes⟩ := K.extractSubrange hle
    refine ⟨_, by rw [Repeated.step, hextract]; rfl, ?_, I.set hbecomes⟩
    simpa [plainReturn, World.set] using hgap
  | internalSwap f other => exact ⟨_, rfl, rfl, _, I.swap f other⟩
  | destroy f =>
    obtain ⟨vis, spare, K⟩ := I.keeps f
    obtain ⟨h', hdestroy, hbecomes⟩ := K.destroy
    exact I.returns_set (by rw [Repeated.step, hdestroy]; rfl) rfl rfl hbecomes

/-- **One call** whose sizes do not fit overflows. -/
theorem step_eq_none (I : Inv w own l) {op : Op ι Element} (hnot : ¬ Fits w op) :
    Repeated.step w op = none := by
  cases op with
  | add f prototype =>
    obtain ⟨vis, spare, K⟩ := I.keeps f
    simp only [Fits, Classical.not_imp] at hnot
    obtain ⟨hnone, hfull, hge⟩ := hnot
    obtain rfl : spare = [] := by
      by_contra hne
      simp [K.holds.hasCleared_iff.mpr hne] at hnone
    have hover := K.holds.addOutOfLineHelper_eq_none hfull hge w.heap.next
    rw [Repeated.step, add, if_neg (by simp [hnone])]
    simp only [hover, Option.bind_eq_bind, Option.bind_none, Option.map_none]
  | addValue f x =>
    obtain ⟨vis, spare, K⟩ := I.keeps f
    simp only [Fits, Classical.not_imp] at hnot
    obtain ⟨hnone, hfull, hge⟩ := hnot
    rw [Repeated.step, addValue, if_neg (by simp [hnone]),
      K.holds.makeRoom_eq_none hfull hge]
    rfl
  | addAllocated f p =>
    obtain ⟨vis, spare, K⟩ := I.keeps f
    simp only [Fits, Classical.not_imp] at hnot
    obtain ⟨hgrow, hge⟩ := hnot
    rw [Repeated.step, K.holds.addAllocated_eq, unsafeArenaAddAllocated,
      if_pos hgrow, K.holds.reserveOneMore_eq_none hge]
    rfl
  | unsafeArenaAddAllocated f p =>
    obtain ⟨vis, spare, K⟩ := I.keeps f
    simp only [Fits, Classical.not_imp] at hnot
    obtain ⟨hgrow, hge⟩ := hnot
    rw [Repeated.step, unsafeArenaAddAllocated, if_pos hgrow, K.holds.reserveOneMore_eq_none hge]
    rfl
  | addCleared f p =>
    obtain ⟨vis, spare, K⟩ := I.keeps f
    simp only [Fits, Classical.not_imp] at hnot
    obtain ⟨hfull, hge⟩ := hnot
    rw [Repeated.step, addCleared, K.holds.makeRoom_eq_none hfull hge]
    rfl
  | reserve f newSize =>
    simp only [Fits, Classical.not_imp] at hnot
    obtain ⟨hlt, hcan⟩ := hnot
    rw [Repeated.step, reserve, if_pos hlt, internalExtend_eq_none hcan]
    rfl
  | mergeFrom f other =>
    simp only [Fits, Classical.not_imp] at hnot
    obtain ⟨hne, hcan⟩ := hnot
    rw [Repeated.step, mergeFrom, if_neg hne]
    simp only [internalExtend_eq_none hcan, Option.bind_eq_bind, Option.bind_none, Option.map_none]
  | newElement _ | assign _ _ | setElement _ _ _ | releaseCleared _ | addFromCleared _
  | removeLast _ | releaseLast _ | clear _ | swapElements _ _ _ | deleteSubrange _ _ _
  | extractSubrange _ _ _ | internalSwap _ _ | destroy _ => exact absurd trivial hnot

theorem run_iff [LawfulTypeHandler Element] (I : Inv w own l)
    {ops : List (Op ι Element)} (hlegal : AllLegal w ops) : BehavesThroughout w l ops ↔ AllFit w ops := by
  induction ops generalizing w own l with
  | nil => exact ⟨fun _ => trivial, fun _ => I.behaves⟩
  | cons op ops ih =>
    obtain ⟨hop, hrest⟩ := hlegal
    constructor
    · rintro ⟨-, r, hstep, -, hbehaves⟩
      have hfits : Fits w op := by
        by_contra hnot
        rw [I.step_eq_none hnot] at hstep
        exact absurd hstep (by simp)
      obtain ⟨r', hstep', -, own', I'⟩ := I.step hop hfits
      obtain rfl : r = r' := Option.some.inj (hstep.symm.trans hstep')
      refine ⟨hfits, fun r' hr' => ?_⟩
      obtain rfl : r = r' := Option.some.inj (hstep.symm.trans hr')
      exact (ih I' (hrest r hstep)).mp hbehaves
    · rintro ⟨hfits, hfit⟩
      obtain ⟨r, hstep, hreturn, own', I'⟩ := I.step hop hfits
      exact ⟨I.behaves, r, hstep, hreturn, (ih I' (hrest r hstep)).mpr (hfit r hstep)⟩

end Inv

/-! ## Every sequence of calls -/

/-- **Repeated fields.**  Under every legal sequence of calls the fields own each object once and
behave as lists if and only if the sizes in `InternalExtend` fit in an `int` at every call. -/
theorem behavesThroughout_iff [LawfulTypeHandler Element] {ops : List (Op ι Element)}
    (hlegal : AllLegal World.init ops) :
    BehavesThroughout World.init (fun _ => []) ops ↔ AllFit World.init ops :=
  Inv.init.run_iff hlegal

/-- Room for three elements, then one of them. -/
theorem behavesThroughout_iff_reserve :
    BehavesThroughout (World.init : World Unit String) (fun _ => []) [.reserve () 3, .add () none] ↔
      AllFit (World.init : World Unit String) [.reserve () 3, .add () none] :=
  behavesThroughout_iff ⟨show (3 : ℤ) ≤ intMax by decide, fun _ _ => ⟨trivial, fun _ _ => trivial⟩⟩

/-- The array is reserved for 2^30 elements, then for one more: `total_size_ * 2` overflows. -/
theorem not_behavesThroughout_reserve : ¬ ∀ ops : List (Op Unit String), AllLegal World.init ops →
      BehavesThroughout World.init (fun _ => []) ops := by
  intro h
  have hlegal : AllLegal (World.init : World Unit String)
      [.reserve () 1073741824, .reserve () 1073741825] :=
    ⟨show (1073741824 : ℤ) ≤ intMax by decide,
      fun _ _ => ⟨show (1073741825 : ℤ) ≤ intMax by decide, fun _ _ => trivial⟩⟩
  obtain ⟨-, r, hfirst, -, -, r', hsecond, -⟩ := h _ hlegal
  have hreserve : init.reserve 1073741824 =
      some (init.replaceRep 1073741824) := by
    simp [reserve, internalExtend, init, toInt, intMax, sizeMax, kRepHeaderSize, kElementSize,
      kRepeatedFieldLowerClampLimit]
  have hover : (init.replaceRep 1073741824).reserve 1073741825 = none := by
    simp [reserve, internalExtend, replaceRep, init, toInt, intMax]
  obtain rfl : r = (World.init.set () (.empty, init.replaceRep 1073741824), []) := by
    have hstep : step World.init (.reserve () 1073741824) = some r := hfirst
    simpa [step, World.init, hreserve, eq_comm] using hstep
  exact absurd hsecond (by simp [step, World.set, hover])

end Protoc.Repeated
