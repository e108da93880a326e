import Mathlib.Tactic.Ring
import Protoc.Lib.Ring
import Protoc.Lib.Run

/-!
# The lock-free queue

`LockFreeQueue` is a ring of bytes in which items of one size are stored.  The ring has one byte more than the items
need, so items go round its end at every place, and the cursors are never equal when it is full.

A pointer that is not `NULL` points to as many bytes as an item has.
-/

namespace Protoc.Adapter

open Protoc.Lib Protoc.Lib.Ring
open List

/-- Truncation to `uint32`. -/
def u32 (n : ℕ) : ℕ := n % 0x100000000

theorem u32_of_lt {n : ℕ} (h : n < 0x100000000) : u32 n = n := Nat.mod_eq_of_lt h

/-- `OHOSLiteErrorCode`, as far as the queue returns it. -/
inductive Code
  | EC_SUCCESS
  | EC_FAILURE
  | EC_BUSBUSY
  | EC_INVALID
  deriving DecidableEq

/-- `LockFreeQueue`. -/
structure LockFreeQueue where
  write : ℕ
  read : ℕ
  itemSize : ℕ
  totalSize : ℕ
  buffer : List UInt8
  deriving DecidableEq

/-- `LFQUE_Create`, where `size * count + 1` is an `int`; `malloc` gives the bytes behind the header. -/
def create (malloc : ℕ → Option (List UInt8)) (size count : ℤ) : Option LockFreeQueue :=
  if size ≤ 0 ∨ count ≤ 0 then none
  else
    let total := size * count + 1
    if total ≤ 0 then none
    else (malloc total.toNat).map fun buffer => ⟨0, 0, size.toNat, total.toNat, buffer⟩

namespace LockFreeQueue

variable (queue : LockFreeQueue)

/-- `LFQUE_IsFull`. -/
def isFull : Bool :=
  let nextWrite := u32 (queue.write + 1)
  let nextWrite := if nextWrite ≥ queue.totalSize then 0 else nextWrite
  nextWrite == queue.read

/-- `LFQUE_IsEmpty`. -/
def isEmpty : Bool := queue.write == queue.read

def behind (cursor : ℕ) : ℕ :=
  let next := u32 (cursor + queue.itemSize)
  if next ≥ queue.totalSize then next - queue.totalSize else next

/-- How much of an item at a cursor lies before the end of the ring. -/
def copyLen (cursor : ℕ) : ℕ :=
  if queue.totalSize - cursor < queue.itemSize then queue.totalSize - cursor else queue.itemSize

/-- `LFQUE_Push`, where `none` is a `NULL`. -/
def push (element : Option (List UInt8)) : Code × LockFreeQueue :=
  match element with
  | none => (.EC_INVALID, queue)
  | some element =>
    if queue.isFull then (.EC_BUSBUSY, queue)
    else
      let copyLen := queue.copyLen queue.write
      let buffer := blit queue.buffer queue.write (element.take copyLen)
      let element := element.drop copyLen
      let copyLen := queue.itemSize - copyLen
      let buffer := if copyLen > 0 then blit buffer 0 (element.take copyLen) else buffer
      (.EC_SUCCESS, { queue with buffer := buffer, write := queue.behind queue.write })

/-- `LFQUE_Pop`: what is written to the element, if it is not `NULL`. -/
def pop (element : Bool) : Code × Option (List UInt8) × LockFreeQueue :=
  if !element then (.EC_INVALID, none, queue)
  else if queue.isEmpty then (.EC_FAILURE, none, queue)
  else
    let copyLen := queue.copyLen queue.read
    let first := (queue.buffer.drop queue.read).take copyLen
    let copyLen := queue.itemSize - copyLen
    let second := if copyLen > 0 then queue.buffer.take copyLen else []
    (.EC_SUCCESS, some (first ++ second), { queue with read := queue.behind queue.read })

end LockFreeQueue

/-! ## Calls -/

/-- A call: what is pushed, or whether there is a place for what is popped. -/
inductive Call
  | push (element : Option (List UInt8))
  | pop (element : Bool)
  deriving DecidableEq

/-- What a call returns and writes. -/
structure Reply where
  code : Code
  element : Option (List UInt8)
  deriving DecidableEq

def call (queue : LockFreeQueue) : Call → Reply × LockFreeQueue
  | .push element => (⟨(queue.push element).1, none⟩, (queue.push element).2)
  | .pop element => (⟨(queue.pop element).1, (queue.pop element).2.1⟩, (queue.pop element).2.2)

def Call.Legal (itemSize : ℕ) : Call → Prop
  | .push (some element) => element.length = itemSize
  | _ => True

/-- A call on a list of at most `count` items. -/
def Fifo.call (count : ℕ) (items : List (List UInt8)) : Call → Reply × List (List UInt8)
  | .push none => (⟨.EC_INVALID, none⟩, items)
  | .push (some element) =>
    if items.length < count then (⟨.EC_SUCCESS, none⟩, items ++ [element]) else (⟨.EC_BUSBUSY, none⟩, items)
  | .pop false => (⟨.EC_INVALID, none⟩, items)
  | .pop true =>
    match items with
    | [] => (⟨.EC_FAILURE, none⟩, [])
    | element :: items => (⟨.EC_SUCCESS, some element⟩, items)

/-- **A call that fails changes nothing.** -/
theorem call_of_failure {queue : LockFreeQueue} {c : Call} (h : (call queue c).1.code ≠ .EC_SUCCESS) :
    (call queue c).2 = queue ∧ (call queue c).1.element = none := by
  cases c with
  | push element =>
    cases element with
    | none => exact ⟨rfl, rfl⟩
    | some element =>
      simp only [call, LockFreeQueue.push] at h ⊢
      by_cases hfull : queue.isFull = true
      · simp only [hfull, if_true, and_self]
      · simp only [hfull, if_false, Bool.false_eq_true, ne_eq, not_true_eq_false] at h
  | pop element =>
    simp only [call, LockFreeQueue.pop] at h ⊢
    by_cases hnull : (!element) = true
    · simp only [hnull, if_true, and_self]
    · by_cases hempty : queue.isEmpty = true
      · simp only [hnull, hempty, if_true, if_false, Bool.false_eq_true, and_self]
      · simp only [hnull, hempty, if_false, Bool.false_eq_true, ne_eq, not_true_eq_false] at h

/-! ## What a queue stores -/

/-- The queue stores the items: they begin at the read cursor, one after the other round the ring. -/
structure Holds (size count : ℕ) (queue : LockFreeQueue) (items : List (List UInt8)) : Prop where
  itemSize_eq : queue.itemSize = size
  size_pos : 0 < size
  totalSize_eq : queue.totalSize = size * count + 1
  totalSize_lt : queue.totalSize < 0x80000000
  length_buffer : queue.buffer.length = queue.totalSize
  length_items : items.length ≤ count
  length_item : ∀ item ∈ items, item.length = size
  read_lt : queue.read < queue.totalSize
  write_eq : queue.write = wrapAt queue.totalSize (queue.read + size * items.length)
  window_eq : window queue.buffer queue.read (size * items.length) = items.flatten

variable {size count : ℕ} {queue : LockFreeQueue} {items : List (List UInt8)} {element : List UInt8}

theorem wrapAt_lt {total i : ℕ} (h : i < 2 * total) : wrapAt total i < total := by
  unfold wrapAt
  split <;> omega

namespace Holds

section
variable (h : Holds size count queue items)
include h

theorem size_lt : size * items.length < queue.totalSize := by
  rw [h.totalSize_eq]
  exact Nat.lt_succ_of_le (Nat.mul_le_mul_left size h.length_items)

theorem write_lt : queue.write < queue.totalSize := by
  have hsize := h.size_lt
  have hread := h.read_lt
  rw [h.write_eq]
  exact wrapAt_lt (by omega)

theorem itemSize_lt (hcount : items.length < count) : size * items.length + size < queue.totalSize := by
  rw [h.totalSize_eq, ← Nat.mul_succ]
  exact Nat.lt_succ_of_le (Nat.mul_le_mul_left size hcount)

/-- **The ring is full exactly when `count` items are stored.** -/
theorem isFull_iff : queue.isFull = true ↔ items.length = count := by
  have hsize := h.size_lt
  have hread := h.read_lt
  have hwrite := h.write_lt
  have htotal := h.totalSize_lt
  have hnext : queue.isFull = true ↔ size * items.length + 1 = queue.totalSize := by
    rw [LockFreeQueue.isFull, u32_of_lt (by omega), beq_iff_eq, h.write_eq]
    unfold wrapAt
    split_ifs <;> omega
  rw [hnext, h.totalSize_eq, Nat.add_right_cancel_iff, Nat.mul_right_inj h.size_pos.ne']

/-- **The cursors are equal exactly when nothing is stored.** -/
theorem isEmpty_iff : queue.isEmpty = true ↔ items = [] := by
  have hsize := h.size_lt
  have hread := h.read_lt
  have hzero : queue.isEmpty = true ↔ size * items.length = 0 := by
    rw [LockFreeQueue.isEmpty, beq_iff_eq, h.write_eq]
    unfold wrapAt
    split <;> omega
  rw [hzero, Nat.mul_eq_zero, length_eq_zero_iff, or_iff_right h.size_pos.ne']

theorem behind_eq (hcount : 0 < count) {cursor : ℕ}
    (hcursor : cursor < queue.totalSize) : queue.behind cursor = wrapAt queue.totalSize (cursor + size) := by
  have htotal := h.totalSize_lt
  have hsize : size ≤ size * count := Nat.le_mul_of_pos_right size hcount
  have heq := h.totalSize_eq
  rw [LockFreeQueue.behind, h.itemSize_eq, u32_of_lt (by omega)]
  unfold wrapAt
  split_ifs <;> omega

/-- **An item is pushed.** -/
theorem push (hcount : items.length < count) (helement : element.length = size) :
    (queue.push (some element)).1 = .EC_SUCCESS ∧
      Holds size count (queue.push (some element)).2 (items ++ [element]) := by
  have hfull : queue.isFull = false := by
    rw [← Bool.not_eq_true, h.isFull_iff]
    exact hcount.ne
  have hlt := h.itemSize_lt hcount
  have hread := h.read_lt
  have hwrite := h.write_lt
  have hbuffer := h.length_buffer
  have hround : (if queue.itemSize - queue.copyLen queue.write > 0 then
        blit (blit queue.buffer queue.write (element.take (queue.copyLen queue.write))) 0
          ((element.drop (queue.copyLen queue.write)).take (queue.itemSize - queue.copyLen queue.write))
      else blit queue.buffer queue.write (element.take (queue.copyLen queue.write))) =
        blitRound queue.buffer queue.write element := by
    rw [LockFreeQueue.copyLen, h.itemSize_eq, blitRound, hbuffer, helement]
    by_cases hover : queue.totalSize - queue.write < size
    · have hrest : (element.drop (queue.totalSize - queue.write)).length ≤ size - (queue.totalSize - queue.write) := by
        rw [length_drop]
        omega
      rw [if_pos hover, if_pos (by omega), if_pos (by omega), take_of_length_le hrest]
    · rw [if_neg hover, if_neg (by omega), if_neg (by omega), take_of_length_le (by omega)]
  have hpushed : queue.push (some element) = (.EC_SUCCESS, { queue with
        buffer := blitRound queue.buffer queue.write element
        write := wrapAt queue.totalSize (queue.write + size) }) := by
    rw [← h.behind_eq (lt_of_le_of_lt (Nat.zero_le _) hcount) hwrite, ← hround]
    simp only [LockFreeQueue.push, hfull, Bool.false_eq_true, if_false]
  have hlength : (blitRound queue.buffer queue.write element).length = queue.totalSize := by
    rw [length_blitRound (by omega) (by omega), hbuffer]
  rw [hpushed]
  refine ⟨rfl, h.itemSize_eq, h.size_pos, h.totalSize_eq, h.totalSize_lt, hlength, ?_, ?_, h.read_lt, ?_, ?_⟩
  · rw [length_append]
    exact hcount
  · rw [forall_mem_append]
    exact ⟨h.length_item, by simpa using helement⟩
  · simp only [length_append, length_singleton, Nat.mul_add, Nat.mul_one, h.write_eq]
    unfold wrapAt
    split_ifs <;> omega
  · simp only [length_append, length_singleton, Nat.mul_add, Nat.mul_one, flatten_append, flatten_singleton]
    have hold : window (blitRound queue.buffer queue.write element) queue.read (size * items.length) = items.flatten := by
      rw [← h.window_eq]
      refine window_blitRound_of_disjoint (by omega) (by omega) fun i hi j hj => ?_
      rw [hbuffer, h.write_eq]
      unfold wrapAt
      split_ifs <;> omega
    have hnew : window (blitRound queue.buffer queue.write element) (queue.read + size * items.length) size = element := by
      have hself : window (blitRound queue.buffer queue.write element) queue.write element.length = element :=
        window_blitRound_self (by omega) (by omega)
      rw [helement] at hself
      refine Eq.trans (window_start fun i hi => ?_) hself
      rw [hlength, h.write_eq]
      unfold wrapAt
      split_ifs <;> omega
    rw [window_add, hold, hnew]

end

/-- **An item is popped.** -/
theorem pop (h : Holds size count queue (element :: items)) :
    (queue.pop true).1 = .EC_SUCCESS ∧ (queue.pop true).2.1 = some element ∧
      Holds size count (queue.pop true).2.2 items := by
  have hempty : queue.isEmpty = false := by
    rw [← Bool.not_eq_true, h.isEmpty_iff]
    exact cons_ne_nil _ _
  have hsize := h.size_lt
  have hread := h.read_lt
  have hbuffer := h.length_buffer
  have hcount : 0 < count := lt_of_lt_of_le (Nat.succ_pos _) h.length_items
  obtain ⟨helement, hitems⟩ := forall_mem_cons.mp h.length_item
  have hwindow := h.window_eq
  rw [length_cons, Nat.mul_succ] at hsize
  rw [length_cons, Nat.mul_succ, Nat.add_comm, window_add, flatten_cons] at hwindow
  obtain ⟨hfirst, hrest⟩ := List.append_inj hwindow (by rw [length_window, helement])
  have hcopied : (queue.buffer.drop queue.read).take (queue.copyLen queue.read) ++
      (if queue.itemSize - queue.copyLen queue.read > 0 then
        queue.buffer.take (queue.itemSize - queue.copyLen queue.read) else []) = element := by
    rw [LockFreeQueue.copyLen, h.itemSize_eq, ← hfirst]
    by_cases hover : queue.totalSize - queue.read < size
    · rw [if_pos hover, if_pos (by omega), window_wrap (by omega) (by omega) (by omega), hbuffer]
    · rw [if_neg hover, if_neg (by omega), window_eq_slice (by omega), append_nil]
  have hpopped : queue.pop true =
      (.EC_SUCCESS, some element, { queue with read := wrapAt queue.totalSize (queue.read + size) }) := by
    rw [← h.behind_eq hcount hread, ← hcopied]
    simp only [LockFreeQueue.pop, hempty, Bool.not_true, Bool.false_eq_true, if_false]
  rw [hpopped]
  refine ⟨rfl, rfl, h.itemSize_eq, h.size_pos, h.totalSize_eq, h.totalSize_lt, h.length_buffer,
    Nat.le_of_succ_le h.length_items, hitems, wrapAt_lt (by omega), ?_, ?_⟩
  · simp only [h.write_eq, length_cons, Nat.mul_succ]
    unfold wrapAt
    split_ifs <;> omega
  · rw [← hrest]
    refine window_start fun i hi => ?_
    simp only [hbuffer]
    unfold wrapAt
    split_ifs <;> omega

end Holds

/-! ## Runs -/

/-- A queue and the list of what it stores answer alike. -/
theorem simulates (size count : ℕ) : Simulates call (Fifo.call count) (Call.Legal size) (Holds size count) where
  answer {queue items c} h hlegal := by
    cases c with
    | push element =>
      cases element with
      | none => rfl
      | some element =>
        simp only [Fifo.call]
        split_ifs with hcount
        · simp only [call, (h.push hcount hlegal).1]
        · have hfull := h.isFull_iff.mpr (le_antisymm h.length_items (not_lt.mp hcount))
          simp only [call, LockFreeQueue.push, hfull, if_true]
    | pop element =>
      cases element with
      | false => rfl
      | true =>
        cases items with
        | nil =>
          have hempty := h.isEmpty_iff.mpr rfl
          simp only [call, LockFreeQueue.pop, hempty, Bool.not_true, Bool.false_eq_true, if_false, if_true,
            Fifo.call]
        | cons element items =>
          obtain ⟨hcode, helement, -⟩ := h.pop
          simp only [call, hcode, helement, Fifo.call]
  next {queue items c} h hlegal := by
    cases c with
    | push element =>
      cases element with
      | none => exact h
      | some element =>
        simp only [Fifo.call]
        split_ifs with hcount
        · exact (h.push hcount hlegal).2
        · have hfull := h.isFull_iff.mpr (le_antisymm h.length_items (not_lt.mp hcount))
          simp only [call, LockFreeQueue.push, hfull, if_true]
          exact h
    | pop element =>
      cases element with
      | false => exact h
      | true =>
        cases items with
        | nil =>
          have hempty := h.isEmpty_iff.mpr rfl
          simp only [call, LockFreeQueue.pop, hempty, Bool.not_true, Bool.false_eq_true, if_false, if_true,
            Fifo.call]
          exact h
        | cons element items => exact h.pop.2.2

theorem holds_of_create {malloc : ℕ → Option (List UInt8)} (hmalloc : ∀ n bytes, malloc n = some bytes → bytes.length = n)
    {size count : ℤ} (hint : size * count + 1 < 0x80000000) (h : create malloc size count = some queue) :
    Holds size.toNat count.toNat queue [] := by
  rw [create] at h
  by_cases hneg : size ≤ 0 ∨ count ≤ 0
  · rw [if_pos hneg] at h
    exact absurd h (by simp)
  rw [if_neg hneg] at h
  by_cases hzero : size * count + 1 ≤ 0
  · simp only [if_pos hzero] at h
    exact absurd h (by simp)
  simp only [if_neg hzero] at h
  obtain ⟨bytes, hbytes, rfl⟩ := Option.map_eq_some_iff.mp h
  rw [not_or, not_le, not_le] at hneg
  have htotal : (size * count + 1).toNat = size.toNat * count.toNat + 1 := by
    rw [Int.toNat_add (Int.mul_nonneg hneg.1.le hneg.2.le) (by decide), Int.toNat_mul hneg.1.le hneg.2.le]
    rfl
  refine ⟨rfl, by omega, htotal, by simp only; omega, hmalloc _ _ hbytes, Nat.zero_le _, nofun, by simp only; omega, ?_, ?_⟩
  · simp only [length_nil, Nat.mul_zero, wrapAt]
    rw [if_pos (by omega)]
  · simp only [length_nil, Nat.mul_zero, window_zero, flatten_nil]

/-- **The queue is a bounded FIFO**: the calls on a queue that was created are answered as those on a list of at most
`count` items, and a call that fails changes nothing. -/
theorem queue_refines_fifo {malloc : ℕ → Option (List UInt8)}
    (hmalloc : ∀ n bytes, malloc n = some bytes → bytes.length = n) {size count : ℤ}
    (hint : size * count + 1 < 0x80000000) (h : create malloc size count = some queue) {calls : List Call}
    (hlegal : ∀ c ∈ calls, c.Legal size.toNat) :
    answers call queue calls = answers (Fifo.call count.toNat) [] calls ∧
      ∀ c, (call (afterCalls call queue calls) c).1.code ≠ .EC_SUCCESS →
        (call (afterCalls call queue calls) c).2 = afterCalls call queue calls :=
  ⟨(simulates _ _).answers_agree (holds_of_create hmalloc hint h) hlegal, fun _ hfails => (call_of_failure hfails).1⟩

/-- Two items of two bytes; the second one that is pushed late goes round the end. -/
theorem queue_refines_fifo_round : answers call ⟨0, 0, 2, 5, [0, 0, 0, 0, 0]⟩
        [.push (some [1, 2]), .push (some [3, 4]), .push (some [5, 6]), .pop true, .push (some [5, 6]), .pop true, .pop true] =
      [⟨.EC_SUCCESS, none⟩, ⟨.EC_SUCCESS, none⟩, ⟨.EC_BUSBUSY, none⟩, ⟨.EC_SUCCESS, some [1, 2]⟩, ⟨.EC_SUCCESS, none⟩,
        ⟨.EC_SUCCESS, some [3, 4]⟩, ⟨.EC_SUCCESS, some [5, 6]⟩] := by
  have hmalloc : ∀ n bytes, some (replicate n (0 : UInt8)) = some bytes → bytes.length = n := by
    rintro n bytes ⟨⟩
    exact length_replicate
  refine (@queue_refines_fifo ⟨0, 0, 2, 5, [0, 0, 0, 0, 0]⟩ (fun n => some (replicate n 0)) hmalloc 2 2 (by decide)
    rfl _ ?_).1.trans (by decide)
  simp only [forall_mem_cons, Call.Legal]
  exact ⟨rfl, rfl, rfl, trivial, rfl, trivial, trivial, nofun⟩

end Protoc.Adapter
