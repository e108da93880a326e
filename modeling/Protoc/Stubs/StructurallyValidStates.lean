import Protoc.Lib.Scanner
import Protoc.Lib.Utf8
import Protoc.Stubs.StructurallyValid

/-!
# The states of the UTF-8 scan

The table as an automaton: from state 0 it comes back to state 0 exactly at the end of a UTF-8
character.
-/

namespace Protoc.Stubs

open Protoc.Lib
open Protoc.Lib.Scanner
open Protoc.Lib.Utf8 (Continuation Character)

/-! ## Lookups -/

def blockSize (block : List (ℕ × ℕ)) : ℕ := (block.map Prod.fst).sum

theorem entry_append_left {a b : List (ℕ × ℕ)} {i : ℕ} (h : i < blockSize a) :
    entry (a ++ b) i = entry a i := by
  induction a generalizing i with
  | nil => exact absurd h (Nat.not_lt_zero i)
  | cons run a ih =>
    obtain ⟨count, e⟩ := run
    rw [List.cons_append, entry, entry]
    split_ifs with hlt
    · rfl
    · refine ih ?_
      simp only [blockSize, List.map_cons, List.sum_cons] at h ⊢
      omega

theorem entry_append_right {a b : List (ℕ × ℕ)} {i : ℕ} : entry (a ++ b) (blockSize a + i) = entry b i := by
  induction a with
  | nil => simp [blockSize]
  | cons run a ih =>
    obtain ⟨count, e⟩ := run
    have hsize : blockSize ((count, e) :: a) = count + blockSize a := by simp [blockSize]
    rw [List.cons_append, entry, hsize, if_neg (by omega), add_assoc, Nat.add_sub_cancel_left, ih]

theorem entry_flatten {size : ℕ} {blocks : List (List (ℕ × ℕ))} {block : List (ℕ × ℕ)} {s i : ℕ}
    (hsize : ∀ b ∈ blocks, blockSize b = size) (hs : blocks[s]? = some block) (hi : i < size) :
    entry blocks.flatten (size * s + i) = entry block i := by
  induction blocks generalizing s with
  | nil => simp at hs
  | cons b blocks ih =>
    obtain ⟨hb, hrest⟩ := List.forall_mem_cons.mp hsize
    rw [List.flatten_cons]
    cases s with
    | zero =>
      obtain rfl : b = block := by simpa using hs
      rw [mul_zero, zero_add, entry_append_left (hb ▸ hi)]
    | succ s =>
      have hblock : blocks[s]? = some block := by simpa using hs
      rw [Nat.mul_succ, add_comm (size * s), add_assoc]
      conv_lhs => rw [← hb]
      rw [entry_append_right, hb, ih hrest hblock]

theorem stateTable_eq {block : List (ℕ × ℕ)} {s : ℕ}
    (hs : utf8acceptnonsurrogatesStates[s]? = some block) (c : UInt8) :
    utf8acceptnonsurrogates (256 * s + c.toNat) = entry block c.toNat :=
  entry_flatten (by decide) hs c.toNat_lt

/-! ## The automaton -/

def afterEntry (e : ℕ) : Option ℕ := if e < kExitIllegalStructure then some e else none

theorem afterEntry_of_lt {e : ℕ} (h : e < kExitIllegalStructure) : afterEntry e = some e := if_pos h

theorem afterEntry_exit : afterEntry kExitIllegalStructure = none := rfl

theorem afterEntry_reject : afterEntry kExitReject = none := rfl

def nextState (s : ℕ) (c : UInt8) : Option ℕ :=
  afterEntry (utf8acceptnonsurrogates (256 * s + c.toNat))

theorem nextState_range (s low count high next : ℕ) (hs : utf8acceptnonsurrogatesStates[s]? =
      some [(low, kExitIllegalStructure), (count, next), (high, kExitIllegalStructure)])
    (hsize : low + count + high = 256) (hnext : next < 240) (c : UInt8) :
    nextState s c = if low ≤ c.toNat ∧ c.toNat < low + count then some next else none := by
  have hc : c.toNat < 256 := c.toNat_lt
  rw [nextState, stateTable_eq hs, entry, entry, entry]
  by_cases hlow : c.toNat < low
  · rw [if_pos hlow, if_neg (by omega), afterEntry_exit]
  · rw [if_neg hlow]
    by_cases hin : c.toNat - low < count
    · rw [if_pos hin, if_pos (by omega), afterEntry_of_lt hnext]
    · rw [if_neg hin, if_pos (by omega), afterEntry_exit, if_neg (by omega)]

section
variable (c : UInt8)
include c

theorem nextState_one : nextState 1 c = if 0x80 ≤ c.toNat ∧ c.toNat < 0xC0 then some 0 else none :=
  nextState_range 1 128 64 64 0 rfl rfl (by decide) c

theorem nextState_two : nextState 2 c = if 0xA0 ≤ c.toNat ∧ c.toNat < 0xC0 then some 1 else none :=
  nextState_range 2 160 32 64 1 rfl rfl (by decide) c

theorem nextState_three :
    nextState 3 c = if 0x80 ≤ c.toNat ∧ c.toNat < 0xC0 then some 1 else none :=
  nextState_range 3 128 64 64 1 rfl rfl (by decide) c

theorem nextState_four : nextState 4 c = if 0x90 ≤ c.toNat ∧ c.toNat < 0xC0 then some 3 else none :=
  nextState_range 4 144 48 64 3 rfl rfl (by decide) c

theorem nextState_five : nextState 5 c = if 0x80 ≤ c.toNat ∧ c.toNat < 0xC0 then some 3 else none :=
  nextState_range 5 128 64 64 3 rfl rfl (by decide) c

theorem nextState_six : nextState 6 c = if 0x80 ≤ c.toNat ∧ c.toNat < 0x90 then some 3 else none :=
  nextState_range 6 128 16 112 3 rfl rfl (by decide) c

theorem nextState_seven : nextState 7 c = if 0x80 ≤ c.toNat ∧ c.toNat < 0xA0 then some 1
      else if 0xA0 ≤ c.toNat ∧ c.toNat < 0xC0 then some 8 else none := by
  have hc : c.toNat < 256 := c.toNat_lt
  have hs : utf8acceptnonsurrogatesStates[7]? = some [(128, X_), (32, 1), (32, 8), (64, X_)] := rfl
  rw [nextState, stateTable_eq hs, entry, entry, entry, entry]
  by_cases hlow : c.toNat < 128
  · rw [if_pos hlow, if_neg (by omega), if_neg (by omega), afterEntry_exit]
  · rw [if_neg hlow]
    by_cases hone : c.toNat - 128 < 32
    · rw [if_pos hone, if_pos (by omega), afterEntry_of_lt (by decide)]
    · rw [if_neg hone]
      by_cases htwo : c.toNat - 128 - 32 < 32
      · rw [if_pos htwo, afterEntry_of_lt (by decide), if_neg (by omega), if_pos (by omega)]
      · rw [if_neg htwo, if_pos (by omega), afterEntry_exit, if_neg (by omega), if_neg (by omega)]

theorem nextState_eight : nextState 8 c = none := by
  have hc : c.toNat < 256 := c.toNat_lt
  have hs : utf8acceptnonsurrogatesStates[8]? = some [(128, X_), (64, RJ_), (64, X_)] := rfl
  rw [nextState, stateTable_eq hs, entry, entry, entry]
  by_cases hlow : c.toNat < 128
  · rw [if_pos hlow, afterEntry_exit]
  · rw [if_neg hlow]
    by_cases hin : c.toNat - 128 < 64
    · rw [if_pos hin, afterEntry_reject]
    · rw [if_neg hin, if_pos (by omega), afterEntry_exit]

end

/-- The state after the first byte of a character. -/
def leadState (b : ℕ) : Option ℕ :=
  if b < 0x80 then some 0
  else if b < 0xC2 then none
  else if b < 0xE0 then some 1
  else if b = 0xE0 then some 2
  else if b = 0xED then some 7
  else if b < 0xF0 then some 3
  else if b = 0xF0 then some 4
  else if b < 0xF4 then some 5
  else if b = 0xF4 then some 6
  else none

set_option maxRecDepth 20000 in
/-- The block of state 0, entry for entry. -/
theorem entry_lead : ∀ b < 256, afterEntry (entry [(128, 0), (66, X_), (30, 1), (1, 2), (12, 3), (1, 7),
    (2, 3), (1, 4), (3, 5), (1, 6), (11, X_)] b) = leadState b := by
  decide

theorem nextState_zero (c : UInt8) : nextState 0 c = leadState c.toNat := by
  rw [nextState, stateTable_eq (s := 0) rfl]
  exact entry_lead c.toNat c.toNat_lt

/-! ## What each state accepts -/

variable {l : List UInt8}

theorem accepts_range {s t low high : ℕ} (ht : t ≠ 0)
    (hs : ∀ c, nextState s c = if low ≤ c.toNat ∧ c.toNat < high then some t else none) :
    Accepts nextState 0 s l ↔
      ∃ c m, l = c :: m ∧ (low ≤ c.toNat ∧ c.toNat < high) ∧ Accepts nextState 0 t m := by
  cases l with
  | nil => simp [Accepts]
  | cons c m =>
    by_cases hc : low ≤ c.toNat ∧ c.toNat < high
    · have hnext : nextState s c = some t := (hs c).trans (if_pos hc)
      simp [Accepts, hnext, ht, hc]
    · have hnext : nextState s c = none := (hs c).trans (if_neg hc)
      simp [Accepts, hnext, hc]

theorem accepts_one : Accepts nextState 0 1 l ↔ ∃ c, l = [c] ∧ Continuation c.toNat := by
  cases l with
  | nil => simp [Accepts]
  | cons c m =>
    by_cases hc : 0x80 ≤ c.toNat ∧ c.toNat < 0xC0
    · have hnext : nextState 1 c = some 0 := (nextState_one c).trans (if_pos hc)
      simp [Accepts, hnext, Continuation, hc]
    · have hnext : nextState 1 c = none := (nextState_one c).trans (if_neg hc)
      simp [Accepts, hnext, Continuation, hc]

theorem accepts_pair {s low high : ℕ}
    (hs : ∀ c, nextState s c = if low ≤ c.toNat ∧ c.toNat < high then some 1 else none) :
    Accepts nextState 0 s l ↔
      ∃ c d, l = [c, d] ∧ (low ≤ c.toNat ∧ c.toNat < high) ∧ Continuation d.toNat := by
  rw [accepts_range Nat.one_ne_zero hs]
  constructor
  · rintro ⟨c, m, rfl, hc, hm⟩
    obtain ⟨d, rfl, hd⟩ := accepts_one.mp hm
    exact ⟨c, d, rfl, hc, hd⟩
  · rintro ⟨c, d, rfl, hc, hd⟩
    exact ⟨c, [d], rfl, hc, accepts_one.mpr ⟨d, rfl, hd⟩⟩

theorem accepts_triple {s low high : ℕ}
    (hs : ∀ c, nextState s c = if low ≤ c.toNat ∧ c.toNat < high then some 3 else none) :
    Accepts nextState 0 s l ↔ ∃ c d e, l = [c, d, e] ∧ (low ≤ c.toNat ∧ c.toNat < high) ∧
        Continuation d.toNat ∧ Continuation e.toNat := by
  rw [accepts_range (by decide) hs]
  constructor
  · rintro ⟨c, m, rfl, hc, hm⟩
    obtain ⟨d, e, rfl, hd, he⟩ := (accepts_pair nextState_three).mp hm
    exact ⟨c, d, e, rfl, hc, hd, he⟩
  · rintro ⟨c, d, e, rfl, hc, hd, he⟩
    exact ⟨c, [d, e], rfl, hc, (accepts_pair nextState_three).mpr ⟨d, e, rfl, hd, he⟩⟩

theorem not_accepts_eight : ¬ Accepts nextState 0 8 l := by
  cases l with
  | nil => exact id
  | cons c m => simp [Accepts, nextState_eight]

theorem accepts_seven : Accepts nextState 0 7 l ↔
      ∃ c d, l = [c, d] ∧ (0x80 ≤ c.toNat ∧ c.toNat < 0xA0) ∧ Continuation d.toNat := by
  cases l with
  | nil => simp [Accepts]
  | cons c m =>
    have hseven := nextState_seven c
    by_cases hone : 0x80 ≤ c.toNat ∧ c.toNat < 0xA0
    · rw [if_pos hone] at hseven
      simp [Accepts, hseven, hone, accepts_one]
    · rw [if_neg hone] at hseven
      by_cases htwo : 0xA0 ≤ c.toNat ∧ c.toNat < 0xC0
      · rw [if_pos htwo] at hseven
        simp [Accepts, hseven, hone, not_accepts_eight]
      · rw [if_neg htwo] at hseven
        simp [Accepts, hseven, hone]

theorem accepts_zero {c : UInt8} {m : List UInt8} : Accepts nextState 0 0 (c :: m) ↔ (c.toNat < 0x80 ∧ m = []) ∨
      ((0xC2 ≤ c.toNat ∧ c.toNat < 0xE0) ∧ Accepts nextState 0 1 m) ∨
      (c.toNat = 0xE0 ∧ Accepts nextState 0 2 m) ∨
      ((0xE1 ≤ c.toNat ∧ c.toNat < 0xF0 ∧ c.toNat ≠ 0xED) ∧ Accepts nextState 0 3 m) ∨
      (c.toNat = 0xED ∧ Accepts nextState 0 7 m) ∨ (c.toNat = 0xF0 ∧ Accepts nextState 0 4 m) ∨
      ((0xF1 ≤ c.toNat ∧ c.toNat < 0xF4) ∧ Accepts nextState 0 5 m) ∨
      (c.toNat = 0xF4 ∧ Accepts nextState 0 6 m) := by
  have hnext := nextState_zero c
  rw [leadState] at hnext
  rw [Accepts]
  split_ifs at hnext <;> simp only [hnext, Option.some.injEq, reduceCtorEq, false_and, exists_false,
    exists_eq_left', true_and] <;> grind

/-- **What the table accepts** from state 0 are the characters. -/
theorem accepts_iff : Accepts nextState 0 0 l ↔ Character (l.map UInt8.toNat) := by
  cases l with
  | nil => simp [Accepts, Character]
  | cons c m =>
    rw [accepts_zero, accepts_one, accepts_pair nextState_two, accepts_pair nextState_three,
      accepts_seven, accepts_triple nextState_four, accepts_triple nextState_five,
      accepts_triple nextState_six]
    -- the cases are the numbers of bytes
    rcases m with _ | ⟨b, _ | ⟨d, _ | ⟨e, _ | ⟨f, m⟩⟩⟩⟩ <;> simp [Character, Continuation]

end Protoc.Stubs
