import Protoc.Stubs.IntTextLeft

/-!
# The parsers and the printers

A parser takes spaces, a sign, digits and spaces.  The loops over the digits differ in the sign
of what they have read, and both stop before a product or a sum leaves the type.
-/

namespace Protoc.Stubs

open Protoc.Lib
open List Option Int

variable {t : IntType} {text digits : List UInt8} {negative : Bool}

/-! ## Texts of integers -/

/-- Spaces, a sign, digits and spaces. -/
structure Spelled (text : List UInt8) (negative : Bool) (digits : List UInt8) : Prop where
  parts : ∃ before sign after, text = before ++ (sign ++ digits) ++ after ∧
    (∀ c ∈ before, c = 32) ∧ (∀ c ∈ after, c = 32) ∧
    (sign = [45] ∧ negative = true ∨ (sign = [] ∨ sign = [43]) ∧ negative = false)
  ne_nil : digits ≠ []
  decimal : ∀ c ∈ digits, IsDecimal c

def signedValue (negative : Bool) (digits : List UInt8) : ℤ :=
  if negative then -(decimalValue digits : ℤ) else decimalValue digits

def trimmed (text : List UInt8) : List UInt8 := (text.dropWhile (· == 32)).rdropWhile (· == 32)

theorem exists_trimmed (text : List UInt8) : ∃ before after, text = before ++ trimmed text ++ after ∧
    (∀ c ∈ before, c = 32) ∧ (∀ c ∈ after, c = 32) := by
  refine ⟨text.takeWhile (· == 32), (text.dropWhile (· == 32)).rtakeWhile (· == 32), ?_, ?_, ?_⟩
  · rw [trimmed, append_assoc, rdropWhile_append_rtakeWhile, takeWhile_append_dropWhile]
  · intro c hc
    exact beq_iff_eq.mp (mem_takeWhile_imp (p := (· == 32)) hc)
  · intro c hc
    exact beq_iff_eq.mp (mem_rtakeWhile_imp (p := (· == 32)) hc)

theorem trimmed_eq {before core after : List UInt8} (hbefore : ∀ c ∈ before, c = 32)
    (hafter : ∀ c ∈ after, c = 32) (hhead : ∀ c ∈ core.head?, c ≠ 32)
    (hlast : ∀ c ∈ core.getLast?, c ≠ 32) (hne : core ≠ []) : trimmed (before ++ core ++ after) = core := by
  have hfront : (core ++ after).dropWhile (· == 32) = core ++ after := by
    cases core with
    | nil => exact absurd rfl hne
    | cons c core => exact dropWhile_cons_of_neg (by simpa using hhead c rfl)
  have hback : after.reverse.dropWhile (· == 32) = [] := by simpa using hafter
  rw [trimmed, append_assoc, dropWhile_append_of_pos (by simpa using hbefore), hfront,
    rdropWhile, reverse_append, dropWhile_append, hback]
  rcases eq_nil_or_concat core with rfl | ⟨core, c, rfl⟩
  · exact absurd rfl hne
  · rw [concat_eq_append] at hlast ⊢
    simp [hlast c (by simp)]

theorem ne_of_isDecimal {c d : UInt8} (h : IsDecimal c) (hd : ¬ IsDecimal d) : c ≠ d := by
  rintro rfl
  exact hd h

theorem safeParseSign_eq (text : List UInt8) : safeParseSign text = match trimmed text with
    | [] => none
    | c :: rest => if c = 45 ∨ c = 43 then if rest = [] then none else some (decide (c = 45), rest)
      else some (false, c :: rest) := rfl

theorem safeParseSign_spelled (h : Spelled text negative digits) :
    safeParseSign text = some (negative, digits) := by
  obtain ⟨before, sign, after, rfl, hbefore, hafter, hsign⟩ := h.parts
  obtain ⟨d, rest, rfl⟩ := exists_cons_of_ne_nil h.ne_nil
  have hd := h.decimal d mem_cons_self
  have hlast : ∀ c ∈ (sign ++ d :: rest).getLast?, c ≠ 32 := by
    rw [List.getLast?_append_of_ne_nil _ h.ne_nil]
    intro c hc
    exact ne_of_isDecimal (h.decimal c (List.mem_of_mem_getLast? hc)) (by decide)
  rw [safeParseSign_eq]
  rcases hsign with ⟨rfl, rfl⟩ | ⟨rfl | rfl, rfl⟩
  · rw [trimmed_eq hbefore hafter (by simp) hlast (by simp)]
    simp
  · have hne : ¬ (d = 45 ∨ d = 43) :=
      not_or.mpr ⟨ne_of_isDecimal hd (by decide), ne_of_isDecimal hd (by decide)⟩
    rw [trimmed_eq hbefore hafter (by simpa using ne_of_isDecimal hd (by decide)) hlast (by simp)]
    simp [hne]
  · rw [trimmed_eq hbefore hafter (by simp) hlast (by simp)]
    simp

theorem spelled_of_safeParseSign (h : safeParseSign text = some (negative, digits))
    (hdecimal : ∀ c ∈ digits, IsDecimal c) : Spelled text negative digits := by
  obtain ⟨before, after, htext, hbefore, hafter⟩ := exists_trimmed text
  rw [safeParseSign_eq] at h
  cases htrimmed : trimmed text with
  | nil => simp [htrimmed] at h
  | cons c rest =>
    rw [htrimmed] at h htext
    by_cases hsign : c = 45 ∨ c = 43
    · by_cases hrest : rest = []
      · simp [hsign, hrest] at h
      · simp only [if_pos hsign, if_neg hrest, some.injEq, Prod.mk.injEq] at h
        obtain ⟨rfl, rfl⟩ := h
        refine ⟨⟨before, [c], after, htext, hbefore, hafter, ?_⟩, hrest, hdecimal⟩
        rcases hsign with rfl | rfl <;> simp
    · simp only [if_neg hsign, some.injEq, Prod.mk.injEq] at h
      obtain ⟨rfl, rfl⟩ := h
      exact ⟨⟨before, [], after, htext, hbefore, hafter, .inr ⟨.inl rfl, rfl⟩⟩, cons_ne_nil c rest, hdecimal⟩

/-! ## The loops over the digits -/

/-- A loop that reads digits up to a limit, `value` being what it has for a number. -/
structure DigitLoop (loop : ℤ → List UInt8 → Option (Bool × ℤ)) (value : ℕ → ℤ) (limit : ℕ) :
    Prop where
  nil : ∀ n, loop (value n) [] = some (true, value n)
  stop : ∀ n c text, ¬ IsDecimal c → loop (value n) (c :: text) = some (false, value n)
  next : ∀ n c text, n ≤ limit → IsDecimal c → loop (value n) (c :: text) =
      if n * 10 + (c.toNat - 48) ≤ limit then loop (value (n * 10 + (c.toNat - 48))) text
      else some (false, value limit)

variable {loop : ℤ → List UInt8 → Option (Bool × ℤ)} {value : ℕ → ℤ} {limit : ℕ}

theorem DigitLoop.read (hloop : DigitLoop loop value limit) {digits : List UInt8}
    (hdigits : ∀ c ∈ digits, IsDecimal c) {n : ℕ} (hn : n ≤ limit) :
    loop (value n) digits = if numeral 10 n (digits.map fun c => c.toNat - 48) ≤ limit then
        some (true, value (numeral 10 n (digits.map fun c => c.toNat - 48)))
      else some (false, value limit) := by
  induction digits generalizing n with
  | nil => rw [hloop.nil, map_nil, numeral_nil, if_pos hn]
  | cons c digits ih =>
    rw [hloop.next n c digits hn (hdigits c mem_cons_self), map_cons, numeral_cons]
    split
    · next hroom => exact ih (fun d hd => hdigits d (mem_cons_of_mem c hd)) hroom
    · next hfull =>
      -- what is over the limit on the way is over it at the end
      have hle := @le_numeral 10 (n * 10 + (c.toNat - 48)) (by decide)
        (digits.map fun c => c.toNat - 48)
      rw [if_neg (by omega)]

theorem DigitLoop.other (hloop : DigitLoop loop value limit) {text : List UInt8}
    (htext : ¬ ∀ c ∈ text, IsDecimal c) {n : ℕ} (hn : n ≤ limit) :
    ∃ v, loop (value n) text = some (false, v) := by
  induction text generalizing n with
  | nil => exact absurd (by simp) htext
  | cons c text ih =>
    by_cases hc : IsDecimal c
    · rw [hloop.next n c text hn hc]
      split
      · next hroom =>
        refine ih (fun h => htext fun d hd => ?_) hroom
        rcases mem_cons.mp hd with rfl | hd
        · exact hc
        · exact h d hd
      · exact ⟨_, rfl⟩
    · exact ⟨_, hloop.stop n c text hc⟩

theorem digit_cases (c : UInt8) : ¬ IsDecimal c ∧ (10 ≤ (c.toNat : ℤ) - 48 ∨ (c.toNat : ℤ) - 48 < 0) ∨
      IsDecimal c ∧ ¬ (10 ≤ (c.toNat : ℤ) - 48 ∨ (c.toNat : ℤ) - 48 < 0) ∧
        ∃ digit < 10, c.toNat - 48 = digit ∧ (c.toNat : ℤ) - 48 = digit := by
  by_cases hc : IsDecimal c
  · have hbounds := hc
    rw [IsDecimal] at hbounds
    exact .inr ⟨hc, by omega, c.toNat - 48, by omega, rfl, by omega⟩
  · have hbounds := hc
    rw [IsDecimal] at hbounds
    exact .inl ⟨hc, by omega⟩

theorem digitLoop_positive {limit : ℕ} (hmax : t.max = limit) (hten : 10 ≤ limit)
    (hmin : t.min ≤ 0) : DigitLoop (safeParsePositiveLoop t) (fun n => (n : ℤ)) limit where
  nil n := rfl
  stop n c text hc := by
    obtain ⟨-, hstop⟩ | ⟨hdecimal, -⟩ := digit_cases c
    · rw [safeParsePositiveLoop]
      exact if_pos hstop
    · exact absurd hdecimal hc
  next n c text hn hc := by
    obtain ⟨hnot, -⟩ | ⟨-, hgo, digit, hdigit, hnat, hint⟩ := digit_cases c
    · exact absurd hc hnot
    have hdiv : t.max.tdiv 10 = (limit / 10 : ℕ) := by
      rw [hmax, ofNat_tdiv]
      rfl
    rw [safeParsePositiveLoop]
    simp only [if_neg hgo]
    rw [hint, hnat, hdiv, hmax]
    by_cases hlarge : limit / 10 < n
    · rw [if_pos (by omega), if_neg (by omega)]
    · rw [if_neg (by omega), check_eq (by omega), bind_eq_bind, bind_some,
        check_eq (by omega), bind_some]
      by_cases hover : limit - digit < n * 10
      · rw [if_pos (by omega), if_neg (by omega)]
      · rw [if_neg (by omega), if_pos (by omega), check_eq (by omega), bind_some]
        rfl

theorem digitLoop_negative {limit : ℕ} (hmin : t.min = -limit) (hten : 10 ≤ limit)
    (hmax : 0 ≤ t.max) : DigitLoop (safeParseNegativeLoop t) (fun n => -(n : ℤ)) limit where
  nil n := rfl
  stop n c text hc := by
    obtain ⟨-, hstop⟩ | ⟨hdecimal, -⟩ := digit_cases c
    · rw [safeParseNegativeLoop]
      exact if_pos hstop
    · exact absurd hdecimal hc
  next n c text hn hc := by
    obtain ⟨hnot, -⟩ | ⟨-, hgo, digit, hdigit, hnat, hint⟩ := digit_cases c
    · exact absurd hc hnot
    have hdiv : vminOverBase t = -(limit / 10 : ℕ) := by
      have hmod : ¬ 0 < (-(limit : ℤ)).tmod 10 := by
        rw [neg_tmod, tmod_eq_emod_of_nonneg (natCast_nonneg limit)]
        omega
      rw [vminOverBase, hmin, if_neg hmod, Int.neg_tdiv, ofNat_tdiv]
      rfl
    rw [safeParseNegativeLoop]
    simp only [if_neg hgo]
    rw [hint, hnat, hdiv, hmin]
    by_cases hlarge : limit / 10 < n
    · rw [if_pos (by omega), if_neg (by omega)]
    · rw [if_neg (by omega), check_eq (by omega), bind_eq_bind, bind_some,
        check_eq (by omega), bind_some]
      by_cases hover : limit - digit < n * 10
      · rw [if_pos (by omega), if_neg (by omega)]
      · have hnext : -(n : ℤ) * 10 - digit = -((n * 10 + digit : ℕ) : ℤ) := by omega
        rw [if_neg (by omega), if_pos (by omega), check_eq (by omega), bind_some, hnext]

/-! ## The parsers -/

/-- **A parser of a type.**  It returns true for the texts of the integers of the type, with the
integer; the text of another integer leaves the limit that is nearest; and it always returns.  An
unsigned parser takes no minus. -/
structure Parses (t : IntType) (signed : Bool) (parse : List UInt8 → Option (Bool × ℤ)) : Prop where
  true_iff : ∀ text v, parse text = some (true, v) ↔
    ∃ negative digits, Spelled text negative digits ∧ (negative = true → signed = true) ∧
      signedValue negative digits = v ∧ t.min ≤ v ∧ v ≤ t.max
  saturates : ∀ text negative digits, Spelled text negative digits →
    ¬ (t.min ≤ signedValue negative digits ∧ signedValue negative digits ≤ t.max) →
    parse text = some (false, if signedValue negative digits < t.min then t.min else t.max)
  returns : ∀ text, ∃ r, parse text = some r

/-- A parser that reads the digits behind a sign with a loop. -/
theorem parses_of_loops {signed : Bool} {parse : List UInt8 → Option (Bool × ℤ)}
    (loops : Bool → List UInt8 → Option (Bool × ℤ))
    (hnone : ∀ text, safeParseSign text = none → parse text = some (false, 0))
    (hsome : ∀ text negative rest, safeParseSign text = some (negative, rest) →
      parse text = loops negative rest)
    (hread : ∀ negative digits, (∀ c ∈ digits, IsDecimal c) → loops negative digits =
      some (decide ((negative = true → signed = true) ∧ t.min ≤ signedValue negative digits ∧
        signedValue negative digits ≤ t.max),
        if signedValue negative digits < t.min then t.min
        else if t.max < signedValue negative digits then t.max
        else signedValue negative digits))
    (hother : ∀ negative text, ¬ (∀ c ∈ text, IsDecimal c) →
      ∃ v, loops negative text = some (false, v)) : Parses t signed parse where
  true_iff text v := by
    constructor
    · intro hparse
      cases hsign : safeParseSign text with
      | none =>
        rw [hnone text hsign] at hparse
        simp at hparse
      | some r =>
        obtain ⟨negative, rest⟩ := r
        rw [hsome text negative rest hsign] at hparse
        by_cases hdecimal : ∀ c ∈ rest, IsDecimal c
        · rw [hread negative rest hdecimal] at hparse
          obtain ⟨htrue, hvalue⟩ := Prod.mk.inj (some.inj hparse)
          obtain ⟨hsigned, hmin, hmax⟩ := of_decide_eq_true htrue
          rw [if_neg (not_lt.mpr hmin), if_neg (not_lt.mpr hmax)] at hvalue
          exact ⟨negative, rest, spelled_of_safeParseSign hsign hdecimal, hsigned, hvalue,
            hvalue ▸ hmin, hvalue ▸ hmax⟩
        · obtain ⟨v', hfalse⟩ := hother negative rest hdecimal
          rw [hfalse] at hparse
          simp at hparse
    · rintro ⟨negative, digits, hspelled, hsigned, rfl, hmin, hmax⟩
      rw [hsome text negative digits (safeParseSign_spelled hspelled),
        hread negative digits hspelled.decimal, decide_eq_true ⟨hsigned, hmin, hmax⟩,
        if_neg (not_lt.mpr hmin), if_neg (not_lt.mpr hmax)]
  saturates text negative digits hspelled hout := by
    rw [hsome text negative digits (safeParseSign_spelled hspelled),
      hread negative digits hspelled.decimal, decide_eq_false fun h => hout h.2]
    split_ifs <;> first | rfl | omega
  returns text := by
    cases hsign : safeParseSign text with
    | none => exact ⟨_, hnone text hsign⟩
    | some r =>
      rw [hsome text r.1 r.2 hsign]
      by_cases hdecimal : ∀ c ∈ r.2, IsDecimal c
      · exact ⟨_, hread r.1 r.2 hdecimal⟩
      · obtain ⟨v, hfalse⟩ := hother r.1 r.2 hdecimal
        exact ⟨_, hfalse⟩

theorem safeParsePositiveInt_eq {limit : ℕ} (hmax : t.max = limit) (hten : 10 ≤ limit)
    (hmin : t.min ≤ 0) (hdigits : ∀ c ∈ digits, IsDecimal c) :
    safeParsePositiveInt t digits =
      some (decide (t.min ≤ signedValue false digits ∧ signedValue false digits ≤ t.max),
        if signedValue false digits < t.min then t.min
        else if t.max < signedValue false digits then t.max else signedValue false digits) := by
  have hread := (digitLoop_positive hmax hten hmin).read hdigits (Nat.zero_le limit)
  have hvalue : signedValue false digits =
      (numeral 10 0 (digits.map fun c => c.toNat - 48) : ℕ) := rfl
  rw [safeParsePositiveInt, hvalue, hmax, if_neg (by omega)]
  refine hread.trans ?_
  split_ifs with hle hlt hlt
  · omega
  · rw [decide_eq_true (by omega)]
  · rw [decide_eq_false (by omega)]
  · omega

theorem safeParseNegativeInt_eq {limit : ℕ} (hmin : t.min = -limit) (hten : 10 ≤ limit)
    (hmax : 0 ≤ t.max) (hdigits : ∀ c ∈ digits, IsDecimal c) :
    safeParseNegativeInt t digits = some (decide (t.min ≤ signedValue true digits),
      if signedValue true digits < t.min then t.min else signedValue true digits) := by
  have hread := (digitLoop_negative hmin hten hmax).read hdigits (Nat.zero_le limit)
  have hvalue : signedValue true digits =
      -(numeral 10 0 (digits.map fun c => c.toNat - 48) : ℕ) := rfl
  rw [safeParseNegativeInt, hvalue, hmin]
  refine hread.trans ?_
  split_ifs with hle hlt hlt
  · omega
  · rw [decide_eq_true (by omega)]
  · rw [decide_eq_false (by omega)]
  · omega


theorem parses_safeIntInternal (least greatest : ℕ) (hmin : t.min = -least)
    (hmax : t.max = greatest) (hleast : 10 ≤ least) (hgreatest : 10 ≤ greatest) :
    Parses t true (safeIntInternal t) := by
  refine parses_of_loops (fun negative text =>
    if negative then safeParseNegativeInt t text else safeParsePositiveInt t text)
    (fun text h => by rw [safeIntInternal, h]) (fun text negative rest h => by
      rw [safeIntInternal, h]) ?_ ?_
  · intro negative digits hdigits
    cases negative with
    | false =>
      rw [if_neg Bool.false_ne_true, safeParsePositiveInt_eq hmax hgreatest (by omega) hdigits]
      simp
    | true =>
      have hnonpos : signedValue true digits ≤ 0 := Int.neg_nonpos_of_nonneg (natCast_nonneg _)
      have hle : signedValue true digits ≤ t.max := by omega
      rw [if_pos rfl, safeParseNegativeInt_eq hmin hleast (by omega) hdigits,
        if_neg (not_lt.mpr hle)]
      simp [hle]
  · intro negative text htext
    cases negative with
    | false => exact (digitLoop_positive hmax hgreatest (by omega)).other htext (Nat.zero_le _)
    | true => exact (digitLoop_negative hmin hleast (by omega)).other htext (Nat.zero_le _)

theorem parses_safeUintInternal (greatest : ℕ) (hmin : t.min = 0) (hmax : t.max = greatest)
    (hgreatest : 10 ≤ greatest) : Parses t false (safeUintInternal t) := by
  refine parses_of_loops (fun negative text =>
    if negative then some (false, 0) else safeParsePositiveInt t text)
    (fun text h => by rw [safeUintInternal, h]) (fun text negative rest h => by
      rw [safeUintInternal, h]) ?_ ?_
  · intro negative digits hdigits
    cases negative with
    | false =>
      rw [if_neg Bool.false_ne_true, safeParsePositiveInt_eq hmax hgreatest (by omega) hdigits]
      simp
    | true =>
      have hnonpos : signedValue true digits ≤ 0 := Int.neg_nonpos_of_nonneg (natCast_nonneg _)
      rw [if_pos rfl]
      split_ifs <;> simp <;> omega
  · intro negative text htext
    cases negative with
    | false => exact (digitLoop_positive hmax hgreatest (by omega)).other htext (Nat.zero_le _)
    | true => exact ⟨0, rfl⟩

/-! ## One behind the other -/

theorem spelled_decimalInt (i : ℤ) : Spelled (decimalInt i) (decide (i < 0)) (decimal i.natAbs) where
  parts := by
    rw [decimalInt]
    split_ifs with h
    · exact ⟨[], [45], [], by simp, by simp, by simp, .inl ⟨rfl, decide_eq_true h⟩⟩
    · exact ⟨[], [], [], by simp, by simp, by simp, .inr ⟨.inl rfl, decide_eq_false h⟩⟩
  ne_nil := decimal_ne_nil i.natAbs
  decimal := isDecimal_decimal i.natAbs

theorem signedValue_decimalInt (i : ℤ) : signedValue (decide (i < 0)) (decimal i.natAbs) = i := by
  rw [signedValue, decimalValue_decimal]
  split_ifs with h
  · have hneg := of_decide_eq_true h
    omega
  · have hnonneg := of_decide_eq_false (Bool.not_eq_true _ ▸ h)
    omega

theorem Parses.decimalInt {signed : Bool} {parse : List UInt8 → Option (Bool × ℤ)}
    (h : Parses t signed parse) {i : ℤ} (hi : t.min ≤ i ∧ i ≤ t.max)
    (hsigned : i < 0 → signed = true) : parse (decimalInt i) = some (true, i) :=
  (h.true_iff _ i).mpr ⟨_, _, spelled_decimalInt i, fun hneg => hsigned (of_decide_eq_true hneg),
    signedValue_decimalInt i, hi⟩

/-- A printer to the end of a buffer of at least `size` bytes. -/
def PrintsIn (size : ℕ) (print : List UInt8 → Option (List UInt8 × ℤ)) (text : List UInt8) : Prop :=
  ∀ buffer, size ≤ buffer.length →
    ∃ buffer' p, print buffer = some (buffer', p) ∧ CStringAt buffer' p text

/-- A printer to the start of a buffer of at least `size` bytes: it returns the end of the text. -/
def PrintsLeftIn (size : ℕ) (print : List UInt8 → Option (List UInt8 × ℤ)) (text : List UInt8) : Prop :=
  ∀ buffer, size ≤ buffer.length →
    ∃ buffer', print buffer = some (buffer', (text.length : ℤ)) ∧ CStringAt buffer' 0 text

theorem printsLeftIn_of_puts {size : ℕ} {put : Cursor → Option Cursor} (hput : Puts put text)
    (hzero : 0 ∉ text) (hsize : text.length < size) : PrintsLeftIn size (toBufferLeft put) text :=
  fun buffer hbuffer => ⟨_, toBufferLeft_eq hput (hsize.trans_le hbuffer),
    ⟨[], buffer.drop (text.length + 1), by simp, rfl⟩, hzero⟩

theorem length_decimalInt_le {i : ℤ} {k : ℕ} (hk : 0 < k) (hi : i.natAbs < 10 ^ k) :
    (decimalInt i).length ≤ k + 1 := by
  have hlength := length_decimal_le hk hi
  rw [decimalInt]
  split_ifs
  · exact Nat.succ_le_succ hlength
  · exact hlength.trans (Nat.le_succ k)

theorem int32_bounds (i : Int32) : -2 ^ 31 ≤ i.toInt ∧ i.toInt ≤ 2 ^ 31 - 1 :=
  ⟨i.le_toInt, le_sub_one_of_lt i.toInt_lt⟩

theorem int64_bounds (i : Int64) : -2 ^ 63 ≤ i.toInt ∧ i.toInt ≤ 2 ^ 63 - 1 :=
  ⟨i.le_toInt, le_sub_one_of_lt i.toInt_lt⟩

theorem parses_safeStrto32 : Parses .int32 true safeStrto32 :=
  parses_safeIntInternal (2 ^ 31) (2 ^ 31 - 1) rfl rfl (by decide) (by decide)

theorem parses_safeStrto64 : Parses .int64 true safeStrto64 :=
  parses_safeIntInternal (2 ^ 63) (2 ^ 63 - 1) rfl rfl (by decide) (by decide)

theorem parses_safeStrtou32 : Parses .uint32 false safeStrtou32 :=
  parses_safeUintInternal (2 ^ 32 - 1) rfl rfl (by decide)

theorem parses_safeStrtou64 : Parses .uint64 false safeStrtou64 :=
  parses_safeUintInternal (2 ^ 64 - 1) rfl rfl (by decide)

/-- **The conversions between integers and decimal texts.**  The printers write the canonical
text in a buffer of the size that their comments give; the parsers take the texts of the integers
of their types, and saturate; and a printed integer is read back. -/
theorem decimal_conversions :
    ((∀ i : Int32, PrintsIn 12 (fastInt32ToBuffer i) (decimalInt i.toInt)) ∧
      (∀ i : Int64, PrintsIn 22 (fastInt64ToBuffer i) (decimalInt i.toInt)) ∧
      (∀ u : UInt32, PrintsLeftIn 12 (fastUInt32ToBufferLeft u) (decimalInt u.toNat)) ∧
      (∀ i : Int32, PrintsLeftIn 12 (fastInt32ToBufferLeft i) (decimalInt i.toInt)) ∧
      (∀ u : UInt64, PrintsLeftIn 22 (fastUInt64ToBufferLeft u) (decimalInt u.toNat)) ∧
      ∀ i : Int64, PrintsLeftIn 22 (fastInt64ToBufferLeft i) (decimalInt i.toInt)) ∧
    (Parses .int32 true safeStrto32 ∧ Parses .uint32 false safeStrtou32 ∧
      Parses .int64 true safeStrto64 ∧ Parses .uint64 false safeStrtou64) ∧
    (∀ i : Int32, safeStrto32 (decimalInt i.toInt) = some (true, i.toInt)) ∧
      (∀ u : UInt32, safeStrtou32 (decimalInt u.toNat) = some (true, (u.toNat : ℤ))) ∧
      (∀ i : Int64, safeStrto64 (decimalInt i.toInt) = some (true, i.toInt)) ∧
      ∀ u : UInt64, safeStrtou64 (decimalInt u.toNat) = some (true, (u.toNat : ℤ)) := by
  refine ⟨⟨?_, ?_, ?_, ?_, ?_, ?_⟩, ⟨parses_safeStrto32, parses_safeStrtou32, parses_safeStrto64,
    parses_safeStrtou64⟩, ?_, ?_, ?_, ?_⟩
  · intro i buffer hbuffer
    have hi := int32_bounds i
    exact fastIntToBuffer_prints (t := .int32) 10 11 rfl (by decide) (by decide)
      (by decide) hi (by omega) (by omega)
  · intro i buffer hbuffer
    have hi := int64_bounds i
    exact fastIntToBuffer_prints (t := .int64) 20 21 rfl (by decide) (by decide)
      (by decide) hi (by omega) (by omega)
  · intro u
    have hu := u.toNat_lt
    rw [decimalInt_natCast]
    exact printsLeftIn_of_puts (puts_putUInt32 hu) (zero_not_mem_decimal _)
      (lt_of_le_of_lt (length_decimal_le (k := 10) (by decide) (by omega)) (by decide))
  · intro i
    have hi := int32_bounds i
    exact printsLeftIn_of_puts
      (puts_putSigned (2 ^ 32) (by omega) (puts_putUInt32 (by omega)))
      (zero_not_mem_decimalInt _)
      (lt_of_le_of_lt (length_decimalInt_le (k := 10) (by decide) (by omega)) (by decide))
  · intro u
    have hu := u.toNat_lt
    rw [decimalInt_natCast]
    exact printsLeftIn_of_puts (puts_putUInt64 hu) (zero_not_mem_decimal _)
      (lt_of_le_of_lt (length_decimal_le (k := 20) (by decide) (by omega)) (by decide))
  · intro i
    have hi := int64_bounds i
    exact printsLeftIn_of_puts
      (puts_putSigned (2 ^ 64) (by omega) (puts_putUInt64 (by omega)))
      (zero_not_mem_decimalInt _)
      (lt_of_le_of_lt (length_decimalInt_le (k := 20) (by decide) (by omega)) (by decide))
  · intro i
    exact parses_safeStrto32.decimalInt (int32_bounds i) fun _ => rfl
  · intro u
    have hu := u.toNat_lt
    exact parses_safeStrtou32.decimalInt ⟨natCast_nonneg _, by simp only [IntType.uint32]; omega⟩
      fun h => absurd h (not_lt.mpr (natCast_nonneg _))
  · intro i
    exact parses_safeStrto64.decimalInt (int64_bounds i) fun _ => rfl
  · intro u
    have hu := u.toNat_lt
    exact parses_safeStrtou64.decimalInt ⟨natCast_nonneg _, by simp only [IntType.uint64]; omega⟩
      fun h => absurd h (not_lt.mpr (natCast_nonneg _))

/-- The least `int32` fills its buffer. -/
theorem decimal_conversions_least : ∃ buffer p,
    fastInt32ToBuffer Int32.minValue (replicate 12 0) = some (buffer, p) ∧
      CStringAt buffer p [45, 50, 49, 52, 55, 52, 56, 51, 54, 52, 56] := by
  have h := decimal_conversions.1.1 Int32.minValue (replicate 12 0) (by decide)
  have htext : decimalInt Int32.minValue.toInt = [45, 50, 49, 52, 55, 52, 56, 51, 54, 52, 56] := by
    decide +kernel
  rwa [htext] at h

end Protoc.Stubs
