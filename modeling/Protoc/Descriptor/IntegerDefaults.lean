import Protoc.Descriptor.PoolTables
import Protoc.Io.ParseInteger

/-!
# The default values of integer fields

`BuildFieldOrExtension` parses the default value of an integer field with `strtol` and its relatives, and asks
only where the number ended: white space in front of it, a zero byte behind it and a value outside the type of
the field are not noticed.
-/

namespace Protoc.Descriptor

open Protoc.Lib Protoc.Io Protoc.Io.Tokenizer List

/-! ## The library -/

/-- `isspace`. -/
def isspace (c : UInt8) : Bool := c == 32 || (9 ≤ c && c ≤ 13)

/-- The digits of the bases that base 0 stands for. -/
def digitOf (base : ℕ) : UInt8 → Bool := if base = 16 then hexDigit else if base = 8 then octalDigit else digit

/-- The base of a number, and its digits on. -/
def basePrefix : Text → ℕ × Text
  | 48 :: x :: c :: s =>
    if (x = 120 ∨ x = 88) ∧ hexDigit c = true then (16, c :: s) else (8, 48 :: x :: c :: s)
  | 48 :: s => (8, 48 :: s)
  | s => (10, s)

/-- What is behind an optional sign. -/
def unsigned (s : Text) : Text := if s.head? = some 45 ∨ s.head? = some 43 then s.tail else s

def signed (negative : Bool) (magnitude : ℕ) : ℤ := if negative then -(magnitude : ℤ) else magnitude

/-- What the functions read: whether there is a minus sign, the magnitude, and what is behind; `none` without
a conversion. -/
def strtoSubject (nptr : Text) : Option (Bool × ℕ × Text) :=
  let s := nptr.dropWhile isspace
  let r := basePrefix (unsigned s)
  let digits := r.2.takeWhile (digitOf r.1)
  if digits = [] then none
  else some (s.head? == some 45, numeral r.1 0 (digits.map digitNumber), r.2.dropWhile (digitOf r.1))

/-- `strtol`, for a `long` of so many bits: the value is clamped. -/
def strtol (bits : ℕ) (negative : Bool) (magnitude : ℕ) : ℤ :=
  max (-2 ^ (bits - 1)) (min (signed negative magnitude) (2 ^ (bits - 1) - 1))

/-- `strtoul`: a minus sign negates in the unsigned type. -/
def strtoul (bits : ℕ) (negative : Bool) (magnitude : ℕ) : ℤ :=
  if 2 ^ bits ≤ magnitude then 2 ^ bits - 1 else signed negative magnitude % 2 ^ bits

/-! ## The default value -/

inductive LongWidth
  | ilp32 | lp64

def LongWidth.bits : LongWidth → ℕ
  | ilp32 => 32
  | lp64 => 64

/-- The integer kinds of `CppType`. -/
inductive IntegerType
  | int32 | int64 | uint32 | uint64

/-- The values of the type. -/
def IntegerType.Holds : IntegerType → ℤ → Prop
  | int32, v => -2 ^ 31 ≤ v ∧ v < 2 ^ 31
  | int64, v => -2 ^ 63 ≤ v ∧ v < 2 ^ 63
  | uint32, v => 0 ≤ v ∧ v < 2 ^ 32
  | uint64, v => 0 ≤ v ∧ v < 2 ^ 64

/-- What the default value of the field becomes. -/
def stored (width : LongWidth) : IntegerType → Bool → ℕ → ℤ
  | .int32, negative, magnitude => (strtol width.bits negative magnitude).bmod (2 ^ 32)
  | .int64, negative, magnitude => strtol 64 negative magnitude
  | .uint32, negative, magnitude => strtoul width.bits negative magnitude % 2 ^ 32
  | .uint64, negative, magnitude => strtoul 64 negative magnitude

inductive FieldError
  /-- "Repeated fields can't have default values." -/
  | repeatedDefault
  /-- "Couldn't parse default value", and the value. -/
  | couldntParse (value : Text)
  /-- An error about another part of the field. -/
  | other

/-- A `FieldDescriptorProto` of an integer kind: what is read for the default value, and the errors about the
rest of it. -/
structure IntegerField where
  cppType : IntegerType
  isRepeated : Bool
  defaultValue : Option Text
  others : List FieldError

/-- The part of `BuildFieldOrExtension` about the default value: the errors, and what is stored. -/
def buildDefault (width : LongWidth) (field : IntegerField) : List FieldError × ℤ :=
  match field.defaultValue with
  | none => (field.others, 0)
  | some value =>
    -- without a conversion `end_pos` stands at the start
    let r := (strtoSubject (cStr value)).getD (false, 0, cStr value)
    (field.others ++ (if field.isRepeated then [.repeatedDefault] else []) ++
        (if value = [] ∨ r.2.2 ≠ [] then [.couldntParse value] else []),
      stored width field.cppType r.1 r.2.1)

/-- An integer literal with its value. -/
structure IsLiteral (literal : Text) (v : ℤ) : Prop where
  text : IntegerText (unsigned literal)
  value : v = signed (literal.head? == some 45) (integerValue (unsigned literal))

/-- Without an error, the default value is a literal of the type, and what is stored. -/
def ExactDefault (width : LongWidth) (field : IntegerField) : Prop :=
  (buildDefault width field).1 = [] → ∀ value ∈ field.defaultValue,
    ∃ v, IsLiteral value v ∧ field.cppType.Holds v ∧ (buildDefault width field).2 = v

/-- The value does not start with a zero byte, and when the library reads a number up to the first zero byte,
that is the whole value, without white space in front, and a number of the type. -/
def PlainDefault (type : IntegerType) (value : Text) : Prop :=
  value.head? ≠ some 0 ∧ ∀ negative magnitude, strtoSubject (cStr value) = some (negative, magnitude, []) →
    cStr value = value ∧ value.dropWhile isspace = value ∧ type.Holds (signed negative magnitude)

variable {s text value : Text} {v : ℤ} {negative : Bool} {magnitude : ℕ}

theorem not_x_of_octalDigit {x : UInt8} (h : octalDigit x = true) : ¬ (x = 120 ∨ x = 88) := by
  rintro (rfl | rfl)
  · exact absurd h (by decide)
  · exact absurd h (by decide)

/-- The text of an integer is its prefix and digits of the base. -/
theorem integerText_iff : IntegerText text ↔
    (basePrefix text).2 ≠ [] ∧ ∀ c ∈ (basePrefix text).2, digitOf (basePrefix text).1 c = true := by
  fun_cases basePrefix text with
  | case1 x c s h =>
    refine ⟨fun htext => ⟨cons_ne_nil _ _, ?_⟩, fun hdigits => .hex h.1 hdigits.1 hdigits.2⟩
    cases htext with
    | decimal hc => exact absurd rfl hc
    | octal hdigits => exact absurd h.1 (not_x_of_octalDigit (hdigits x mem_cons_self))
    | hex hx hne hdigits => exact hdigits
  | case2 x c s h =>
    refine ⟨fun htext => ⟨cons_ne_nil _ _, ?_⟩, fun hdigits => .octal (forall_mem_cons.mp hdigits.2).2⟩
    cases htext with
    | decimal hc => exact absurd rfl hc
    | octal hdigits => exact forall_mem_cons.mpr ⟨rfl, hdigits⟩
    | hex hx hne hdigits => exact absurd ⟨hx, hdigits c mem_cons_self⟩ h
  | case3 s hshort =>
    refine ⟨fun htext => ⟨cons_ne_nil _ _, ?_⟩, fun hdigits => .octal (forall_mem_cons.mp hdigits.2).2⟩
    cases htext with
    | decimal hc => exact absurd rfl hc
    | octal hdigits => exact forall_mem_cons.mpr ⟨rfl, hdigits⟩
    | @hex x digits hx hne hdigits =>
      obtain ⟨c, rest, rfl⟩ := exists_cons_of_ne_nil hne
      exact absurd rfl (hshort x c rest)
  | case4 s hlong hzero =>
    constructor
    · intro htext
      cases htext with
      | decimal hc hdigits => exact ⟨cons_ne_nil _ _, hdigits⟩
      | octal => exact absurd rfl (hzero _)
      | hex => exact absurd rfl (hzero _)
    · rintro ⟨hne, hdigits⟩
      obtain ⟨c, rest, rfl⟩ := exists_cons_of_ne_nil hne
      exact .decimal (fun hc => hzero rest (by rw [hc])) hdigits

theorem numeral_basePrefix (h : IntegerText text) :
    numeral (basePrefix text).1 0 ((basePrefix text).2.map digitNumber) = integerValue text := by
  have hx := integerText_iff.mp h
  fun_cases basePrefix text with
  | case1 x c s hprefix => rw [integerValue, if_pos hprefix.1]
  | case2 x c s hprefix =>
    rw [basePrefix, if_neg hprefix] at hx
    rw [integerValue, if_neg (not_x_of_octalDigit (hx.2 x (mem_cons_of_mem _ mem_cons_self)))]
    rfl
  | case3 s hshort =>
    rw [basePrefix.eq_2 _ hshort] at hx
    cases s with
    | nil => rfl
    | cons x s =>
      rw [integerValue, if_neg (not_x_of_octalDigit (hx.2 x (mem_cons_of_mem _ mem_cons_self)))]
      rfl
  | case4 s hlong hzero =>
    rw [integerValue.eq_2 _ fun x digits => hzero _]

/-- No byte of a literal is white space or a zero. -/
theorem plain_of_integerText (h : IntegerText text) : ∀ c ∈ text, c ≠ 0 ∧ isspace c = false := by
  have hdigit : ∀ c, (digit c = true ∨ octalDigit c = true) ∨ hexDigit c = true ∨ c = 120 ∨ c = 88 →
      c ≠ 0 ∧ isspace c = false :=
    forall_byte (by decide +kernel)
  cases h with
  | decimal hc hdigits => exact fun c hmem => hdigit c (.inl (.inl (hdigits c hmem)))
  | octal hdigits =>
    exact forall_mem_cons.mpr ⟨by decide, fun c hmem => hdigit c (.inl (.inr (hdigits c hmem)))⟩
  | hex hx hne hdigits =>
    exact forall_mem_cons.mpr ⟨by decide, forall_mem_cons.mpr ⟨hdigit _ (.inr (.inr hx)),
      fun c hmem => hdigit c (.inr (.inl (hdigits c hmem)))⟩⟩

theorem IsLiteral.plain (h : IsLiteral s v) : ∀ c ∈ s, c ≠ 0 ∧ isspace c = false := by
  have htext := plain_of_integerText h.text
  rw [unsigned] at htext
  split_ifs at htext with hsign
  · cases s with
    | nil => simp
    | cons c s =>
      refine forall_mem_cons.mpr ⟨?_, htext⟩
      rcases hsign with hsign | hsign
      · obtain rfl : c = 45 := by simpa using hsign
        decide
      · obtain rfl : c = 43 := by simpa using hsign
        decide
  · exact htext

/-- A literal is what the library reads to the end. -/
theorem isLiteral_iff (hs : s.dropWhile isspace = s) : IsLiteral s v ↔
    ∃ negative magnitude, strtoSubject s = some (negative, magnitude, []) ∧ v = signed negative magnitude := by
  rw [strtoSubject, hs]
  constructor
  · rintro ⟨htext, rfl⟩
    obtain ⟨hne, hdigits⟩ := integerText_iff.mp htext
    refine ⟨_, _, ?_, rfl⟩
    rw [if_neg (by rwa [takeWhile_eq_self_iff.mpr hdigits]), takeWhile_eq_self_iff.mpr hdigits,
      dropWhile_eq_nil_iff.mpr hdigits, numeral_basePrefix htext]
  · rintro ⟨negative, magnitude, hsubject, rfl⟩
    split_ifs at hsubject with hne
    simp only [Option.some.injEq, Prod.mk.injEq, dropWhile_eq_nil_iff] at hsubject
    obtain ⟨rfl, rfl, hdigits⟩ := hsubject
    rw [takeWhile_eq_self_iff.mpr hdigits] at hne ⊢
    have htext := integerText_iff.mpr ⟨hne, hdigits⟩
    exact ⟨htext, by rw [numeral_basePrefix htext]⟩

/-- A number of the type is stored as it is. -/
theorem stored_eq (width : LongWidth) (type : IntegerType) (h : type.Holds (signed negative magnitude)) :
    stored width type negative magnitude = signed negative magnitude := by
  have hsigned : signed negative magnitude = -magnitude ∨ signed negative magnitude = magnitude := by
    rw [signed]
    split_ifs
    · exact .inl rfl
    · exact .inr rfl
  generalize hv : signed negative magnitude = v at *
  cases type with
  | int32 =>
    obtain ⟨hlow, hhigh⟩ := h
    have hclamp : strtol width.bits negative magnitude = v := by
      rw [strtol, hv]
      cases width <;> simp only [LongWidth.bits] <;> omega
    rw [stored, hclamp]
    exact Int.bmod_eq_of_le (by omega) (by omega)
  | int64 =>
    obtain ⟨hlow, hhigh⟩ := h
    rw [stored, strtol, hv]
    omega
  | uint32 =>
    obtain ⟨hlow, hhigh⟩ := h
    have hmod : strtoul width.bits negative magnitude = v := by
      rw [strtoul, hv]
      cases width <;> simp only [LongWidth.bits] <;> split_ifs <;> omega
    rw [stored, hmod]
    omega
  | uint64 =>
    obtain ⟨hlow, hhigh⟩ := h
    rw [stored, strtoul, hv]
    split_ifs <;> omega

variable {width : LongWidth} {field : IntegerField}

theorem buildDefault_eq_nil (hvalue : field.defaultValue = some value) : (buildDefault width field).1 = [] ↔
    field.others = [] ∧ field.isRepeated = false ∧ value ≠ [] ∧
      ((strtoSubject (cStr value)).getD (false, 0, cStr value)).2.2 = [] := by
  simp only [buildDefault, hvalue, append_eq_nil_iff, ite_eq_right_iff, imp_false, not_or, not_not,
    Bool.not_eq_true, and_assoc, ne_eq, cons_ne_nil]

theorem cStr_eq_nil_iff : cStr value = [] ↔ value = [] ∨ value.head? = some 0 := by
  cases value with
  | nil => exact iff_of_true rfl (.inl rfl)
  | cons c rest => simp [cStr, takeWhile_cons]

/-- The default value is exact just when an error is reported anyway or the value is plain. -/
theorem exactDefault_iff (width : LongWidth) (field : IntegerField) : ExactDefault width field ↔
    field.others ≠ [] ∨ field.isRepeated = true ∨
      ∀ value ∈ field.defaultValue, PlainDefault field.cppType value := by
  rw [or_iff_not_imp_left, not_not, or_iff_not_imp_left, Bool.not_eq_true, ExactDefault]
  cases hdefault : field.defaultValue with
  | none => simp
  | some value =>
    rw [buildDefault_eq_nil hdefault]
    simp only [Option.mem_def, Option.some.injEq, forall_eq']
    have hbuilt : (buildDefault width field).2 =
        stored width field.cppType ((strtoSubject (cStr value)).getD (false, 0, cStr value)).1
          ((strtoSubject (cStr value)).getD (false, 0, cStr value)).2.1 := by
      rw [buildDefault, hdefault]
    rw [hbuilt]
    constructor
    · intro hexact hothers hrepeated
      -- without an error the value is a literal, so no byte of it is white space or a zero
      have hplain : ∀ {v}, IsLiteral value v → cStr value = value ∧ value.dropWhile isspace = value := by
        intro v hliteral
        refine ⟨takeWhile_eq_self_iff.mpr fun c hc => by simpa using (hliteral.plain c hc).1, ?_⟩
        cases value with
        | nil => rfl
        | cons c rest => rw [dropWhile_cons, (hliteral.plain c mem_cons_self).2]; rfl
      refine ⟨fun hzero => ?_, fun negative magnitude hsubject => ?_⟩
      · have hempty := cStr_eq_nil_iff.mpr (.inr hzero)
        have hne : value ≠ [] := by
          rintro rfl
          cases hzero
        rw [hempty] at hexact
        obtain ⟨v, hliteral, -⟩ := hexact ⟨hothers, hrepeated, hne, rfl⟩
        exact hne ((hplain hliteral).1.symm.trans hempty)
      · have hne : value ≠ [] := by
          rintro rfl
          cases hsubject
        rw [hsubject] at hexact
        obtain ⟨v, hliteral, hholds, hstored⟩ := hexact ⟨hothers, hrepeated, hne, rfl⟩
        obtain ⟨hcStr, hspace⟩ := hplain hliteral
        rw [hcStr] at hsubject
        obtain ⟨negative', magnitude', hsubject', rfl⟩ := (isLiteral_iff hspace).mp hliteral
        rw [hsubject, Option.some.injEq, Prod.mk.injEq, Prod.mk.injEq] at hsubject'
        obtain ⟨rfl, rfl, -⟩ := hsubject'
        exact ⟨hcStr, hspace, hholds⟩
    · rintro hplain ⟨hothers, hrepeated, hne, hend⟩
      obtain ⟨hzero, hall⟩ := hplain hothers hrepeated
      cases hsubject : strtoSubject (cStr value) with
      | none =>
        rw [hsubject, Option.getD_none] at hend
        exact absurd (cStr_eq_nil_iff.mp hend) (not_or.mpr ⟨hne, hzero⟩)
      | some r =>
        obtain ⟨negative, magnitude, rest⟩ := r
        rw [hsubject, Option.getD_some] at hend
        obtain rfl : rest = [] := hend
        obtain ⟨hcStr, hspace, hholds⟩ := hall negative magnitude hsubject
        rw [hcStr] at hsubject
        exact ⟨_, (isLiteral_iff hspace).mpr ⟨negative, magnitude, hsubject, rfl⟩, hholds,
          stored_eq width field.cppType hholds⟩

/-- With a `long` of 64 bits, the default value `4294967296` of an `int32` becomes 0. -/
theorem not_exactDefault : ¬ExactDefault .lp64
    ⟨.int32, false, some [52, 50, 57, 52, 57, 54, 55, 50, 57, 54], []⟩ := by
  intro hexact
  obtain ⟨v, hliteral, hholds, -⟩ := hexact (by decide) _ rfl
  have hv : v = 4294967296 := hliteral.value.trans (by decide)
  obtain ⟨-, hlt⟩ := hholds
  omega

end Protoc.Descriptor
