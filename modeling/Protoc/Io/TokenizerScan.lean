import Protoc.Io.TokenizerPlace

/-!
# What the tokenizer consumes

Every method that only consumes characters is settled by the place where it starts, and goes
onward from it: the offset does not go back, and of all that a caller can see only the errors
change.
-/

namespace Protoc.Io.Tokenizer

open Protoc.Lib

variable {input : Text} {α β : Type}

/-- From a place to a later one. -/
structure Onward (x y : Place input) : Prop where
  le : x.offset ≤ y.offset
  recording : y.recording = x.recording
  shown : y.shown = { x.shown with errors := y.shown.errors }

theorem Onward.refl (x : Place input) : Onward x x := ⟨le_rfl, rfl, rfl⟩

theorem Onward.trans {x y z : Place input} (h : Onward x y) (h' : Onward y z) : Onward x z :=
  ⟨le_trans h.le h'.le, h'.recording.trans h.recording, by rw [h'.shown, h.shown]⟩

theorem Onward.succ (x : Place input) (h : x.offset < input.length) : Onward x (x.succ h) :=
  ⟨Nat.le_succ _, rfl, rfl⟩

/-- The program settles from every place, and goes onward. -/
def Scans (input : Text) (m : Scan α) : Prop :=
  ∀ x : Place input, Settles (Stands input) m x fun _ y => Onward x y

namespace Scans

theorem pure (a : α) : Scans input (Pure.pure a : Scan α) := fun x => .pure (Onward.refl x)

theorem bind {m : Scan α} {f : α → Scan β} (hm : Scans input m) (hf : ∀ a, Scans input (f a)) :
    Scans input (m >>= f) := by
  intro x
  refine (hm x).bind ?_
  intro a y hxy
  refine (hf a y).mono ?_
  intro b z hyz
  exact hxy.trans hyz

theorem ite {c : Prop} [Decidable c] {m m' : Scan α} (ht : Scans input m) (hf : Scans input m') :
    Scans input (if c then m else m') := by
  split
  · exact ht
  · exact hf

theorem andM {m m' : Scan Bool} (hm : Scans input m) (hm' : Scans input m') : Scans input (m <&&> m') := by
  intro x
  refine (hm x).andM ?_ ?_
  · intro y hxy
    refine (hm' y).mono ?_
    intro b z hyz
    exact hxy.trans hyz
  · intro y hxy
    exact hxy

theorem orM {m m' : Scan Bool} (hm : Scans input m) (hm' : Scans input m') : Scans input (m <||> m') := by
  intro x
  refine (hm x).orM ?_ ?_
  · intro y hxy
    refine (hm' y).mono ?_
    intro b z hyz
    exact hxy.trans hyz
  · intro y hxy
    exact hxy

end Scans

theorem scans_reads (f : Tokenizer → α) (g : Place input → α)
    (h : ∀ x s, Stands input x s → f s = g x) : Scans input (reads f) := by
  intro x
  exact ⟨g x, x, fun s hs => ⟨s, by rw [reads, h x s hs], hs⟩, Onward.refl x⟩

theorem scans_shown (f : Shown → α) : Scans input (reads fun s => f s.shown) :=
  scans_reads _ (fun x => f x.shown) fun _ _ h => by rw [h.shows]

theorem scans_currentChar : Scans input (reads currentChar) := scans_reads _ _ fun _ _ h => h.char

/-! ## Errors -/

def Place.withError (x : Place input) (error : TokenizerError) : Place input :=
  { x with shown := { x.shown with errors := x.shown.errors ++ [error] } }

theorem Onward.withError (x : Place input) (error : TokenizerError) : Onward x (x.withError error) :=
  ⟨le_rfl, rfl, rfl⟩

variable {x : Place input}

theorem withError_stands {s : Tokenizer} (h : Stands input x s) (error : TokenizerError) :
    Stands input (x.withError error) { s with errors := s.errors ++ [error] } :=
  h.show (by rfl) (by rw [← h.shows]; rfl)

theorem scans_addErrorAt (line column : Int32) (message : String) :
    Scans input (addErrorAt line column message) := fun x =>
  .modify (x.withError ⟨line, column, message⟩) (fun _ h => withError_stands h _)
    (.withError _ _)

theorem addError_settles (message : String) (x : Place input) :
    Settles (Stands input) (addError message) x fun _ y => Onward x y ∧ y.offset = x.offset := by
  refine .modify (x.withError
    ⟨(positionAt input x.offset).1, (positionAt input x.offset).2, message⟩) ?_ ⟨.withError _ _, rfl⟩
  intro s h
  rw [← h.line, ← h.column]
  exact withError_stands h _

theorem scans_addError (message : String) : Scans input (addError message) := fun x =>
  (addError_settles message x).mono fun _ _ h => h.1

/-! ## One character -/

def Place.char (x : Place input) : UInt8 := input.getD x.offset 0

theorem Place.lt_of_char (h : x.char ≠ 0) : x.offset < input.length := by
  by_contra hle
  exact h (List.getD_eq_default _ _ (Nat.le_of_not_lt hle))

theorem nextChar_settles (hx : x.offset < input.length) :
    Settles (Stands input) (modify nextChar : Scan Unit) x fun _ y => y = x.succ hx :=
  .modify (x.succ hx) (fun _ h => nextChar_stands h hx) rfl

/-- What `TryConsumeOne` does. -/
def Tried (inClass : UInt8 → Bool) (x : Place input) (consumed : Bool) (y : Place input) : Prop :=
  match consumed with
  | true => inClass x.char = true ∧ ∃ hx, y = x.succ hx
  | false => inClass x.char = false ∧ y = x

variable {inClass : UInt8 → Bool}

theorem Tried.onward {x y : Place input} {consumed : Bool} (h : Tried inClass x consumed y) : Onward x y := by
  cases consumed with
  | true =>
    obtain ⟨-, hx, rfl⟩ := h
    exact .succ x hx
  | false =>
    obtain ⟨-, rfl⟩ := h
    exact .refl y

theorem Tried.lt {x y : Place input} (h : Tried inClass x true y) : x.offset < y.offset := by
  obtain ⟨-, hx, rfl⟩ := h
  exact Nat.lt_succ_self _

theorem tryConsumeOne_settles (hclass : inClass x.char = true → x.offset < input.length) :
    Settles (Stands input) (tryConsumeOne inClass) x (Tried inClass x) := by
  refine .reads x.char (fun _ h => h.char) ?_
  refine .ite ?_ ?_
  · intro hin
    refine (nextChar_settles (hclass hin)).bind ?_
    rintro - y rfl
    exact .pure ⟨hin, hclass hin, rfl⟩
  · intro hout
    exact .pure ⟨by simpa using hout, rfl⟩

theorem lt_of_class (hzero : inClass 0 = false) (h : inClass x.char = true) : x.offset < input.length := by
  refine Place.lt_of_char ?_
  intro hchar
  rw [hchar, hzero] at h
  exact absurd h (by decide)

theorem tryConsumeOne_tried (hzero : inClass 0 = false)
    (x : Place input) : Settles (Stands input) (tryConsumeOne inClass) x (Tried inClass x) :=
  tryConsumeOne_settles (lt_of_class hzero)

theorem scans_tryConsumeOne (hzero : inClass 0 = false) :
    Scans input (tryConsumeOne inClass) := fun x =>
  (tryConsumeOne_tried hzero x).mono fun _ _ h => h.onward

theorem tryConsume_tried {c : UInt8} (hc : (0 == c) = false) (x : Place input) :
    Settles (Stands input) (tryConsume c) x (Tried (fun d => d == c) x) :=
  @tryConsumeOne_tried _ (fun d => d == c) hc x

theorem scans_tryConsume {c : UInt8} (hc : (0 == c) = false) : Scans input (tryConsume c) := fun x =>
  (tryConsume_tried hc x).mono fun _ _ h => h.onward

/-! ## Loops -/

/-- **Loops**: a round that goes on has moved on. -/
theorem rounds_settles {body : β → Scan (α ⊕ β)} (inv : β → Place input → Prop)
    {post : α → Place input → Prop}
    (hbody : ∀ b y, inv b y → Settles (Stands input) (body b) y fun r z => match r with
      | .inl a => post a z
      | .inr b' => inv b' z ∧ y.offset < z.offset)
    {b : β} (hinv : inv b x) :
    Settles (Stands input) (rounds body b) x post := by
  refine .reads (input.length - x.offset) (fun _ h => h.bytesLeft) ?_
  refine .loop inv (fun y => input.length - y.offset) ?_ hinv (Nat.lt_succ_self _)
  intro b y hy
  refine (hbody b y hy).mono ?_
  intro r z hr
  cases r with
  | inl a => exact hr
  | inr b' =>
    refine ⟨hr.1, ?_⟩
    have hle := z.offset_le
    omega

theorem scans_rounds {body : Unit → Scan (α ⊕ Unit)}
    (hbody : ∀ x : Place input, Settles (Stands input) (body ()) x fun r y =>
      Onward x y ∧ (r = .inr () → x.offset < y.offset)) : Scans input (rounds body ()) := by
  intro x
  refine rounds_settles (fun _ y => Onward x y) ?_ (Onward.refl x)
  rintro ⟨⟩ y hxy
  refine (hbody y).mono ?_
  rintro r z ⟨hyz, hlt⟩
  cases r with
  | inl a => exact hxy.trans hyz
  | inr b => exact ⟨hxy.trans hyz, hlt rfl⟩

theorem consumeZeroOrMore_settles (hzero : inClass 0 = false)
    (x : Place input) : Settles (Stands input) (consumeZeroOrMore inClass) x fun _ y =>
      Onward x y ∧ inClass y.char = false := by
  refine rounds_settles (fun _ y => Onward x y) ?_ (Onward.refl x)
  rintro ⟨⟩ y hxy
  refine (tryConsumeOne_tried hzero y).bind ?_
  intro consumed z hz
  cases consumed with
  | true => exact .pure ⟨hxy.trans hz.onward, hz.lt⟩
  | false =>
    obtain ⟨hout, rfl⟩ := hz
    exact .pure ⟨hxy, hout⟩

theorem scans_consumeZeroOrMore (hzero : inClass 0 = false) :
    Scans input (consumeZeroOrMore inClass) := fun x =>
  (consumeZeroOrMore_settles hzero x).mono fun _ _ h => h.1

theorem scans_consumeOneOrMore (hzero : inClass 0 = false)
    (error : String) : Scans input (consumeOneOrMore inClass error) := by
  intro x
  refine .reads x.char (fun _ h => h.char) ?_
  refine .ite ?_ ?_
  · intro hin
    refine (nextChar_settles (lt_of_class hzero hin)).bind ?_
    rintro - y rfl
    refine (scans_consumeZeroOrMore hzero _).mono ?_
    intro _ z hz
    exact (Onward.succ x _).trans hz
  · intro _
    exact scans_addError error x

/-! ## Strings and numbers -/

theorem scans_hexDigit : Scans input (tryConsumeOne hexDigit) := scans_tryConsumeOne rfl

theorem scans_consumeEscape : Scans input consumeEscape := by
  refine (scans_tryConsumeOne rfl).bind fun b => .ite (.pure ()) ?_
  refine (scans_tryConsumeOne rfl).bind fun b => .ite (.pure ()) ?_
  refine (scans_tryConsume rfl).bind fun b => .ite ?_ ?_
  · exact scans_hexDigit.bind fun b => .ite (.pure ()) (scans_addError _)
  refine (scans_tryConsume rfl).bind fun b => .ite ?_ ?_
  · have hdigit : Scans input (tryConsumeOne hexDigit) := scans_hexDigit
    have hfour := hdigit.andM (hdigit.andM (hdigit.andM hdigit))
    exact hfour.bind fun b => .ite (.pure ()) (scans_addError _)
  refine (scans_tryConsume rfl).bind fun b => .ite ?_ (scans_addError _)
  have hzero : Scans input (tryConsume 48) := scans_tryConsume rfl
  have hone : Scans input (tryConsume 49) := scans_tryConsume rfl
  have hdigit : Scans input (tryConsumeOne hexDigit) := scans_hexDigit
  have hfive := hdigit.andM (hdigit.andM (hdigit.andM (hdigit.andM hdigit)))
  have height := hzero.andM (hzero.andM ((hzero.orM hone).andM hfive))
  exact height.bind fun b => .ite (.pure ()) (scans_addError _)

theorem nextChar_onward (hx : x.offset < input.length) {m : Scan α}
    (hm : Scans input m) : Settles (Stands input) (do modify nextChar; m) x fun _ y =>
      Onward x y ∧ x.offset < y.offset := by
  refine (nextChar_settles hx).bind ?_
  rintro - y rfl
  refine (hm _).mono ?_
  intro a z hz
  exact ⟨(Onward.succ x hx).trans hz, lt_of_lt_of_le (Nat.lt_succ_self _) hz.le⟩

theorem leaves {m : Scan Unit} (hm : Scans input m) (a : α) :
    Settles (Stands input) (do m; return (.inl a : α ⊕ Unit)) x fun r y =>
      Onward x y ∧ (r = .inr () → x.offset < y.offset) := by
  refine (hm x).bind ?_
  rintro - y hxy
  exact .pure ⟨hxy, fun h => absurd h (by simp)⟩

theorem scans_consumeString (delimiter : UInt8) : Scans input (consumeString delimiter) := by
  refine scans_rounds ?_
  intro x
  refine .reads x.char (fun _ h => h.char) ?_
  refine .ite (fun _ => leaves (scans_addError _) ()) ?_
  intro hchar
  have hx := Place.lt_of_char hchar
  refine .ite ?_ ?_
  · intro _
    refine .reads x.shown.allowMultilineStrings (fun _ h => by rw [← h.shows]; rfl) ?_
    refine .ite (fun _ => ?_) (fun _ => leaves (scans_addError _) ())
    exact (nextChar_onward hx (.pure _)).mono fun _ _ h => ⟨h.1, fun _ => h.2⟩
  · intro _
    refine .ite (fun _ => ?_) (fun _ => ?_)
    · have hescape : Scans input (do consumeEscape; return (.inr () : Unit ⊕ Unit)) :=
        scans_consumeEscape.bind fun _ => .pure _
      exact (nextChar_onward hx hescape).mono fun _ _ h => ⟨h.1, fun _ => h.2⟩
    · exact (nextChar_onward hx (.pure _)).mono fun _ _ h => ⟨h.1, fun _ => h.2⟩

theorem scans_digits : Scans input (consumeZeroOrMore digit) := scans_consumeZeroOrMore rfl

theorem scans_consumePoint (startedWithDot : Bool) : Scans input (consumePoint startedWithDot) := by
  refine .ite (.pure _) ?_
  refine (scans_tryConsume rfl).bind fun b => .ite ?_ (.pure _)
  exact scans_digits.bind fun _ => .pure _

theorem scans_consumeExponent : Scans input consumeExponent := by
  refine ((scans_tryConsume rfl).orM (scans_tryConsume rfl)).bind fun b => .ite ?_ (.pure _)
  refine ((scans_tryConsume rfl).orM (scans_tryConsume rfl)).bind fun _ => ?_
  exact (scans_consumeOneOrMore rfl _).bind fun _ => .pure _

theorem scans_consumeSuffix : Scans input consumeSuffix := by
  refine (scans_shown Shown.allowFAfterFloat).bind fun allowF => ?_
  exact (Scans.pure allowF).andM ((scans_tryConsume rfl).orM (scans_tryConsume rfl))

theorem scans_consumeDecimal (startedWithDot : Bool) : Scans input (consumeDecimal startedWithDot) := by
  refine scans_digits.bind fun _ => ?_
  refine (scans_consumePoint startedWithDot).bind fun point => ?_
  refine scans_consumeExponent.bind fun exponent => ?_
  exact scans_consumeSuffix.bind fun suffix => .pure _

theorem scans_consumeDigits (startedWithZero startedWithDot : Bool) :
    Scans input (consumeDigits startedWithZero startedWithDot) := by
  have hlower : Scans input (tryConsume 120) := scans_tryConsume rfl
  have hupper : Scans input (tryConsume 88) := scans_tryConsume rfl
  have hx := (Scans.pure startedWithZero).andM (hlower.orM hupper)
  refine hx.bind fun b => .ite ?_ ?_
  · exact (scans_consumeOneOrMore rfl _).bind fun _ => .pure _
  refine scans_currentChar.bind fun c => .ite ?_ (scans_consumeDecimal startedWithDot)
  refine (scans_consumeZeroOrMore rfl).bind fun _ => ?_
  refine scans_currentChar.bind fun c => .ite ?_ (.pure _)
  exact (scans_addError _).bind fun _ => scans_digits.bind fun _ => .pure _

def NumberType (type : TokenType) : Prop := type = .float ∨ type = .integer

theorem consumeNumber_settles (startedWithZero startedWithDot : Bool) (x : Place input) :
    Settles (Stands input) (consumeNumber startedWithZero startedWithDot) x fun type y =>
      Onward x y ∧ NumberType type := by
  refine (scans_consumeDigits startedWithZero startedWithDot x).bind ?_
  intro isFloat y hxy
  have htype : NumberType (if isFloat then .float else .integer) := by
    cases isFloat
    · exact .inr rfl
    · exact .inl rfl
  refine .reads y.char (fun _ h => h.char) ?_
  refine .reads y.shown.requireSpaceAfterNumber (fun _ h => by rw [← h.shows]; rfl) ?_
  have herror : ∀ message, Settles (Stands input)
      (do addError message; return if isFloat then TokenType.float else .integer) y fun type z =>
        Onward x z ∧ NumberType type := by
    intro message
    refine (scans_addError message y).bind ?_
    rintro - z hyz
    exact .pure ⟨hxy.trans hyz, htype⟩
  exact .ite (fun _ => herror _) fun _ => .ite (fun _ => herror _) fun _ => .pure ⟨hxy, htype⟩

end Protoc.Io.Tokenizer
