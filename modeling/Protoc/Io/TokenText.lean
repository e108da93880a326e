import Protoc.Io.TokenizerReads

/-!
# The texts of integers and strings

The tokenizer reports an error for every integer and every string that does not have the form
given here.  What the form means is defined where the tokens are parsed.
-/

namespace Protoc.Io.Tokenizer

open Protoc.Lib

variable {input : Text} {α : Type}

set_option synthInstance.maxSize 1000

/-! ## Integers -/

/-- The text of an integer. -/
inductive IntegerText : Text → Prop
  | decimal {c : UInt8} {digits : Text} (hc : c ≠ 48)
      (hdigits : ∀ d ∈ c :: digits, digit d = true) : IntegerText (c :: digits)
  | octal {digits : Text} (hdigits : ∀ d ∈ digits, octalDigit d = true) : IntegerText (48 :: digits)
  | hex {x : UInt8} {digits : Text} (hx : x = 120 ∨ x = 88) (hne : digits ≠ [])
      (hdigits : ∀ d ∈ digits, hexDigit d = true) : IntegerText (48 :: x :: digits)

/-- A method that reads whatever it reads, and nothing where it returns false. -/
def ReadsIf (input : Text) (m : Scan Bool) : Prop :=
  ∀ x : Place input, Quiet m x fun b y => (∃ text, Reads x text y) ∧ (b = false → y = x)

theorem readsIf_tryConsume {c : UInt8} (hc : (0 == c) = false) : ReadsIf input (tryConsume c) := by
  intro x
  refine (quiet_tryConsume hc x).mono ?_
  intro b y hy
  cases b with
  | true => exact ⟨⟨_, hy.reads.2⟩, fun h => absurd h (by decide)⟩
  | false =>
    obtain ⟨-, rfl⟩ := hy
    exact ⟨⟨[], .refl y⟩, fun _ => rfl⟩

theorem readsIf_either {c c' : UInt8} (hc : (0 == c) = false) (hc' : (0 == c') = false) :
    ReadsIf input (tryConsume c <||> tryConsume c') := by
  intro x
  refine (readsIf_tryConsume hc x).orM ?_ ?_
  · rintro y ⟨-, hy⟩
    rw [hy rfl]
    exact readsIf_tryConsume hc' x
  · rintro y ⟨hreads, -⟩
    exact ⟨hreads, fun h => absurd h (by decide)⟩

theorem readsIf_consumePoint : ReadsIf input (consumePoint false) := by
  intro x
  refine (readsIf_tryConsume rfl x).bind ?_
  rintro point y ⟨⟨text, hxy⟩, hsame⟩
  refine .ite ?_ ?_
  · intro _
    refine (quiet_consumeZeroOrMore rfl y).bind ?_
    rintro - z ⟨digits, hyz, -⟩
    exact .pure ⟨⟨_, hxy.trans hyz⟩, fun h => absurd h (by decide)⟩
  · intro hpoint
    exact .pure ⟨⟨_, hxy⟩, fun _ => hsame (by simpa using hpoint)⟩

theorem readsIf_consumeExponent : ReadsIf input consumeExponent := by
  intro x
  refine (readsIf_either rfl rfl x).bind ?_
  rintro exponent y ⟨⟨text, hxy⟩, hsame⟩
  refine .ite ?_ ?_
  · intro _
    refine (readsIf_either rfl rfl y).bind ?_
    rintro - z ⟨⟨sign, hyz⟩, -⟩
    refine (quiet_consumeOneOrMore rfl _ z).bind ?_
    rintro - w ⟨digits, hzw, -⟩
    exact .pure ⟨⟨_, hxy.trans (hyz.trans hzw)⟩, fun h => absurd h (by decide)⟩
  · intro hexponent
    exact .pure ⟨⟨_, hxy⟩, fun _ => hsame (by simpa using hexponent)⟩

theorem readsIf_consumeSuffix : ReadsIf input consumeSuffix := by
  intro x
  refine .reads x.shown.allowFAfterFloat (fun _ h => by rw [← h.shows]; rfl) ?_
  have hallow : Quiet (pure x.shown.allowFAfterFloat : Scan Bool) x fun _ y => y = x := .pure rfl
  refine hallow.andM ?_ ?_
  · rintro y rfl
    exact readsIf_either rfl rfl y
  · rintro y rfl
    exact ⟨⟨[], .refl y⟩, fun _ => rfl⟩

theorem quiet_consumeDecimal (x : Place input) : Quiet (consumeDecimal false) x fun isFloat y =>
    ∃ text, Reads x text y ∧ (isFloat = false → ∀ c ∈ text, digit c = true) := by
  refine (quiet_consumeZeroOrMore rfl x).bind ?_
  rintro - y ⟨digits, hxy, hdigits, -⟩
  refine (readsIf_consumePoint y).bind ?_
  rintro point z ⟨⟨t₁, hyz⟩, hpoint⟩
  refine (readsIf_consumeExponent z).bind ?_
  rintro exponent w ⟨⟨t₂, hzw⟩, hexponent⟩
  refine (readsIf_consumeSuffix w).bind ?_
  rintro suffix v ⟨⟨t₃, hwv⟩, hsuffix⟩
  cases hfloat : point || exponent || suffix with
  | true => exact .pure ⟨_, hxy.trans (hyz.trans (hzw.trans hwv)), fun h => absurd h (by decide)⟩
  | false =>
    simp only [Bool.or_eq_false_iff] at hfloat
    obtain rfl := hpoint hfloat.1.1
    obtain rfl := hexponent hfloat.1.2
    obtain rfl := hsuffix hfloat.2
    exact .pure ⟨digits, hxy, fun _ => hdigits⟩

theorem quiet_consumeDecimal_dot (x : Place input) :
    Quiet (consumeDecimal true) x fun isFloat y => isFloat = true ∧ ∃ text, Reads x text y := by
  refine (quiet_consumeZeroOrMore rfl x).bind ?_
  rintro - y ⟨digits, hxy, -⟩
  have hpoint : Quiet (consumePoint true) y fun point z => point = true ∧ z = y := .pure ⟨rfl, rfl⟩
  refine hpoint.bind ?_
  rintro point y ⟨rfl, rfl⟩
  refine (readsIf_consumeExponent y).bind ?_
  rintro exponent z ⟨⟨t₂, hyz⟩, -⟩
  refine (readsIf_consumeSuffix z).bind ?_
  rintro suffix w ⟨⟨t₃, hzw⟩, -⟩
  exact .pure ⟨by simp, _, hxy.trans (hyz.trans hzw)⟩

theorem Reads.char_eq {x y : Place input} {c : UInt8} {text : Text} (h : Reads x (c :: text) y) :
    x.char = c := by
  rw [x.char_eq, h.rest]
  rfl

/-- The digits behind a zero. -/
theorem quiet_consumeDigits_zero (x : Place input) : Quiet (consumeDigits true false) x fun isFloat y =>
      ∃ text, Reads x text y ∧ (isFloat = false → IntegerText (48 :: text)) := by
  have hmark : Quiet (pure true <&&> (tryConsume 120 <||> tryConsume 88)) x fun b y =>
      (b = true → (x.char = 120 ∨ x.char = 88) ∧ Reads x [x.char] y) ∧ (b = false → y = x) := by
    have hpure : Quiet (pure true : Scan Bool) x fun b y => b = true ∧ y = x := .pure ⟨rfl, rfl⟩
    refine hpure.andM ?_ (fun y hy => absurd hy.1 (by decide))
    rintro y ⟨-, rfl⟩
    refine (quiet_tryConsume rfl y).orM ?_ ?_
    · rintro z ⟨-, rfl⟩
      refine (quiet_tryConsume rfl z).mono ?_
      intro b w hw
      cases b with
      | true =>
        obtain ⟨hchar, hreads⟩ := hw.reads_char
        exact ⟨fun _ => ⟨.inr hchar, hchar ▸ hreads⟩, fun h => absurd h (by decide)⟩
      | false => exact ⟨fun h => absurd h (by decide), fun _ => hw.2⟩
    · intro z hz
      obtain ⟨hchar, hreads⟩ := hz.reads_char
      exact ⟨fun _ => ⟨.inl hchar, hchar ▸ hreads⟩, fun h => absurd h (by decide)⟩
  refine hmark.bind ?_
  rintro hex y ⟨htrue, hfalse⟩
  refine .ite ?_ ?_
  · intro hhex
    obtain ⟨hx, hxy⟩ := htrue hhex
    refine (quiet_consumeOneOrMore rfl _ y).bind ?_
    rintro - z ⟨digits, hyz, hne, hdigits⟩
    exact .pure ⟨_, hxy.trans hyz, fun _ => .hex hx hne hdigits⟩
  · intro hhex
    obtain rfl := hfalse (by simpa using hhex)
    refine .reads y.char (fun _ h => h.char) ?_
    refine .ite ?_ ?_
    · intro _
      refine (quiet_consumeZeroOrMore rfl y).bind ?_
      rintro - z ⟨digits, hyz, hdigits, -⟩
      refine .reads z.char (fun _ h => h.char) ?_
      refine .ite (fun _ => quiet_addError_bind) ?_
      intro _
      exact .pure ⟨digits, hyz, fun _ => .octal hdigits⟩
    · intro hdigit
      refine (quiet_consumeDecimal y).mono ?_
      rintro isFloat z ⟨text, hyz, hdigits⟩
      refine ⟨text, hyz, fun hint => ?_⟩
      -- the next character is no digit, so there are none
      cases text with
      | nil => exact .octal (by simp)
      | cons c text =>
        have hc := hdigits hint c List.mem_cons_self
        rw [← hyz.char_eq] at hc
        exact absurd hc (by simpa using hdigit)

variable {x : Place input}

theorem quiet_consumeDigits {startedWithDot : Bool}
    {post : Bool → Place input → Prop} (h : Quiet (consumeDecimal startedWithDot) x post) :
    Quiet (consumeDigits false startedWithDot) x post := by
  have hmark : Quiet (pure false <&&> (tryConsume 120 <||> tryConsume 88)) x fun b y =>
      b = false ∧ y = x := by
    have hpure : Quiet (pure false : Scan Bool) x fun b y => b = false ∧ y = x := .pure ⟨rfl, rfl⟩
    exact hpure.andM (fun y hy => absurd hy.1 (by decide)) fun _ hy => hy
  refine hmark.bind ?_
  rintro b y ⟨rfl, rfl⟩
  exact .reads y.char (fun _ h => h.char) h

theorem quiet_consumeNumber {startedWithZero startedWithDot : Bool} {p : Bool → Text → Prop}
    (hdigits : Quiet (consumeDigits startedWithZero startedWithDot) x fun isFloat y =>
      ∃ text, Reads x text y ∧ p isFloat text) :
    Quiet (consumeNumber startedWithZero startedWithDot) x fun type y =>
      ∃ text isFloat, Reads x text y ∧ p isFloat text ∧
        type = if isFloat then TokenType.float else .integer := by
  refine hdigits.bind ?_
  rintro isFloat y ⟨text, hxy, hp⟩
  refine .reads y.char (fun _ h => h.char) ?_
  refine .reads y.shown.requireSpaceAfterNumber (fun _ h => by rw [← h.shows]; rfl) ?_
  refine .ite (fun _ => quiet_addError_bind) ?_
  intro _
  refine .ite (fun _ => quiet_addError_bind) ?_
  intro _
  exact .pure ⟨text, isFloat, hxy, hp, rfl⟩

/-! ## Strings -/

/-- An escape sequence. -/
inductive EscapeText : Text → Prop
  | simple {c : UInt8} (hc : escape c = true) : EscapeText [92, c]
  | octal {c : UInt8} (hc : octalDigit c = true) : EscapeText [92, c]
  | hex {c : UInt8} (hc : hexDigit c = true) : EscapeText [92, 120, c]
  | unicode {digits : Text} (hlength : digits.length = 4)
      (hdigits : ∀ d ∈ digits, hexDigit d = true) : EscapeText (92 :: 117 :: digits)
  | longUnicode {c : UInt8} {digits : Text} (hc : c = 48 ∨ c = 49) (hlength : digits.length = 5)
      (hdigits : ∀ d ∈ digits, hexDigit d = true) :
      EscapeText (92 :: 85 :: 48 :: 48 :: c :: digits)

/-- What stands between the quotes.  More digits of an octal or hex escape are characters like
all others. -/
inductive StringBody (delimiter : UInt8) : Text → Prop
  | nil : StringBody delimiter []
  | plain {c : UInt8} {text : Text} (hzero : c ≠ 0) (hbackslash : c ≠ 92)
      (hdelimiter : c ≠ delimiter) (h : StringBody delimiter text) :
      StringBody delimiter (c :: text)
  | escape {sequence text : Text} (hsequence : EscapeText sequence)
      (h : StringBody delimiter text) : StringBody delimiter (sequence ++ text)

def StringText (text : Text) : Prop :=
  ∃ delimiter body, (delimiter = 34 ∨ delimiter = 39) ∧ text = delimiter :: (body ++ [delimiter]) ∧
    StringBody delimiter body

def HexDigits (n : ℕ) (text : Text) : Prop := text.length = n ∧ ∀ d ∈ text, hexDigit d = true

theorem accepts_hexDigit : Accepts input (tryConsumeOne hexDigit) (HexDigits 1) := by
  intro x
  refine (accepts_one rfl x).mono ?_
  intro b y h hb
  obtain ⟨text, hreads, c, rfl, hc⟩ := h hb
  exact ⟨[c], hreads, rfl, by simpa using hc⟩

theorem HexDigits.succ {n : ℕ} {m : Scan Bool} [Grows errors m] (h : Accepts input m (HexDigits n)) :
    Accepts input (tryConsumeOne hexDigit <&&> m) (HexDigits (n + 1)) := by
  intro x
  refine (accepts_hexDigit.andM h x).mono ?_
  intro b y hy hb
  obtain ⟨text, hreads, t, t', rfl, ⟨hlength, ht⟩, hlength', ht'⟩ := hy hb
  refine ⟨_, hreads, by rw [List.length_append, hlength, hlength', add_comm], ?_⟩
  intro d hd
  rcases List.mem_append.mp hd with hd | hd
  · exact ht d hd
  · exact ht' d hd

theorem quiet_alternative {inClass : UInt8 → Bool} (hzero : inClass 0 = false)
    {m m' : Scan α} [Grows errors m] [Grows errors m'] {post : α → Place input → Prop}
    (hm : ∀ y, inClass x.char = true → Reads x [x.char] y → Quiet m y post)
    (hm' : inClass x.char = false → Quiet m' x post) :
    Quiet (do if ← tryConsumeOne inClass then m else m') x post := by
  refine (quiet_tryConsumeOne hzero x).bind ?_
  intro consumed y hy
  refine .ite ?_ ?_
  · rintro rfl
    exact hm y hy.reads.1 hy.reads.2
  · intro hconsumed
    have hfalse : consumed = false := by simpa using hconsumed
    subst hfalse
    obtain ⟨hchar, rfl⟩ := hy
    exact hm' hchar

theorem quiet_digits {m : Scan Bool} [Grows errors m] {p : Text → Prop} (hm : Accepts input m p)
    (error : String) (x : Place input) :
    Quiet (do if ← m then return () else addError error) x fun _ y =>
      ∃ text, Reads x text y ∧ p text := by
  refine (hm x).bind ?_
  intro b y hy
  refine .ite ?_ (fun _ => quiet_addError)
  intro hb
  exact .pure (hy hb)

theorem accepts_longUnicode : Accepts input
    (tryConsume 48 <&&> tryConsume 48 <&&> (tryConsume 48 <||> tryConsume 49) <&&>
      tryConsumeOne hexDigit <&&> tryConsumeOne hexDigit <&&> tryConsumeOne hexDigit <&&>
      tryConsumeOne hexDigit <&&> tryConsumeOne hexDigit)
    fun text => ∃ c digits, text = 48 :: 48 :: c :: digits ∧ (c = 48 ∨ c = 49) ∧ HexDigits 5 digits := by
  have heither : Accepts input (tryConsume 48 <||> tryConsume 49) fun text =>
      ∃ c, text = [c] ∧ (c = 48 ∨ c = 49) := by
    intro x
    refine (quiet_tryConsume rfl x).orM ?_ ?_
    · rintro y ⟨-, rfl⟩
      refine (accepts_char rfl y).mono ?_
      intro b z hz hb
      obtain ⟨text, hreads, rfl⟩ := hz hb
      exact ⟨_, hreads, 49, rfl, .inr rfl⟩
    · intro y hy _
      exact ⟨_, hy.reads_char.2, 48, rfl, .inl rfl⟩
  have hzero : Accepts input (tryConsume 48) fun text => text = [48] := accepts_char rfl
  have hdigits := HexDigits.succ (HexDigits.succ (HexDigits.succ
    (HexDigits.succ (accepts_hexDigit : Accepts input _ (HexDigits 1)))))
  intro x
  refine (hzero.andM (hzero.andM (heither.andM hdigits)) x).mono ?_
  intro b y hy hb
  obtain ⟨text, hreads, -, -, rfl, rfl, -, -, rfl, rfl, -, digits, rfl, ⟨c, rfl, hc⟩, hd⟩ := hy hb
  exact ⟨_, hreads, c, digits, rfl, hc, hd⟩

theorem quiet_consumeEscape (x : Place input) : Quiet consumeEscape x fun _ y =>
    ∃ text, Reads x text y ∧ EscapeText (92 :: text) := by
  refine quiet_alternative rfl (fun y hc hxy => .pure ⟨_, hxy, .simple hc⟩) fun _ => ?_
  refine quiet_alternative rfl (fun y hc hxy => .pure ⟨_, hxy, .octal hc⟩) fun _ => ?_
  have hdigits := HexDigits.succ (HexDigits.succ (HexDigits.succ
    (accepts_hexDigit : Accepts input _ (HexDigits 1))))
  refine quiet_alternative rfl ?_ fun _ => quiet_alternative rfl ?_ fun _ =>
    quiet_alternative rfl ?_ fun _ => quiet_addError
  · intro y hchar hxy
    rw [eq_of_beq hchar] at hxy
    refine (quiet_digits accepts_hexDigit _ y).mono ?_
    rintro - z ⟨text, hyz, hlength, hd⟩
    obtain ⟨d, rfl⟩ := List.length_eq_one_iff.mp hlength
    exact ⟨_, hxy.trans hyz, .hex (hd d (by simp))⟩
  · intro y hchar hxy
    rw [eq_of_beq hchar] at hxy
    refine (quiet_digits hdigits _ y).mono ?_
    rintro - z ⟨text, hyz, hlength, hd⟩
    exact ⟨_, hxy.trans hyz, .unicode hlength hd⟩
  · intro y hchar hxy
    rw [eq_of_beq hchar] at hxy
    refine (quiet_digits accepts_longUnicode _ y).mono ?_
    rintro - z ⟨-, hyz, c, digits, rfl, hc, hlength, hd⟩
    exact ⟨_, hxy.trans hyz, .longUnicode hc hlength hd⟩

/-- **Strings**: without an error, the delimiter ends a body. -/
theorem quiet_consumeString {delimiter : UInt8} (hdelimiter : delimiter ≠ 10 ∧ delimiter ≠ 92)
    (x : Place input) : Quiet (consumeString delimiter) x fun _ y =>
      ∃ body, Reads x (body ++ [delimiter]) y ∧ StringBody delimiter body := by
  refine .reads (input.length - x.offset) (fun _ h => h.bytesLeft) ?_
  refine .loop (fun _ y => ∃ read, Reads x read y ∧
    ∀ text, StringBody delimiter text → StringBody delimiter (read ++ text)) ?_
    ⟨[], .refl x, fun _ h => h⟩
  rintro ⟨⟩ y ⟨read, hxy, hread⟩
  refine .reads y.char (fun _ h => h.char) ?_
  refine .ite (fun _ => quiet_addError_bind) ?_
  intro hchar
  have hy := Place.lt_of_char hchar
  have hplain : y.char ≠ 92 → y.char ≠ delimiter → ∀ z, Reads y [y.char] z → ∃ read', Reads x read' z ∧
      ∀ text, StringBody delimiter text → StringBody delimiter (read' ++ text) := by
    intro hbackslash hne z hyz
    refine ⟨read ++ [y.char], hxy.trans hyz, fun text htext => ?_⟩
    rw [List.append_assoc]
    exact hread _ (.plain hchar hbackslash hne htext)
  refine .ite ?_ ?_
  · intro hnewline
    refine .reads y.shown.allowMultilineStrings (fun _ h => by rw [← h.shows]; rfl) ?_
    refine .ite ?_ (fun _ => quiet_addError_bind)
    intro _
    refine (quiet_nextChar hy).bind ?_
    intro _ z hyz
    refine .pure (hplain ?_ ?_ z hyz)
    · rw [hnewline]
      decide
    · rw [hnewline]
      exact hdelimiter.1.symm
  · intro _
    refine .ite ?_ ?_
    · intro hbackslash
      refine (quiet_nextChar hy).bind ?_
      intro _ z hyz
      rw [hbackslash] at hyz
      refine (quiet_consumeEscape z).bind ?_
      rintro _ w ⟨text, hzw, hescape⟩
      refine .pure ⟨read ++ (92 :: text), hxy.trans (hyz.trans hzw), fun text' htext' => ?_⟩
      rw [List.append_assoc]
      exact hread _ (.escape hescape htext')
    · intro hbackslash
      refine (quiet_nextChar hy).bind ?_
      intro _ z hyz
      by_cases hend : y.char = delimiter
      · rw [if_pos hend]
        rw [hend] at hyz
        exact .pure ⟨read, hxy.trans hyz, by simpa using hread [] .nil⟩
      · rw [if_neg hend]
        exact .pure (hplain hbackslash hend z hyz)

/-! ## Tokens -/

/-- What the type of a token says about its text. -/
structure TokenText (type : TokenType) (text : Text) : Prop where
  integer : type = .integer → IntegerText text
  string : type = .string → StringText text

theorem TokenText.other {type : TokenType} {text : Text} (hinteger : type ≠ .integer)
    (hstring : type ≠ .string) : TokenText type text :=
  ⟨fun h => absurd h hinteger, fun h => absurd h hstring⟩

/-- **Tokens**: without an error, the text of a token has the form of its type. -/
theorem quiet_readToken (hx : x.char ≠ 0) : Quiet readToken x fun type y =>
    ∃ text, Reads x text y ∧ TokenText type text := by
  have hnumber : ∀ {isFloat : Bool} {text : Text}, (isFloat = false → IntegerText text) →
      TokenText (if isFloat then .float else .integer) text := by
    intro isFloat text h
    cases isFloat with
    | true => exact .other (by decide) (by decide)
    | false => exact ⟨fun _ => h rfl, fun h => absurd h (by decide)⟩
  have hstring : ∀ {delimiter : UInt8} {y : Place input}, delimiter = 34 ∨ delimiter = 39 →
      Reads x [delimiter] y → Quiet (do consumeString delimiter; return TokenType.string) y
        fun type z => ∃ text, Reads x text z ∧ TokenText type text := by
    intro delimiter y hdelimiter hxy
    have hne : delimiter ≠ 10 ∧ delimiter ≠ 92 := by
      rcases hdelimiter with rfl | rfl <;> decide
    refine (quiet_consumeString hne y).bind ?_
    rintro - z ⟨body, hyz, hbody⟩
    exact .pure ⟨_, hxy.trans hyz, fun h => absurd h (by decide), fun _ =>
      ⟨delimiter, body, hdelimiter, rfl, hbody⟩⟩
  refine quiet_alternative rfl ?_ fun _ => quiet_alternative rfl ?_ fun hzero =>
    quiet_alternative rfl ?_ fun _ => quiet_alternative rfl ?_ fun _ =>
    quiet_alternative rfl ?_ fun _ => quiet_alternative rfl ?_ fun _ => ?_
  · intro y _ hxy
    refine (quiet_consumeZeroOrMore rfl y).bind ?_
    rintro - z ⟨text, hyz, -⟩
    exact .pure ⟨_, hxy.trans hyz, .other (by decide) (by decide)⟩
  · intro y hchar hxy
    rw [eq_of_beq hchar] at hxy
    refine (quiet_consumeNumber (quiet_consumeDigits_zero y)).mono ?_
    rintro - z ⟨text, isFloat, hyz, htext, rfl⟩
    exact ⟨_, hxy.trans hyz, hnumber htext⟩
  · intro y _ hxy
    refine (quiet_tryConsumeOne rfl y).bind ?_
    intro isNumber z hz
    refine .ite ?_ ?_
    · rintro rfl
      have hxz := hxy.trans hz.reads.2
      have hdigits : Quiet (consumeDigits false true) z fun isFloat w =>
          ∃ text, Reads z text w ∧ isFloat = true := by
        refine quiet_consumeDigits ((quiet_consumeDecimal_dot z).mono ?_)
        rintro isFloat w ⟨hfloat, text, hzw⟩
        exact ⟨text, hzw, hfloat⟩
      refine .reads (z.shown.previous, z.shown.current, positionAt input z.offset) ?_ ?_
      · intro s h
        rw [← h.shows, ← h.position]
        rfl
      · refine .ite (fun _ => quiet_addErrorAt_bind) ?_
        intro _
        refine (quiet_consumeNumber hdigits).mono ?_
        rintro - w ⟨text, isFloat, hzw, rfl, rfl⟩
        exact ⟨_, hxz.trans hzw, hnumber fun h => absurd h (by decide)⟩
    · intro hnone
      have hfalse : isNumber = false := by simpa using hnone
      subst hfalse
      obtain ⟨-, rfl⟩ := hz
      exact .pure ⟨_, hxy, .other (by decide) (by decide)⟩
  · intro y hdigit hxy
    -- a zero has been tried before
    have hne : x.char ≠ 48 := by simpa using hzero
    have hdigits : Quiet (consumeDigits false false) y fun isFloat z =>
        ∃ text, Reads y text z ∧ (isFloat = false → ∀ c ∈ text, digit c = true) :=
      quiet_consumeDigits (quiet_consumeDecimal y)
    refine (quiet_consumeNumber hdigits).mono ?_
    rintro - z ⟨text, isFloat, hyz, htext, rfl⟩
    refine ⟨_, hxy.trans hyz, hnumber fun h => .decimal hne ?_⟩
    intro d hd
    rcases List.mem_cons.mp hd with rfl | hd
    · exact hdigit
    · exact htext h d hd
  · intro y hchar hxy
    rw [eq_of_beq hchar] at hxy
    exact hstring (.inl rfl) hxy
  · intro y hchar hxy
    rw [eq_of_beq hchar] at hxy
    exact hstring (.inr rfl) hxy
  · refine .reads x.char (fun _ h => h.char) ?_
    refine .ite (fun _ => quiet_addError_bind) ?_
    intro _
    refine (quiet_nextChar (Place.lt_of_char hx)).bind ?_
    intro _ y hxy
    exact .pure ⟨_, hxy, .other (by decide) (by decide)⟩

end Protoc.Io.Tokenizer
