import Protoc.Io.ParseString

/-!
# `ParseStringAppend` stays in its token

The decoder looks ahead for digits, for the second half of a surrogate pair and for the closing
quote.  Here every character is read from the memory of the token, which ends behind the
terminating zero, and nothing behind it is ever asked for.
-/

namespace Protoc.Io

open Option

/-- One more digit. -/
def moreDigitsChecked (inClass : UInt8 → Bool) (base : ℤ) :
    ℤ × List UInt8 → Option (ℤ × List UInt8)
  | (_, []) => none
  | (code, c :: ptr) =>
    if inClass c then some (code * base + digitValue c, ptr) else some (code, c :: ptr)

/-- `ReadHexDigits`. -/
def readHexDigitsChecked : ℕ → UInt32 → List UInt8 → Option (Option UInt32)
  | 0, result, _ => some (some result)
  | _ + 1, _, [] => none
  | len + 1, result, c :: ptr =>
    if c = 0 then some none
    else readHexDigitsChecked len ((result <<< 4) + UInt32.ofInt (digitValue c)) ptr

/-- Whether a `\u` stands there; its `u` is only looked at behind a backslash. -/
def startsUnicode (p : List UInt8) : Option Bool := do
  let c ← p[0]?
  if c = 92 then do
    let u ← p[1]?
    return u == 117
  else return false

/-- `FetchUnicodePoint`. -/
def fetchUnicodePointChecked (key : UInt8) (ptr : List UInt8) : Option (Option (UInt32 × ℕ)) :=
  let len := unicodeLength key
  if len = 0 then some none
  else do
    match ← readHexDigitsChecked len 0 ptr with
    | none => return none
    | some codePoint =>
      if isHeadSurrogate codePoint then do
        if ← startsUnicode (ptr.drop len) then do
          match ← readHexDigitsChecked 4 0 ((ptr.drop len).drop 2) with
          | none => return some (codePoint, len)
          | some trail =>
            if isTrailSurrogate trail then
              return some (assembleUTF16 codePoint trail, len + 6)
            else return some (codePoint, len)
        else return some (codePoint, len)
      else return some (codePoint, len)

/-- Whether a character is the given one in front of another that ends the token, or does not. -/
def looksAhead (c d : UInt8) (atEnd : Bool) (ptr : List UInt8) : Option Bool :=
  if c = d then do
    let next ← ptr[0]?
    return (next == 0) == atEnd
  else some false

/-- The escape behind a backslash, in front of the rest of the loop. -/
def parseEscapeChecked (loop : List UInt8 → Option (List UInt8)) :
    List UInt8 → Option (List UInt8)
  | [] => none
  | e :: ptr =>
    if octalDigit e then do
      let digits ← moreDigitsChecked octalDigit 8 (digitValue e, ptr)
      let digits ← moreDigitsChecked octalDigit 8 digits
      return toChar digits.1 :: (← loop digits.2)
    else if e = 120 then do
      let digits ← moreDigitsChecked hexDigit 16 (0, ptr)
      let digits ← moreDigitsChecked hexDigit 16 digits
      return toChar digits.1 :: (← loop digits.2)
    else if e = 117 ∨ e = 85 then do
      match ← fetchUnicodePointChecked e ptr with
      | none => return e :: (← loop ptr)
      | some (unicode, len) => return appendUTF8 unicode ++ (← loop (ptr.drop len))
    else return translateEscape e :: (← loop ptr)

/-- The loop of `ParseStringAppend`. -/
def parseStringLoopChecked (quote : UInt8) : ℕ → List UInt8 → Option (List UInt8)
  | 0, _ => none
  | _ + 1, [] => none
  | fuel + 1, c :: ptr =>
    if c = 0 then some []
    else do
      if ← looksAhead c 92 false ptr then
        parseEscapeChecked (parseStringLoopChecked quote fuel) ptr
      else if ← looksAhead c quote true ptr then parseStringLoopChecked quote fuel ptr
      else return c :: (← parseStringLoopChecked quote fuel ptr)

/-- `ParseStringAppend`, over the characters of the token and the zero behind them.  Each round
but the last consumes one, so there are at most as many rounds as characters. -/
def parseStringAppendChecked (text output : List UInt8) : Option (List UInt8) :=
  match text with
  | [] => some output
  | quote :: rest => do
      let value ← parseStringLoopChecked quote (rest.length + 1) (rest ++ [0])
      return output ++ value

/-! ## Nothing behind the zero -/

theorem terminated_head (ptr : List UInt8) : (ptr ++ [0])[0]? = some (ptr.getD 0 0) := by
  cases ptr <;> rfl

theorem octalDigit_zero : octalDigit 0 = false := rfl

theorem hexDigit_zero : hexDigit 0 = false := rfl

theorem moreDigitsChecked_eq {inClass : UInt8 → Bool} (hzero : inClass 0 = false) (base code : ℤ)
    (ptr : List UInt8) : moreDigitsChecked inClass base (code, ptr ++ [0]) =
      some ((moreDigits inClass base (code, ptr)).1, (moreDigits inClass base (code, ptr)).2 ++ [0]) := by
  cases ptr with
  | nil => simp [moreDigitsChecked, moreDigits, hzero]
  | cons c ptr =>
    rw [List.cons_append, moreDigitsChecked, moreDigits]
    split <;> rfl

theorem readHexDigitsChecked_eq (len : ℕ) (result : UInt32) (ptr : List UInt8) :
    readHexDigitsChecked len result (ptr ++ [0]) = some (readHexDigits len result ptr) := by
  induction len generalizing result ptr with
  | zero => simp [readHexDigitsChecked, readHexDigits]
  | succ len ih =>
    cases ptr with
    | nil => rfl
    | cons c ptr =>
      rw [List.cons_append, readHexDigitsChecked, readHexDigits]
      split
      · rfl
      · exact ih _ ptr

variable {ptr : List UInt8}

theorem readHexDigits_length {len : ℕ} {result value : UInt32}
    (h : readHexDigits len result ptr = some value) : len ≤ ptr.length := by
  induction len generalizing result ptr with
  | zero => exact Nat.zero_le _
  | succ len ih =>
    cases ptr with
    | nil => cases h
    | cons c ptr =>
      rw [readHexDigits] at h
      split at h
      · cases h
      · exact Nat.succ_le_succ (ih h)

theorem drop_terminated {len : ℕ} (h : len ≤ ptr.length) :
    (ptr ++ [0]).drop len = ptr.drop len ++ [0] := List.drop_append_of_le_length h

theorem startsUnicode_eq (p : List UInt8) :
    startsUnicode (p ++ [0]) = some (decide (p.getD 0 0 = 92 ∧ p.getD 1 0 = 117)) := by
  match p with
  | [] => rfl
  | [c] => by_cases h : c = 92 <;> simp [startsUnicode, h]
  | c :: u :: p => by_cases h : c = 92 <;> simp [startsUnicode, h, beq_eq_decide]

theorem fetchUnicodePoint_length {key : UInt8} {unicode : UInt32} {len : ℕ}
    (h : fetchUnicodePoint key ptr = some (unicode, len)) : len ≤ ptr.length := by
  rw [fetchUnicodePoint] at h
  dsimp only at h
  split at h
  · cases h
  · split at h
    · cases h
    · next codePoint hread =>
      have hle := readHexDigits_length hread
      split at h
      · split at h
        · cases h
          exact hle
        · next trail htrail =>
          split at h
          · cases h
            have hle' := readHexDigits_length htrail
            rw [List.length_drop, List.length_drop] at hle'
            omega
          · cases h
            exact hle
      · cases h
        exact hle

theorem fetchUnicodePointChecked_eq (key : UInt8) (ptr : List UInt8) :
    fetchUnicodePointChecked key (ptr ++ [0]) = some (fetchUnicodePoint key ptr) := by
  rw [fetchUnicodePointChecked, fetchUnicodePoint]
  dsimp only
  split
  · rfl
  · rw [readHexDigitsChecked_eq]
    cases hread : readHexDigits (unicodeLength key) 0 ptr with
    | none => rfl
    | some codePoint =>
      simp only [bind_eq_bind, bind_some, drop_terminated (readHexDigits_length hread), startsUnicode_eq]
      by_cases hhead : isHeadSurrogate codePoint = true
      · by_cases hunicode : (ptr.drop (unicodeLength key)).getD 0 0 = 92 ∧
            (ptr.drop (unicodeLength key)).getD 1 0 = 117
        · have hle : 2 ≤ (ptr.drop (unicodeLength key)).length := by
            generalize ptr.drop (unicodeLength key) = tail at hunicode ⊢
            rcases tail with _ | ⟨c, _ | ⟨c', rest⟩⟩
            · cases hunicode.1
            · cases hunicode.2
            · exact Nat.le_add_left _ _
          rw [if_pos hhead, decide_eq_true hunicode, if_pos rfl, if_pos ⟨hhead, hunicode⟩,
            drop_terminated hle, readHexDigitsChecked_eq]
          cases readHexDigits 4 0 ((ptr.drop (unicodeLength key)).drop 2) with
          | none => rfl
          | some trail =>
            dsimp only [bind_some]
            split <;> rfl
        · rw [if_pos hhead, decide_eq_false hunicode, if_neg (by decide),
            if_neg fun h => hunicode h.2]
          rfl
      · rw [if_neg hhead, if_neg fun h => hhead h.1]
        rfl

theorem looksAhead_eq (c d : UInt8) (atEnd : Bool) (ptr : List UInt8) : looksAhead c d atEnd (ptr ++ [0]) =
      some (decide (c = d) && ((ptr.getD 0 0 == 0) == atEnd)) := by
  rw [looksAhead, terminated_head]
  split
  · next h => simp [h]
  · next h => simp [h]

theorem moreDigits_length_twice (inClass : UInt8 → Bool) (base code : ℤ) (ptr : List UInt8) :
    (moreDigits inClass base (moreDigits inClass base (code, ptr))).2.length ≤ ptr.length :=
  (moreDigits_length inClass base _).trans (moreDigits_length inClass base (code, ptr))

theorem parseEscapeChecked_eq (quote : UInt8) {loop : List UInt8 → Option (List UInt8)} {e : UInt8} (he : e ≠ 0) (hloop : ∀ rest : List UInt8, rest.length ≤ ptr.length →
      loop (rest ++ [0]) = some (parseStringLoop quote rest)) :
    parseEscapeChecked loop (e :: ptr ++ [0]) = some (parseStringLoop quote (92 :: e :: ptr)) := by
  rw [parseStringLoop_backslash quote he, List.cons_append, parseEscapeChecked]
  split
  · rw [moreDigitsChecked_eq rfl]
    simp only [bind_eq_bind, bind_some, moreDigitsChecked_eq octalDigit_zero,
      hloop _ (moreDigits_length_twice octalDigit 8 _ ptr)]
    rfl
  · split
    · rw [moreDigitsChecked_eq rfl]
      simp only [bind_eq_bind, bind_some, moreDigitsChecked_eq hexDigit_zero,
        hloop _ (moreDigits_length_twice hexDigit 16 _ ptr)]
      rfl
    · split
      · rw [fetchUnicodePointChecked_eq]
        cases hfetch : fetchUnicodePoint e ptr with
        | none =>
          simp only [bind_eq_bind, bind_some, hloop ptr le_rfl]
          rfl
        | some fetched =>
          obtain ⟨unicode, len⟩ := fetched
          have hle := fetchUnicodePoint_length hfetch
          simp only [bind_eq_bind, bind_some, drop_terminated hle, hloop (ptr.drop len) (by simp)]
          rfl
      · rw [hloop ptr le_rfl]
        rfl

theorem parseStringLoop_character (quote : UInt8) {c : UInt8} (hzero : c ≠ 0)
    (hescape : ¬ (c = 92 ∧ ptr.getD 0 0 ≠ 0)) :
    parseStringLoop quote (c :: ptr) =
      if c = quote ∧ ptr.getD 0 0 = 0 then parseStringLoop quote ptr
      else c :: parseStringLoop quote ptr := by
  rw [parseStringLoop.eq_def]
  simp only [if_neg hzero, if_neg hescape]

/-- **The loop** reads nothing behind the zero. -/
theorem parseStringLoopChecked_eq (quote : UInt8) {fuel : ℕ} (hfuel : ptr.length < fuel) :
    parseStringLoopChecked quote fuel (ptr ++ [0]) = some (parseStringLoop quote ptr) := by
  induction fuel generalizing ptr with
  | zero => exact absurd hfuel (Nat.not_lt_zero _)
  | succ fuel ih =>
    cases ptr with
    | nil => simp [parseStringLoopChecked, parseStringLoop]
    | cons c ptr =>
      have hptr : ptr.length < fuel := Nat.lt_of_succ_lt_succ hfuel
      rw [List.cons_append, parseStringLoopChecked]
      by_cases hzero : c = 0
      · subst hzero
        rw [if_pos rfl, parseStringLoop.eq_def]
        rfl
      rw [if_neg hzero]
      simp only [looksAhead_eq, bind_eq_bind, bind_some]
      by_cases hescape : c = 92 ∧ ptr.getD 0 0 ≠ 0
      · obtain ⟨rfl, hnext⟩ := hescape
        cases ptr with
        | nil => exact absurd rfl hnext
        | cons e ptr =>
          have he : e ≠ 0 := hnext
          rw [if_pos (by simpa using he)]
          exact parseEscapeChecked_eq quote he fun rest hle =>
            ih (by rw [List.length_cons] at hptr; omega)
      · have hnot : ¬ (decide (c = 92) && (ptr.getD 0 0 == 0) == false) = true := by
          simpa using hescape
        rw [if_neg hnot, parseStringLoop_character quote hzero hescape, ih hptr]
        by_cases hend : c = quote ∧ ptr.getD 0 0 = 0
        · rw [if_pos hend, if_pos (by simpa using hend)]
        · rw [if_neg hend, if_neg (by simpa using hend)]
          rfl

/-- **`ParseStringAppend`** reads nothing behind the zero of its token. -/
theorem parseStringAppendChecked_eq (text output : List UInt8) :
    parseStringAppendChecked text output = some (parseStringAppend text output) := by
  cases text with
  | nil => rfl
  | cons quote rest =>
    rw [parseStringAppendChecked, parseStringLoopChecked_eq quote (Nat.lt_succ_self _)]
    rfl

end Protoc.Io
