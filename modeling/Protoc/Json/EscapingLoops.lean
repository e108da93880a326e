import Protoc.Json.EscapingUnits

/-!
# The loops of JSON escaping

What `escape` writes, code point by code point, for every source.
-/

namespace Protoc.Json

open Protoc.Lib
open List

/-! ## The buffer -/

/-- The places of the buffer that are not written are as they were. -/
def Scratch (buffer : Text) : Prop :=
  ∃ a b c d e f g h : UInt8, buffer = [0x5c, 0x75, a, b, c, d, 0x5c, 0x75, e, f, g, h]

/-- `\u` and four hexadecimal digits. -/
def unicodeEscape (v : ℕ) : Text :=
  [0x5c, 0x75, kHex (v >>> 12 &&& 0x0f), kHex (v >>> 8 &&& 0x0f), kHex (v >>> 4 &&& 0x0f), kHex (v &&& 0x0f)]

/-- The escape of a code point, or nothing. -/
def escaped (cp : ℕ) : Text :=
  if cp < 0xa0 then cString (kCommonEscapes[cp]?.getD "")
  else if isEscapedPlane0 cp then unicodeEscape cp
  else if isEscapedSupplementary cp then unicodeEscape (toHighSurrogate cp) ++ unicodeEscape (toLowSurrogate cp)
  else []

/-- A code point in at least two bytes of UTF-8. -/
def forced (cp : ℕ) : Text :=
  if cp >>> 6 ≤ 0x1f then [UInt8.ofNat (cp >>> 6 ||| 0xc0), UInt8.ofNat ((cp &&& 0x3f) ||| 0x80)]
  else if cp >>> 6 >>> 6 ≤ 0x0f then
    [UInt8.ofNat (cp >>> 6 >>> 6 ||| 0xe0), UInt8.ofNat ((cp >>> 6 &&& 0x3f) ||| 0x80),
      UInt8.ofNat ((cp &&& 0x3f) ||| 0x80)]
  else
    [UInt8.ofNat ((cp >>> 6 >>> 6 >>> 6 &&& 0x07) ||| 0xf0), UInt8.ofNat ((cp >>> 6 >>> 6 &&& 0x3f) ||| 0x80),
      UInt8.ofNat ((cp >>> 6 &&& 0x3f) ||| 0x80), UInt8.ofNat ((cp &&& 0x3f) ||| 0x80)]

variable {buffer : Text} {cp : ℕ}

theorem scratch_initialBuffer : Scratch initialBuffer :=
  ⟨0x64, 0x65, 0x61, 0x64, 0x62, 0x65, 0x65, 0, by decide⟩

theorem escapeCodePoint_spec (h : Scratch buffer) (cp : ℕ) :
    ∃ buffer', escapeCodePoint cp buffer = (escaped cp, buffer') ∧ Scratch buffer' := by
  rw [escapeCodePoint, escaped]
  split_ifs with hcommon hplane hsupplementary
  · exact ⟨buffer, rfl, h⟩
  · obtain ⟨a, b, c, d, e, f, g, h, rfl⟩ := h
    exact ⟨_, rfl, _, _, _, _, e, f, g, h, rfl⟩
  · obtain ⟨a, b, c, d, e, f, g, h, rfl⟩ := h
    exact ⟨_, rfl, _, _, _, _, _, _, _, _, rfl⟩
  · exact ⟨buffer, rfl, h⟩

theorem writeUtf8_spec (h : Scratch buffer) (cp : ℕ) :
    ∃ buffer', writeUtf8 cp buffer = (forced cp, buffer') ∧ Scratch buffer' := by
  obtain ⟨a, b, c, d, e, f, g, h, rfl⟩ := h
  rw [writeUtf8, forced]
  simp only
  split_ifs
  · exact ⟨_, rfl, a, b, _, _, e, f, g, h, rfl⟩
  · exact ⟨_, rfl, a, _, _, _, e, f, g, h, rfl⟩
  · exact ⟨_, rfl, _, _, _, _, e, f, g, h, rfl⟩

theorem forceEscapeCodePoint_false (h : Scratch buffer) (cp : ℕ) :
    ∃ buffer', forceEscapeCodePoint cp buffer false = (escaped cp, buffer') ∧ Scratch buffer' := by
  obtain ⟨buffer', hescape, h'⟩ := escapeCodePoint_spec h cp
  exact ⟨buffer', by rw [forceEscapeCodePoint, hescape]; rfl, h'⟩

theorem forceEscapeCodePoint_true (h : Scratch buffer) (cp : ℕ) :
    ∃ buffer', forceEscapeCodePoint cp buffer true =
      (if escaped cp = [] then forced cp else escaped cp, buffer') ∧ Scratch buffer' := by
  obtain ⟨buffer', hescape, h'⟩ := escapeCodePoint_spec h cp
  rw [forceEscapeCodePoint, hescape]
  by_cases hempty : escaped cp = []
  · obtain ⟨buffer'', hwrite, h''⟩ := writeUtf8_spec h' cp
    exact ⟨buffer'', by simp [hempty, hwrite], h''⟩
  · exact ⟨buffer', by simp [hempty], h'⟩

theorem forced_ne_nil (cp : ℕ) : forced cp ≠ [] := by
  rw [forced]
  split_ifs <;> exact cons_ne_nil _ _

/-! ## What is written for a text -/

/-- What is written for code points, where a relation says what may stand for one of them. -/
inductive Writes (W : ℕ × Text → Text → Prop) : List (ℕ × Text) → Text → Prop
  | nil : Writes W [] []
  | cons {u : ℕ × Text} {us : List (ℕ × Text)} {o out : Text} (hu : W u o) (hus : Writes W us out) :
      Writes W (u :: us) (o ++ out)

variable {W : ℕ × Text → Text → Prop} {size : ℕ → ℕ} {s t pre pre' str after output : Text} {numLeft i rounds : ℕ}
  {input : ByteSource}

/-- What stands for the code points is what a source makes of them: an escape, if there is one; else one byte is
copied; more are copied if two bytes are ever seen at a time, and written again if not all bytes are. -/
structure Agrees (size : ℕ → ℕ) (W : ℕ × Text → Text → Prop) (s : Text) : Prop where
  escape : ∀ u ∈ codePoints s, escaped u.1 ≠ [] → W u (escaped u.1)
  single : ∀ u ∈ codePoints s, escaped u.1 = [] → u.2.length ≤ 1 → W u u.2
  whole : (∃ n, 1 < size n) → ∀ u ∈ codePoints s, escaped u.1 = [] → 1 < u.2.length → W u u.2
  cut : (∃ n, size n < n) → ∀ u ∈ codePoints s, escaped u.1 = [] → 1 < u.2.length → W u (forced u.1)

theorem Agrees.mono (h : Agrees size W s) (hsub : codePoints t ⊆ codePoints s) : Agrees size W t where
  escape u hu := h.escape u (hsub hu)
  single u hu := h.single u (hsub hu)
  whole hwhole u hu := h.whole hwhole u (hsub hu)
  cut hcut u hu := h.cut hcut u (hsub hu)

/-- The bytes of a code point that is cut, and the state that they leave. -/
def Cut (pre : Text) (cp numLeft : ℕ) : Prop :=
  pre = [] ∧ numLeft = 0 ∨ pre ≠ [] ∧ 0 < numLeft ∧ readCodePoint pre 0 0 = ⟨true, cp, numLeft, pre.length⟩

/-- A run of the inner loop from a position of a region: what it took and what is written for it. -/
structure Advances (W : ℕ × Text → Text → Prop) (pre str after : Text) (i : ℕ) (r : Scan) (pre' : Text) :
    Prop where
  scratch : Scratch r.buffer
  le : i ≤ r.i
  read : i < r.i + r.numRead
  le_length : r.i + r.numRead ≤ str.length
  state : Cut pre' r.cp (if r.ok then r.numLeft else 0)
  end_of_cut : pre' ≠ [] → r.i + r.numRead = str.length
  escaped : r.escaped ≠ [] → r.ok = true ∧ r.numLeft = 0
  writes : ∀ {out}, Writes W (codePoints (pre' ++ str.drop (r.i + r.numRead) ++ after)) out →
    Writes W (codePoints (pre ++ str.drop i ++ after)) ((str.take r.i).drop i ++ r.escaped ++ out)
  points : codePoints (pre' ++ str.drop (r.i + r.numRead) ++ after) ⊆ codePoints (pre ++ str.drop i ++ after)

/-! ## The inner loop -/

theorem drop_append_of_le {n : ℕ} (h : n ≤ s.length) : (s ++ t).drop n = s.drop n ++ t := drop_append_of_le_length h

theorem take_append_of_le {n : ℕ} (h : n ≤ s.length) : (s ++ t).take n = s.take n := take_append_of_le_length h

theorem readCodePoint_at (after : Text) (hi : i < str.length) :
    str.drop i ≠ [] ∧ i < i + (readCodePoint (str.drop i) 0 0).numRead ∧
      i + (readCodePoint (str.drop i) 0 0).numRead ≤ str.length ∧
      (str.drop i ++ after).drop (readCodePoint (str.drop i) 0 0).numRead =
        str.drop (i + (readCodePoint (str.drop i) 0 0).numRead) ++ after := by
  have hs : str.drop i ≠ [] := by
    rw [Ne, drop_eq_nil_iff]
    omega
  have hpos := readCodePoint_numRead_pos hs
  have hle := readCodePoint_numRead_le hs
  have hlength : (str.drop i).length = str.length - i := length_drop
  refine ⟨hs, by omega, by omega, ?_⟩
  rw [drop_append_of_le hle, drop_drop]

theorem drop_take_self : (str.take i).drop i = [] := drop_eq_nil_of_le (length_take_le ..)

theorem advances_invalid (hbuffer : Scratch buffer) (hi : i < str.length)
    (h : (readCodePoint (str.drop i) 0 0).ok = false) (escapedNumLeft : ℕ) : Advances W [] str after i
      ⟨false, i, (readCodePoint (str.drop i) 0 0).numRead, cp, escapedNumLeft, [], buffer⟩ [] := by
  obtain ⟨hs, hread, hle, hdrop⟩ := readCodePoint_at after hi
  have hnot : ¬ (readCodePoint (str.drop i) 0 0).isPartial := fun hunfinished => by simp [hunfinished.1] at h
  have happend := readCodePoint_append_of_not_isPartial hs hnot after
  have hnil : str.drop i ++ after ≠ [] := append_ne_nil_of_left_ne_nil hs _
  have hpoints := codePoints_of_invalid hnil (by rw [happend, h])
  rw [happend, hdrop] at hpoints
  refine ⟨hbuffer, Nat.le_refl i, hread, hle, .inl ⟨rfl, rfl⟩, fun h => absurd rfl h, fun h => absurd rfl h,
    fun hwrites => ?_, ?_⟩
  · rw [nil_append, hpoints, drop_take_self]
    exact hwrites
  · rw [nil_append, nil_append, hpoints]
    exact fun _ hu => hu

theorem advances_isPartial (hbuffer : Scratch buffer) (hi : i < str.length)
    (h : (readCodePoint (str.drop i) 0 0).isPartial) : Advances W [] str after i
      ⟨true, i, (readCodePoint (str.drop i) 0 0).numRead, (readCodePoint (str.drop i) 0 0).cp,
        (readCodePoint (str.drop i) 0 0).numLeft, [], buffer⟩ (str.drop i) := by
  obtain ⟨hs, hread, hle, -⟩ := readCodePoint_at after hi
  obtain ⟨hnumRead, -⟩ := readCodePoint_of_isPartial hs h
  have hend : i + (readCodePoint (str.drop i) 0 0).numRead = str.length := by
    rw [hnumRead, length_drop]
    omega
  refine ⟨hbuffer, Nat.le_refl i, hread, hle, .inr ⟨hs, h.2, ?_⟩, fun _ => hend, fun h => absurd rfl h,
    fun hwrites => ?_, ?_⟩
  · rw [if_pos rfl, ← hnumRead, ← h.1]
  · rw [hend, drop_length, append_nil] at hwrites
    rw [drop_take_self]
    exact hwrites
  · rw [hend, drop_length, append_nil]
    exact fun _ hu => hu

theorem codePoints_at (after : Text) (hi : i < str.length) (h : (readCodePoint (str.drop i) 0 0).isComplete) :
    codePoints (str.drop i ++ after) =
        ((readCodePoint (str.drop i) 0 0).cp, (str.drop i).take (readCodePoint (str.drop i) 0 0).numRead) ::
          codePoints (str.drop (i + (readCodePoint (str.drop i) 0 0).numRead) ++ after) := by
  obtain ⟨hs, -, -, hdrop⟩ := readCodePoint_at after hi
  have hnot : ¬ (readCodePoint (str.drop i) 0 0).isPartial := fun hunfinished => hunfinished.2.ne' h.2
  have happend := readCodePoint_append_of_not_isPartial hs hnot after
  have hnil : str.drop i ++ after ≠ [] := append_ne_nil_of_left_ne_nil hs _
  have hpoints := codePoints_of_complete hnil (happend ▸ h)
  rwa [happend, hdrop, take_append_of_le (readCodePoint_numRead_le hs)] at hpoints

theorem advances_escaped (hbuffer : Scratch buffer) (hi : i < str.length)
    (h : (readCodePoint (str.drop i) 0 0).isComplete)
    (hW : W ((readCodePoint (str.drop i) 0 0).cp, (str.drop i).take (readCodePoint (str.drop i) 0 0).numRead)
      (escaped (readCodePoint (str.drop i) 0 0).cp)) : Advances W [] str after i
      ⟨true, i, (readCodePoint (str.drop i) 0 0).numRead, cp, 0, escaped (readCodePoint (str.drop i) 0 0).cp, buffer⟩
      [] := by
  obtain ⟨-, hread, hle, -⟩ := readCodePoint_at after hi
  have hpoints := codePoints_at after hi h
  refine ⟨hbuffer, Nat.le_refl i, hread, hle, .inl ⟨rfl, rfl⟩, fun h => absurd rfl h, fun _ => ⟨rfl, rfl⟩,
    fun hwrites => ?_, ?_⟩
  · rw [nil_append, hpoints, drop_take_self]
    exact .cons hW hwrites
  · rw [nil_append, nil_append, hpoints]
    exact fun _ hu => mem_cons_of_mem _ hu

theorem Advances.copied {r : Scan} (hi : i < str.length) (h : (readCodePoint (str.drop i) 0 0).isComplete)
    (hW : W ((readCodePoint (str.drop i) 0 0).cp, (str.drop i).take (readCodePoint (str.drop i) 0 0).numRead)
      ((str.drop i).take (readCodePoint (str.drop i) 0 0).numRead))
    (hrest : Advances W [] str after (i + (readCodePoint (str.drop i) 0 0).numRead) r pre') :
    Advances W [] str after i r pre' := by
  obtain ⟨-, hread, -, -⟩ := readCodePoint_at after hi
  have hpoints := codePoints_at after hi h
  refine ⟨hrest.scratch, le_trans (Nat.le_add_right ..) hrest.le, lt_trans hread hrest.read, hrest.le_length,
    hrest.state, hrest.end_of_cut, hrest.escaped, fun hwrites => ?_, fun u hu => ?_⟩
  · obtain ⟨k, hk⟩ := Nat.exists_eq_add_of_le hrest.le
    have htake : (str.take r.i).drop i = (str.drop i).take (readCodePoint (str.drop i) 0 0).numRead ++
        (str.take r.i).drop (i + (readCodePoint (str.drop i) 0 0).numRead) := by
      rw [drop_take, drop_take, hk, Nat.add_sub_cancel_left, Nat.add_assoc, Nat.add_sub_cancel_left,
        take_add, drop_drop]
    have hcopied := hrest.writes hwrites
    rw [nil_append] at hcopied ⊢
    rw [hpoints, htake, append_assoc, append_assoc, ← append_assoc (List.drop _ _)]
    exact .cons hW hcopied
  · rw [nil_append, hpoints]
    exact mem_cons_of_mem _ (hrest.points hu)

theorem advances_end (hbuffer : Scratch buffer) (hi : i < str.length)
    (h : (readCodePoint (str.drop i) 0 0).isComplete)
    (hW : W ((readCodePoint (str.drop i) 0 0).cp, (str.drop i).take (readCodePoint (str.drop i) 0 0).numRead)
      ((str.drop i).take (readCodePoint (str.drop i) 0 0).numRead)) :
    Advances W [] str after i ⟨true, i + (readCodePoint (str.drop i) 0 0).numRead, 0, cp, 0, [], buffer⟩ [] := by
  obtain ⟨-, hread, hle, -⟩ := readCodePoint_at after hi
  have hpoints := codePoints_at after hi h
  refine ⟨hbuffer, le_of_lt hread, hread, hle, .inl ⟨rfl, rfl⟩, fun h => absurd rfl h, fun h => absurd rfl h,
    fun hwrites => ?_, fun u hu => ?_⟩
  · rw [nil_append, hpoints, drop_take, Nat.add_sub_cancel_left, append_nil]
    exact .cons hW hwrites
  · rw [nil_append, hpoints]
    exact mem_cons_of_mem _ hu

/-- **The inner loop**, where no code point is cut before the region. -/
theorem scanLoop_advances (hbuffer : Scratch buffer) (hi : i < str.length) (hrounds : str.length ≤ i + rounds)
    (hescape : ∀ u ∈ codePoints (str.drop i ++ after), escaped u.1 ≠ [] → W u (escaped u.1))
    (hcopy : ∀ u ∈ codePoints (str.drop i ++ after), escaped u.1 = [] → u.2.length ≤ str.length → W u u.2) :
    ∃ pre', Advances W [] str after i (scanLoop str false rounds i cp 0 buffer) pre' := by
  induction rounds generalizing i cp buffer with
  | zero => omega
  | succ rounds ih =>
    obtain ⟨hs, hread, hle, -⟩ := readCodePoint_at after hi
    rw [scanLoop, readCodePoint_cp hs]
    rcases (readCodePoint (str.drop i) 0 0).cases with hinvalid | hunfinished | hcomplete
    · simp only [hinvalid, Bool.not_false, or_true, if_true]
      exact ⟨[], advances_invalid hbuffer hi hinvalid _⟩
    · simp only [hunfinished.1, hunfinished.2, true_or, if_true]
      exact ⟨_, advances_isPartial hbuffer hi hunfinished⟩
    · have hpoints := codePoints_at after hi hcomplete
      obtain ⟨buffer', hforce, hbuffer'⟩ :=
        forceEscapeCodePoint_false hbuffer (readCodePoint (str.drop i) 0 0).cp
      simp only [hcomplete.1, hcomplete.2, Bool.not_true, Bool.false_eq_true, or_false, lt_irrefl, if_false,
        hforce]
      by_cases hescaped : escaped (readCodePoint (str.drop i) 0 0).cp = []
      · have hraw := hcopy _ (by rw [hpoints]; exact mem_cons_self) hescaped
          (le_trans (length_take_le ..) (by omega))
        simp only [hescaped, ne_eq, not_true_eq_false, if_false]
        by_cases hmore : i + (readCodePoint (str.drop i) 0 0).numRead < str.length
        · have hsub : codePoints (str.drop (i + (readCodePoint (str.drop i) 0 0).numRead) ++ after) ⊆
              codePoints (str.drop i ++ after) := by
            rw [hpoints]
            exact fun _ hu => mem_cons_of_mem _ hu
          obtain ⟨pre', hadvances⟩ := @ih buffer' (readCodePoint (str.drop i) 0 0).cp _ hbuffer' hmore (by omega)
            (fun u hu => hescape u (hsub hu)) fun u hu => hcopy u (hsub hu)
          rw [if_pos hmore]
          exact ⟨pre', hadvances.copied hi hcomplete hraw⟩
        · rw [if_neg hmore]
          exact ⟨[], advances_end hbuffer' hi hcomplete hraw⟩
      · rw [if_pos hescaped]
        exact ⟨[], advances_escaped hbuffer' hi hcomplete
          (hescape _ (by rw [hpoints]; exact mem_cons_self) hescaped)⟩

/-- **The inner loop**, where a code point is cut before the region. -/
theorem scanLoop_advances_cut (hbuffer : Scratch buffer) (hpre : pre ≠ []) (hnumLeft : 0 < numLeft)
    (hcut : readCodePoint pre 0 0 = ⟨true, cp, numLeft, pre.length⟩) (hstr : str ≠ [])
    (hescape : ∀ u ∈ codePoints (pre ++ str ++ after), escaped u.1 ≠ [] → W u (escaped u.1))
    (hforced : ∀ u ∈ codePoints (pre ++ str ++ after), escaped u.1 = [] → 1 < u.2.length → W u (forced u.1)) :
    ∃ pre', Advances W pre str after 0 (scanLoop str true str.length 0 cp numLeft buffer) pre' := by
  obtain ⟨rounds, hrounds⟩ := Nat.exists_eq_succ_of_ne_zero (length_pos_iff.mpr hstr).ne'
  have hunfinished : (readCodePoint pre 0 0).isPartial := by
    rw [hcut]
    exact ⟨rfl, hnumLeft⟩
  obtain ⟨-, hresume⟩ := readCodePoint_of_isPartial hpre hunfinished
  have hwhole := hresume str
  simp only [hcut] at hwhole
  have hnil : pre ++ str ≠ [] := append_ne_nil_of_left_ne_nil hpre _
  have hnil' : pre ++ str ++ after ≠ [] := append_ne_nil_of_left_ne_nil hnil _
  have hmore : readCodePoint str cp numLeft = readMore cp numLeft 0 str := readCodePoint_resume hnumLeft.ne' str
  have hpos : 0 < (readCodePoint str cp numLeft).numRead := by
    rw [hmore]
    exact lt_readMore_numRead hnumLeft.ne' hstr
  have hle : (readCodePoint str cp numLeft).numRead ≤ str.length := by
    rw [hmore]
    exact le_trans readMore_numRead_le (le_of_eq (Nat.zero_add _))
  have hdrop : (pre ++ str ++ after).drop (pre.length + (readCodePoint str cp numLeft).numRead) =
      str.drop (readCodePoint str cp numLeft).numRead ++ after := by
    rw [append_assoc, ← drop_drop, drop_left, drop_append_of_le hle]
  rw [hrounds, scanLoop, drop_zero]
  rcases (readCodePoint str cp numLeft).cases with hinvalid | hpart | hcomplete
  · -- the code point is not well formed
    have hok : (readCodePoint (pre ++ str) 0 0).ok = false := by rw [hwhole]; exact hinvalid
    have hnot : ¬ (readCodePoint (pre ++ str) 0 0).isPartial := fun h => by simp [h.1] at hok
    have happend := readCodePoint_append_of_not_isPartial hnil hnot after
    have hpoints := codePoints_of_invalid hnil' (by rw [happend, hok])
    rw [happend, hwhole, hdrop] at hpoints
    simp only [hinvalid, Bool.not_false, or_true, if_true]
    refine ⟨[], ⟨hbuffer, Nat.le_refl 0, by simpa using hpos, by simpa using hle, .inl ⟨rfl, rfl⟩,
      fun h => absurd rfl h, fun h => absurd rfl h, fun hwrites => ?_, ?_⟩⟩
    · rw [drop_zero, hpoints]
      simpa using hwrites
    · rw [drop_zero, hpoints]
      simp
  · -- the code point is cut again
    have hpart' : (readCodePoint (pre ++ str) 0 0).isPartial := by rw [hwhole]; exact hpart
    obtain ⟨hnumRead, -⟩ := readCodePoint_of_isPartial hnil hpart'
    have hall : (readCodePoint str cp numLeft).numRead = str.length := by
      rw [hwhole, length_append] at hnumRead
      exact Nat.add_left_cancel hnumRead
    have hstate : readCodePoint (pre ++ str) 0 0 =
        ⟨true, (readCodePoint str cp numLeft).cp, (readCodePoint str cp numLeft).numLeft, (pre ++ str).length⟩ := by
      rw [hwhole, ← hpart.1, length_append, hall]
    simp only [hpart.1, hpart.2, true_or, if_true]
    refine ⟨pre ++ str, ⟨hbuffer, Nat.le_refl 0, by simpa using hpos, by simpa using hle,
      .inr ⟨hnil, by simpa using hpart.2, hstate⟩, fun _ => by simpa using hall, fun h => absurd rfl h,
      fun hwrites => ?_, ?_⟩⟩
    · rw [hall] at hwrites
      simpa using hwrites
    · rw [hall]
      simp
  · -- the code point ends here
    have hcomplete' : (readCodePoint (pre ++ str) 0 0).isComplete := by rw [hwhole]; exact hcomplete
    have hnot : ¬ (readCodePoint (pre ++ str) 0 0).isPartial := fun h => h.2.ne' hcomplete'.2
    have happend := readCodePoint_append_of_not_isPartial hnil hnot after
    have hcomplete'' : (readCodePoint (pre ++ str ++ after) 0 0).isComplete := happend ▸ hcomplete'
    have hpoints := codePoints_of_complete hnil' hcomplete''
    have hlong : 1 < ((pre ++ str ++ after).take (pre.length + (readCodePoint str cp numLeft).numRead)).length := by
      have hprepos := length_pos_iff.mpr hpre
      rw [length_take_of_le (by simp only [length_append]; omega)]
      omega
    rw [happend, hwhole] at hpoints
    simp only [hdrop] at hpoints
    have hmem : ((readCodePoint str cp numLeft).cp,
        (pre ++ str ++ after).take (pre.length + (readCodePoint str cp numLeft).numRead)) ∈
          codePoints (pre ++ str ++ after) := by
      rw [hpoints]
      exact mem_cons_self
    obtain ⟨buffer', hforce, hbuffer'⟩ := forceEscapeCodePoint_true hbuffer (readCodePoint str cp numLeft).cp
    obtain ⟨hne, hW⟩ : (if escaped (readCodePoint str cp numLeft).cp = [] then forced (readCodePoint str cp numLeft).cp
          else escaped (readCodePoint str cp numLeft).cp) ≠ [] ∧
        W ((readCodePoint str cp numLeft).cp,
            (pre ++ str ++ after).take (pre.length + (readCodePoint str cp numLeft).numRead))
          (if escaped (readCodePoint str cp numLeft).cp = [] then forced (readCodePoint str cp numLeft).cp
          else escaped (readCodePoint str cp numLeft).cp) := by
      split_ifs with hempty
      · exact ⟨forced_ne_nil _, hforced _ hmem hempty hlong⟩
      · exact ⟨hempty, hescape _ hmem hempty⟩
    simp only [hcomplete.1, hcomplete.2, Bool.not_true, Bool.false_eq_true, or_false, lt_irrefl, if_false, hforce]
    rw [if_pos hne]
    refine ⟨[], ⟨hbuffer', Nat.le_refl 0, by simpa using hpos, by simpa using hle, .inl ⟨rfl, rfl⟩,
      fun h => absurd rfl h, fun _ => ⟨rfl, rfl⟩, fun hwrites => ?_, ?_⟩⟩
    · rw [drop_zero, hpoints]
      refine .cons hW ?_
      simpa using hwrites
    · rw [drop_zero, hpoints]
      simp

/-! ## The outer loop -/

theorem codePoints_cut (h : Cut pre cp numLeft) : codePoints pre = [] := by
  rcases h with ⟨rfl, -⟩ | ⟨hpre, hnumLeft, hcut⟩
  · rfl
  · refine codePoints_of_isPartial hpre ?_
    rw [hcut]
    exact ⟨rfl, hnumLeft⟩

theorem escapeLoop_succ {r : Scan} (hpos : input.rest ≠ [])
    (hr : scanLoop input.peek (decide (0 < numLeft)) input.peek.length 0 cp numLeft buffer = r)
    (hescaped : r.escaped ≠ [] → r.ok = true ∧ r.numLeft = 0) :
    escapeLoop (rounds + 1) input cp numLeft buffer output =
      escapeLoop rounds ((input.skip r.i).skip r.numRead) r.cp (if r.ok then r.numLeft else 0) r.buffer
        (output ++ input.copied r.i ++ r.escaped) := by
  have havailable : input.available ≠ 0 := (length_pos_iff.mpr hpos).ne'
  rw [escapeLoop, if_neg havailable]
  simp only [hr]
  by_cases hempty : r.escaped = []
  · cases hok : r.ok <;> simp [hempty]
  · obtain ⟨hok, hnumLeft⟩ := hescaped hempty
    simp [hok, hnumLeft, hempty]

/-- **The outer loop.** -/
theorem escapeLoop_writes (hbuffer : Scratch buffer) (hstate : Cut pre cp numLeft)
    (hcut : pre ≠ [] → input.rest ≠ [] → ∃ n, input.size n < n) (hrounds : input.rest.length < rounds)
    (hagrees : Agrees input.size W (pre ++ input.rest)) :
    ∃ out, escapeLoop rounds input cp numLeft buffer output = some (output ++ out) ∧
      Writes W (codePoints (pre ++ input.rest)) out := by
  induction rounds generalizing input pre cp numLeft buffer output with
  | zero => exact absurd hrounds (Nat.not_lt_zero _)
  | succ rounds ih =>
    by_cases hrest : input.rest = []
    · refine ⟨[], ?_, ?_⟩
      · rw [escapeLoop, ByteSource.available, hrest, length_nil, if_pos rfl, append_nil]
      · rw [hrest, append_nil, codePoints_cut hstate]
        exact .nil
    · have hsize := input.size_pos input.rest.length
      have hpeek : input.peek ≠ [] := by
        rw [ByteSource.peek, Ne, take_eq_nil_iff, not_or]
        exact ⟨hsize.ne', hrest⟩
      have hsplit : input.rest = input.peek ++ input.rest.drop (input.size input.rest.length) :=
        (take_append_drop ..).symm
      have hpeekLength : input.peek.length = min (input.size input.rest.length) input.rest.length :=
        length_take
      have hadvances : ∃ pre', Advances W pre input.peek (input.rest.drop (input.size input.rest.length)) 0
          (scanLoop input.peek (decide (0 < numLeft)) input.peek.length 0 cp numLeft buffer) pre' := by
        rcases hstate with ⟨rfl, rfl⟩ | ⟨hpre, hnumLeft, hread⟩
        · refine scanLoop_advances hbuffer (length_pos_iff.mpr hpeek) (by omega) (fun u hu => ?_)
            fun u hu hempty hle => ?_
          · rw [drop_zero, ← hsplit] at hu
            exact hagrees.escape u hu
          · rw [drop_zero, ← hsplit] at hu
            rcases lt_or_ge 1 u.2.length with hlong | hshort
            · refine hagrees.whole ⟨input.rest.length, ?_⟩ u hu hempty hlong
              rw [hpeekLength] at hle
              omega
            · exact hagrees.single u hu hempty hshort
        · rw [decide_eq_true hnumLeft]
          refine scanLoop_advances_cut hbuffer hpre hnumLeft hread hpeek (fun u hu => ?_) fun u hu => ?_
          · rw [append_assoc, ← hsplit] at hu
            exact hagrees.escape u hu
          · rw [append_assoc, ← hsplit] at hu
            exact hagrees.cut (hcut hpre hrest) u hu
      obtain ⟨pre', hadvances⟩ := hadvances
      rw [escapeLoop_succ hrest rfl hadvances.escaped]
      generalize scanLoop input.peek (decide (0 < numLeft)) input.peek.length 0 cp numLeft buffer = r at hadvances
      have hle := hadvances.le_length
      have hread := hadvances.read
      have hskip : ((input.skip r.i).skip r.numRead).rest =
          input.peek.drop (r.i + r.numRead) ++ input.rest.drop (input.size input.rest.length) := by
        rw [← drop_append_of_le hle, ← hsplit, ByteSource.skip, ByteSource.skip, drop_drop]
      have hcopied : input.copied r.i = input.peek.take r.i := by
        rw [ByteSource.copied, hsplit, take_append_of_le (by omega)]
      have hwrites := @hadvances.writes
      have hpoints := hadvances.points
      simp only [drop_zero, append_assoc] at hwrites hpoints
      rw [← hsplit, ← hskip] at hpoints
      have hcut' : pre' ≠ [] → ((input.skip r.i).skip r.numRead).rest ≠ [] → ∃ n, input.size n < n := by
        intro hpre' hrest'
        have hend := hadvances.end_of_cut hpre'
        rw [hskip, hend, drop_length, nil_append, Ne, drop_eq_nil_iff] at hrest'
        exact ⟨input.rest.length, not_le.mp hrest'⟩
      have hrounds' : ((input.skip r.i).skip r.numRead).rest.length < rounds := by
        rw [hskip, length_append, length_drop, length_drop]
        omega
      obtain ⟨out, hout, hrec⟩ := @ih r.buffer r.cp pre' (output ++ input.copied r.i ++ r.escaped)
        (if r.ok then r.numLeft else 0) ((input.skip r.i).skip r.numRead) hadvances.scratch hadvances.state hcut'
        hrounds' (hagrees.mono hpoints)
      rw [hskip] at hrec
      have hall := hwrites hrec
      rw [← hsplit] at hall
      refine ⟨input.copied r.i ++ (r.escaped ++ out), ?_, ?_⟩
      · rw [hout]
        simp only [append_assoc]
      · rwa [hcopied]

/-- **What `escape` writes.** -/
theorem escape_writes (hagrees : Agrees input.size W input.rest) :
    ∃ out, escape input = some out ∧ Writes W (codePoints input.rest) out := by
  obtain ⟨out, hout, hwrites⟩ := escapeLoop_writes scratch_initialBuffer (.inl ⟨rfl, rfl⟩) (fun h => absurd rfl h)
    (Nat.lt_succ_self _) hagrees
  exact ⟨out, hout, hwrites⟩

end Protoc.Json
