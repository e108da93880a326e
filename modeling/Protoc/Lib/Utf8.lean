import Mathlib.Data.List.Basic
import Mathlib.Data.Nat.Init

/-!
# UTF-8 and the well-formed part of a string
-/

namespace Protoc.Lib.Utf8

/-! ## UTF-8 -/

def IsScalar (v : ℕ) : Prop := v < 0xD800 ∨ 0xE000 ≤ v ∧ v < 0x110000

instance (v : ℕ) : Decidable (IsScalar v) := inferInstanceAs (Decidable (_ ∨ _ ∧ _))

/-- The shortest encoding, as numbers. -/
def encodeNat (v : ℕ) : List ℕ :=
  if v < 0x80 then [v]
  else if v < 0x800 then [0xC0 + v / 0x40, 0x80 + v % 0x40]
  else if v < 0x10000 then [0xE0 + v / 0x1000, 0x80 + v / 0x40 % 0x40, 0x80 + v % 0x40]
  else [0xF0 + v / 0x40000, 0x80 + v / 0x1000 % 0x40, 0x80 + v / 0x40 % 0x40, 0x80 + v % 0x40]

def encode (v : ℕ) : List UInt8 := (encodeNat v).map UInt8.ofNat

def WellFormed (bytes : List UInt8) : Prop :=
  ∃ vs : List ℕ, (∀ v ∈ vs, IsScalar v) ∧ bytes = vs.flatMap encode

theorem wellFormed_nil : WellFormed [] := ⟨[], by simp, rfl⟩

theorem encodeNat_ne_nil (v : ℕ) : encodeNat v ≠ [] := by
  rw [encodeNat]
  split_ifs <;> simp

theorem encode_ne_nil (v : ℕ) : encode v ≠ [] := by
  simp [encode, encodeNat_ne_nil]

theorem WellFormed.append {l m : List UInt8} (hl : WellFormed l) (hm : WellFormed m) : WellFormed (l ++ m) := by
  obtain ⟨vs, hvs, rfl⟩ := hl
  obtain ⟨ws, hws, rfl⟩ := hm
  refine ⟨vs ++ ws, ?_, by rw [List.flatMap_append]⟩
  intro v hv
  rcases List.mem_append.mp hv with hv | hv
  · exact hvs v hv
  · exact hws v hv

theorem wellFormed_encode {v : ℕ} (hv : IsScalar v) : WellFormed (encode v) :=
  ⟨[v], by simpa using hv, by simp⟩

theorem encodeNat_lt {v b : ℕ} (hv : v < 0x110000) (hb : b ∈ encodeNat v) : b < 256 := by
  rw [encodeNat] at hb
  split_ifs at hb <;> simp only [List.mem_cons, List.not_mem_nil, or_false] at hb <;> omega

theorem IsScalar.lt {v : ℕ} (hv : IsScalar v) : v < 0x110000 := by
  rcases hv with hv | hv <;> omega

theorem map_toNat_encode {v : ℕ} (hv : IsScalar v) : (encode v).map UInt8.toNat = encodeNat v := by
  have hbytes : ∀ b ∈ encodeNat v, (UInt8.toNat ∘ UInt8.ofNat) b = id b := fun b hb =>
    Nat.mod_eq_of_lt (encodeNat_lt hv.lt hb)
  rw [encode, List.map_map, List.map_congr_left hbytes, List.map_id]

/-! ## The bytes of a character -/

def Continuation (b : ℕ) : Prop := 0x80 ≤ b ∧ b < 0xC0

/-- The bytes of a character, by the length and the first byte. -/
def Character : List ℕ → Prop
  | [a] => a < 0x80
  | [a, b] => (0xC2 ≤ a ∧ a < 0xE0) ∧ Continuation b
  | [a, b, c] => (a = 0xE0 ∧ (0xA0 ≤ b ∧ b < 0xC0) ∧ Continuation c) ∨
      ((0xE1 ≤ a ∧ a < 0xF0 ∧ a ≠ 0xED) ∧ Continuation b ∧ Continuation c) ∨
      (a = 0xED ∧ (0x80 ≤ b ∧ b < 0xA0) ∧ Continuation c)
  | [a, b, c, d] => (a = 0xF0 ∧ (0x90 ≤ b ∧ b < 0xC0) ∧ Continuation c ∧ Continuation d) ∨
      ((0xF1 ≤ a ∧ a < 0xF4) ∧ Continuation b ∧ Continuation c ∧ Continuation d) ∨
      (a = 0xF4 ∧ (0x80 ≤ b ∧ b < 0x90) ∧ Continuation c ∧ Continuation d)
  | _ => False

theorem character_encodeNat {v : ℕ} (hv : IsScalar v) : Character (encodeNat v) := by
  rw [encodeNat]
  split_ifs with h1 h2 h3
  · exact h1
  · simp only [Character, Continuation]
    omega
  · simp only [Character, Continuation]
    rcases hv with hv | hv <;> omega
  · have hlt := hv.lt
    simp only [Character, Continuation]
    omega

theorem exists_of_two {a b : ℕ} (h : Character [a, b]) : ∃ v, IsScalar v ∧ [a, b] = encodeNat v := by
  simp only [Character, Continuation] at h
  refine ⟨(a - 0xC0) * 0x40 + (b - 0x80), Or.inl (by omega), ?_⟩
  rw [encodeNat, if_neg (by omega), if_pos (by omega)]
  simp only [List.cons.injEq, and_true]
  omega

theorem exists_of_three {a b c : ℕ} (h : Character [a, b, c]) : ∃ v, IsScalar v ∧ [a, b, c] = encodeNat v := by
  simp only [Character, Continuation] at h
  refine ⟨(a - 0xE0) * 0x1000 + (b - 0x80) * 0x40 + (c - 0x80), ?_, ?_⟩
  · rw [IsScalar]
    omega
  · rw [encodeNat, if_neg (by omega), if_neg (by omega), if_pos (by omega)]
    simp only [List.cons.injEq, and_true]
    omega

theorem exists_of_four {a b c d : ℕ} (h : Character [a, b, c, d]) :
    ∃ v, IsScalar v ∧ [a, b, c, d] = encodeNat v := by
  simp only [Character, Continuation] at h
  refine ⟨(a - 0xF0) * 0x40000 + (b - 0x80) * 0x1000 + (c - 0x80) * 0x40 + (d - 0x80), ?_, ?_⟩
  · rw [IsScalar]
    omega
  · rw [encodeNat, if_neg (by omega), if_neg (by omega), if_neg (by omega)]
    simp only [List.cons.injEq, and_true]
    omega

/-- **Characters** are the encodings of the scalar values. -/
theorem character_iff {l : List ℕ} : Character l ↔ ∃ v, IsScalar v ∧ l = encodeNat v := by
  constructor
  · intro h
    rcases l with _ | ⟨a, _ | ⟨b, _ | ⟨c, _ | ⟨d, _ | ⟨e, l⟩⟩⟩⟩⟩
    · exact absurd h id
    · exact ⟨a, Or.inl (Nat.lt_trans h (by decide)), (if_pos h).symm⟩
    · exact exists_of_two h
    · exact exists_of_three h
    · exact exists_of_four h
    · exact absurd h id
  · rintro ⟨v, hv, rfl⟩
    exact character_encodeNat hv

theorem character_map_toNat_iff {bytes : List UInt8} :
    Character (bytes.map UInt8.toNat) ↔ ∃ v, IsScalar v ∧ bytes = encode v := by
  have hinjective : Function.Injective (List.map UInt8.toNat) :=
    List.map_injective_iff.mpr fun _ _ => UInt8.toNat.inj
  rw [character_iff]
  refine exists_congr fun v => and_congr_right fun hv => ?_
  rw [← map_toNat_encode hv]
  exact hinjective.eq_iff

theorem wellFormed_iff {bytes : List UInt8} : WellFormed bytes ↔
      ∃ cs : List (List UInt8), (∀ c ∈ cs, Character (c.map UInt8.toNat)) ∧ bytes = cs.flatten := by
  constructor
  · rintro ⟨vs, hvs, rfl⟩
    refine ⟨vs.map encode, fun c hc => ?_, (List.flatMap_def ..)⟩
    obtain ⟨v, hv, rfl⟩ := List.mem_map.mp hc
    exact character_map_toNat_iff.mpr ⟨v, hvs v hv, rfl⟩
  · rintro ⟨cs, hcs, rfl⟩
    induction cs with
    | nil => exact wellFormed_nil
    | cons c cs ih =>
      obtain ⟨hc, hrest⟩ := List.forall_mem_cons.mp hcs
      obtain ⟨v, hv, rfl⟩ := character_map_toNat_iff.mp hc
      exact (wellFormed_encode hv).append (ih hrest)

end Protoc.Lib.Utf8

namespace Protoc.Lib.Utf8

/-! ## The well-formed part of a string -/

instance (b : ℕ) : Decidable (Continuation b) := inferInstanceAs (Decidable (_ ∧ _))

instance : (l : List ℕ) → Decidable (Character l)
  | [] => inferInstanceAs (Decidable False)
  | [_] => inferInstanceAs (Decidable (_ < _))
  | [_, _] => inferInstanceAs (Decidable (_ ∧ _))
  | [_, _, _] => inferInstanceAs (Decidable (_ ∨ _ ∨ _))
  | [_, _, _, _] => inferInstanceAs (Decidable (_ ∨ _ ∨ _))
  | _ :: _ :: _ :: _ :: _ :: _ => inferInstanceAs (Decidable False)

def leadLength (a : ℕ) : ℕ :=
  if a < 0x80 then 1 else if a < 0xE0 then 2 else if a < 0xF0 then 3 else 4

/-- The length of the first character of a string, or zero. -/
def firstLength : List UInt8 → ℕ
  | [] => 0
  | a :: s =>
    if Character (((a :: s).take (leadLength a.toNat)).map UInt8.toNat) then leadLength a.toNat else 0

/-- The characters of a string up to the first byte that is in none; each takes a byte, so as many rounds
as there are bytes are enough. -/
def spanLoop : ℕ → List UInt8 → ℕ
  | 0, _ => 0
  | rounds + 1, s =>
    let n := firstLength s
    if n = 0 then 0 else n + spanLoop rounds (s.drop n)

/-- The length of the longest prefix that is well formed. -/
def span (s : List UInt8) : ℕ := spanLoop s.length s

variable {s t w : List UInt8} {n v : ℕ}

/-! ## Characters -/

theorem character_length {a : ℕ} {l : List ℕ} (h : Character (a :: l)) : (a :: l).length = leadLength a := by
  rcases l with _ | ⟨b, _ | ⟨c, _ | ⟨d, _ | ⟨e, l⟩⟩⟩⟩
  · simp only [Character] at h
    simp [leadLength, h]
  · simp only [Character] at h
    rw [leadLength, if_neg (by omega), if_pos (by omega)]
    rfl
  · simp only [Character] at h
    rw [leadLength, if_neg (by omega), if_neg (by omega), if_pos (by omega)]
    rfl
  · simp only [Character] at h
    rw [leadLength, if_neg (by omega), if_neg (by omega), if_neg (by omega)]
    rfl
  · exact absurd h id

theorem firstLength_append {c : List UInt8} (hc : Character (c.map UInt8.toNat)) (t : List UInt8) :
    firstLength (c ++ t) = c.length := by
  cases c with
  | nil => exact absurd hc id
  | cons a c =>
    have hlength := character_length hc
    rw [List.length_cons, List.length_map] at hlength
    have htake : ((a :: c) ++ t).take (leadLength a.toNat) = a :: c := by
      rw [← hlength]
      exact List.take_left' (List.length_cons ..)
    rw [List.cons_append] at htake ⊢
    rw [firstLength, htake, if_pos hc, ← hlength, List.length_cons]

/-! ## The span -/

theorem spanLoop_eq {rounds : ℕ} (h : s.length ≤ rounds) : spanLoop rounds s = span s := by
  induction rounds using Nat.strong_induction_on generalizing s with
  | _ rounds ih =>
    cases s with
    | nil => cases rounds <;> rfl
    | cons a s =>
      obtain ⟨r, rfl⟩ := Nat.exists_eq_succ_of_ne_zero (Nat.ne_of_gt (Nat.lt_of_lt_of_le (Nat.succ_pos _) h))
      rw [span, List.length_cons, spanLoop, spanLoop]
      split_ifs with hzero
      · rfl
      · have hdrop : ((a :: s).drop (firstLength (a :: s))).length ≤ s.length := by
          rw [List.length_drop, List.length_cons]
          omega
        rw [List.length_cons] at h
        rw [ih r (Nat.lt_succ_self r) (Nat.le_trans hdrop (Nat.le_of_succ_le_succ h))]
        by_cases hlt : s.length < r + 1
        · rw [ih s.length hlt hdrop]
        · omega

theorem span_of_firstLength (h : firstLength s = 0) : span s = 0 := by
  cases s with
  | nil => rfl
  | cons a s => rw [span, List.length_cons, spanLoop, if_pos h]

theorem span_drop (h : firstLength s ≠ 0) : span s = firstLength s + span (s.drop (firstLength s)) := by
  cases s with
  | nil => exact absurd rfl h
  | cons a s =>
    rw [span, List.length_cons, spanLoop, if_neg h, spanLoop_eq]
    rw [List.length_drop, List.length_cons]
    omega

/-- **What comes after a well-formed prefix.** -/
theorem span_append (hw : WellFormed w) (t : List UInt8) : span (w ++ t) = w.length + span t := by
  obtain ⟨cs, hcs, rfl⟩ := wellFormed_iff.mp hw
  clear hw
  induction cs with
  | nil => simp
  | cons c cs ih =>
    obtain ⟨hc, hrest⟩ := List.forall_mem_cons.mp hcs
    have hfirst := firstLength_append hc (cs.flatten ++ t)
    have hne : c.length ≠ 0 := by
      intro hzero
      rw [List.length_eq_zero_iff.mp hzero] at hc
      exact hc
    rw [List.flatten_cons, List.append_assoc, span_drop (by rwa [hfirst]), hfirst, List.drop_left, ih hrest,
      List.length_append, Nat.add_assoc]

theorem span_eq_length (hw : WellFormed w) : span w = w.length := by
  have h := span_append hw []
  rwa [List.append_nil] at h

end Protoc.Lib.Utf8
