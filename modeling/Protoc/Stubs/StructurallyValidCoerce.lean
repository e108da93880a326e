import Mathlib.Data.List.Forall2
import Protoc.Stubs.StructurallyValidScan

/-!
# Coercion to UTF-8

`UTF8CoerceToStructurallyValid` keeps the longest well-formed prefix, overwrites the byte behind
it, and goes on with the rest.
-/

namespace Protoc.Stubs

open Protoc.Lib
open List Option
open Protoc.Lib.Utf8 (WellFormed)

/-! ## The function -/

/-- The loop: `src` points to a bogus byte or is off the end; every round takes a byte, so as many
rounds as there are bytes are enough. -/
def coerceLoop (moduleInitialized : Bool) (replaceChar : UInt8) :
    ℕ → ℕ → List UInt8 → Option (List UInt8)
  | _, _, [] => some []
  | 0, _, _ :: _ => none
  | rounds + 1, addr, _ :: src => do
      -- one bad byte is replaced, and the next good chunk copied
      let n ← utf8SpnStructurallyValid moduleInitialized (addr + 1) src
      let rest ← coerceLoop moduleInitialized replaceChar rounds (addr + 1 + n.toNat) (src.drop n.toNat)
      some (replaceChar :: (src.take n.toNat ++ rest))

/-- `UTF8CoerceToStructurallyValid`: the bytes behind the pointer that it returns. -/
def utf8CoerceToStructurallyValid (moduleInitialized : Bool) (addr : ℕ) (srcStr : List UInt8)
    (replaceChar : UInt8) : Option (List UInt8) := do
  let len := sizeToInt srcStr.length
  let n ← utf8SpnStructurallyValid moduleInitialized addr srcStr
  if n = len then some srcStr
  else do
    let src := srcStr.take len.toNat
    let rest ← coerceLoop moduleInitialized replaceChar src.length (addr + n.toNat) (src.drop n.toNat)
    some (src.take n.toNat ++ rest)

/-- The runs that the scans find: the first one at the beginning, and each other one behind the byte
that stopped the one before. -/
inductive Run (addr : ℕ) (src : List UInt8) : ℕ → ℕ → Prop
  | first {n : ℕ} (h : utf8SpnStructurallyValid true addr src = some (n : ℤ)) : Run addr src 0 n
  | next {start n m : ℕ} (h : Run addr src start n) (hlt : start + n < src.length)
      (hm : utf8SpnStructurallyValid true (addr + (start + n + 1)) (src.drop (start + n + 1)) =
        some (m : ℤ)) : Run addr src (start + n + 1) m

/-! ## Runs and bytes between them -/

variable {src dst : List UInt8} {r : UInt8} {addr : ℕ}

/-- Longest well-formed runs that are kept, and the byte behind each overwritten. -/
inductive Coerced (r : UInt8) : List UInt8 → List UInt8 → Prop
  | run {w : List UInt8} (hw : WellFormed w) : Coerced r w w
  | bad {w rest out : List UInt8} {b : UInt8} (hw : LongestWellFormed (w ++ b :: rest) w.length)
      (h : Coerced r rest out) : Coerced r (w ++ b :: rest) (w ++ r :: out)

theorem LongestWellFormed.unique {n m : ℕ} (h : LongestWellFormed src n) (h' : LongestWellFormed src m) :
    n = m :=
  le_antisymm (h'.2.2 n h.1 h.2.1) (h.2.2 m h'.1 h'.2.1)

theorem wellFormed_singleton (hr : r.toNat < 0x80) : WellFormed [r] :=
  Utf8.wellFormed_iff.mpr ⟨[[r]], by simpa [Utf8.Character] using hr, rfl⟩

namespace Coerced

section
variable (h : Coerced r src dst)
include h

theorem forall₂ : List.Forall₂ (fun a b => b = a ∨ b = r) src dst := by
  have hsame : ∀ w : List UInt8, List.Forall₂ (fun a b => b = a ∨ b = r) w w := fun w =>
    forall₂_same.mpr fun _ _ => Or.inl rfl
  induction h with
  | run hw => exact hsame _
  | bad hw h ih => exact rel_append (hsame _) (.cons (Or.inr rfl) ih)

theorem length_eq : dst.length = src.length := h.forall₂.length_eq.symm

theorem wellFormed (hr : r.toNat < 0x80) : WellFormed dst := by
  induction h with
  | run hw => exact hw
  | @bad w rest out b hw h ih =>
    have hfirst : WellFormed w := by
      have hprefix := hw.2.1
      rwa [take_left] at hprefix
    exact hfirst.append ((wellFormed_singleton hr).append ih)

theorem eq_of_wellFormed (hsrc : WellFormed src) : dst = src := by
  cases h with
  | run hw => rfl
  | @bad w rest out b hw h =>
    have hlength := hw.eq_length_iff.mpr hsrc
    rw [length_append, length_cons] at hlength
    omega

theorem split {n : ℕ} (hn : LongestWellFormed src n) :
    dst.take n = src.take n ∧ (n < src.length → Coerced r (src.drop (n + 1)) (dst.drop (n + 1))) := by
  cases h with
  | run hw =>
    obtain rfl := hn.unique ((LongestWellFormed.eq_length_iff hn).mpr hw ▸ hn)
    have hlength := hn.eq_length_iff.mpr hw
    exact ⟨rfl, fun hlt => absurd hlength hlt.ne⟩
  | @bad w rest out b hw h =>
    obtain rfl := hn.unique hw
    have hdrop : ∀ (x : UInt8) (l : List UInt8), (w ++ x :: l).drop (w.length + 1) = l := by
      intro x l
      rw [drop_length_add_append]
      rfl
    refine ⟨by rw [take_left, take_left], fun _ => ?_⟩
    rwa [hdrop, hdrop]

end

end Coerced

/-! ## The loop -/

/-- A scan, and the loop from the byte that stopped it on. -/
theorem coerceLoop_spec (r : UInt8) {rounds : ℕ} (addr : ℕ) (hrounds : src.length ≤ rounds)
    (hmax : src.length ≤ intMax) :
    ∃ (n : ℕ) (out : List UInt8), utf8SpnStructurallyValid true addr src = some (n : ℤ) ∧
      LongestWellFormed src n ∧ coerceLoop true r rounds (addr + n) (src.drop n) = some out ∧
      Coerced r src (src.take n ++ out) := by
  induction rounds generalizing src addr with
  | zero =>
    obtain rfl : src = [] := length_eq_zero_iff.mp (Nat.le_zero.mp hrounds)
    obtain ⟨n, hn, hlongest⟩ := utf8SpnStructurallyValid_spec addr hmax
    exact ⟨n, [], hn, hlongest, by rw [drop_nil]; rfl, by simpa using .run Utf8.wellFormed_nil⟩
  | succ rounds ih =>
    obtain ⟨n, hn, hlongest⟩ := utf8SpnStructurallyValid_spec addr hmax
    cases hdrop : src.drop n with
    | nil =>
      have hle : src.length ≤ n := drop_eq_nil_iff.mp hdrop
      have hwell : WellFormed src := hlongest.eq_length_iff.mp (le_antisymm hlongest.1 hle)
      refine ⟨n, [], hn, hlongest, by rw [hdrop]; rfl, ?_⟩
      rw [append_nil, take_of_length_le hle]
      exact .run hwell
    | cons b rest =>
      have hsplit : src = src.take n ++ b :: rest := by rw [← hdrop, take_append_drop]
      have hlength : src.length = n + (rest.length + 1) := by
        have h := congrArg List.length hsplit
        rwa [length_append, length_cons, length_take_of_le hlongest.1] at h
      obtain ⟨m, out, hm, -, hloop, hcoerced⟩ :=
        ih (addr + n + 1) (show rest.length ≤ _ by omega) (by omega)
      refine ⟨n, r :: (rest.take m ++ out), hn, hlongest, ?_, ?_⟩
      · rw [hdrop, coerceLoop, hm, bind_eq_bind, bind_some, Int.toNat_natCast, hloop]
        rfl
      · have hbad : Coerced r (src.take n ++ b :: rest) (src.take n ++ r :: (rest.take m ++ out)) := by
          refine .bad ?_ hcoerced
          rw [← hsplit, length_take_of_le hlongest.1]
          exact hlongest
        rwa [← hsplit] at hbad

theorem coerce_spec (r : UInt8) (addr : ℕ) (hmax : src.length ≤ intMax) :
    ∃ out, utf8CoerceToStructurallyValid true addr src r = some out ∧ Coerced r src out := by
  obtain ⟨n, out, hn, hlongest, hloop, hcoerced⟩ := coerceLoop_spec r addr le_rfl hmax
  rw [utf8CoerceToStructurallyValid, sizeToInt_of_le hmax, hn]
  by_cases hall : n = src.length
  · have hwell := hlongest.eq_length_iff.mp hall
    refine ⟨src, ?_, .run hwell⟩
    rw [bind_eq_bind, bind_some, if_pos (congrArg Nat.cast hall)]
  · refine ⟨src.take n ++ out, ?_, hcoerced⟩
    rw [bind_eq_bind, bind_some, if_neg (by exact_mod_cast hall), Int.toNat_natCast,
      Int.toNat_natCast, take_length]
    dsimp only
    rw [hloop]
    rfl

/-! ## The result -/

theorem Coerced.run_spec (h : Coerced r src dst) (hmax : src.length ≤ intMax) {start n : ℕ}
    (hrun : Run addr src start n) : start ≤ src.length ∧ LongestWellFormed (src.drop start) n ∧
      Coerced r (src.drop start) (dst.drop start) := by
  have hfound : ∀ {a : ℕ} {s : List UInt8} {n : ℕ}, s.length ≤ intMax →
      utf8SpnStructurallyValid true a s = some (n : ℤ) → LongestWellFormed s n := by
    intro a s n hle hn
    obtain ⟨m, hm, hlongest⟩ := utf8SpnStructurallyValid_spec a hle
    obtain rfl : m = n := Int.ofNat_inj.mp (some_inj.mp (hm.symm.trans hn))
    exact hlongest
  induction hrun with
  | first hn => exact ⟨Nat.zero_le _, hfound hmax hn, h⟩
  | @next start n m hrun hlt hm ih =>
    obtain ⟨hstart, hlongest, hcoerced⟩ := ih
    obtain ⟨-, hrest⟩ := hcoerced.split hlongest
    have hrest := hrest (by rw [length_drop]; omega)
    rw [drop_drop, drop_drop, ← add_assoc] at hrest
    exact ⟨hlt, hfound (by rw [length_drop]; omega) hm, hrest⟩

/-- What a coercion makes of a string. -/
structure Repairs (addr : ℕ) (r : UInt8) (src out : List UInt8) : Prop where
  /-- The same length. -/
  length : out.length = src.length
  /-- Structurally valid. -/
  valid : WellFormed out
  /-- A byte that differs is the replacement. -/
  replaced : ∀ i : ℕ, out[i]? ≠ src[i]? → out[i]? = some r
  /-- Each run of a scan is the longest well-formed one from where it starts, and stays. -/
  kept : ∀ start n, Run addr src start n → LongestWellFormed (src.drop start) n ∧
    (out.drop start).take n = (src.drop start).take n
  /-- A valid string stays as it is. -/
  unchanged : WellFormed src → out = src

theorem Coerced.repairs (h : Coerced r src dst) (hr : r.toNat < 0x80) (hmax : src.length ≤ intMax)
    (addr : ℕ) : Repairs addr r src dst where
  length := h.length_eq
  valid := h.wellFormed hr
  replaced i hne := by
    have hbytes := forall₂_iff_get.mp h.forall₂
    by_cases hi : i < src.length
    · have hi' : i < dst.length := by rw [h.length_eq]; exact hi
      rcases hbytes.2 i hi hi' with hsame | hreplaced
      · refine absurd ?_ hne
        rw [List.getElem?_eq_getElem hi, List.getElem?_eq_getElem hi']
        exact congrArg some hsame
      · rw [List.getElem?_eq_getElem hi']
        exact congrArg some hreplaced
    · refine absurd ?_ hne
      rw [List.getElem?_eq_none (not_lt.mp hi), List.getElem?_eq_none (h.length_eq ▸ not_lt.mp hi)]
  kept start n hrun := by
    obtain ⟨-, hlongest, hcoerced⟩ := h.run_spec hmax hrun
    exact ⟨hlongest, (hcoerced.split hlongest).1⟩
  unchanged := h.eq_of_wellFormed

/-- **Coercion repairs minimally** once the module is initialized, and a second one changes nothing;
before that every string counts as valid and stays. -/
theorem coerce_repairs (moduleInitialized : Bool) (addr : ℕ) (src : List UInt8) (replaceChar : UInt8)
    (hascii : replaceChar.toNat < 0x80) (hmax : src.length ≤ intMax) :
    ∃ out, utf8CoerceToStructurallyValid moduleInitialized addr src replaceChar = some out ∧
      (if moduleInitialized then Repairs addr replaceChar src out ∧
        ∀ addr', utf8CoerceToStructurallyValid true addr' out replaceChar = some out
      else out = src) := by
  cases moduleInitialized with
  | false =>
    refine ⟨src, ?_, rfl⟩
    rw [utf8CoerceToStructurallyValid, utf8SpnStructurallyValid, if_neg (by decide),
      bind_eq_bind, bind_some, if_pos rfl]
  | true =>
    obtain ⟨out, hout, hcoerced⟩ := coerce_spec replaceChar addr hmax
    refine ⟨out, hout, hcoerced.repairs hascii hmax addr, fun addr' => ?_⟩
    obtain ⟨again, hagain, hcoerced'⟩ :=
      coerce_spec replaceChar addr' (show out.length ≤ intMax from hcoerced.length_eq ▸ hmax)
    rw [hagain, hcoerced'.eq_of_wellFormed (hcoerced.wellFormed hascii)]

/-- A truncated character is overwritten byte by byte. -/
theorem coerce_repairs_truncated : Repairs 0 0x20 [0x61, 0xE2, 0x82, 0x62] [0x61, 0x20, 0x20, 0x62] := by
  obtain ⟨out, hout, hrepairs, -⟩ :=
    coerce_repairs true 0 [0x61, 0xE2, 0x82, 0x62] 0x20 (by decide) (by decide)
  have hrun : utf8CoerceToStructurallyValid true 0 [0x61, 0xE2, 0x82, 0x62] 0x20 =
      some [0x61, 0x20, 0x20, 0x62] := by decide +kernel
  obtain rfl := some_inj.mp (hout.symm.trans hrun)
  exact hrepairs

theorem not_wellFormed_replicate {n : ℕ} (hn : 4 ≤ n) : ¬ WellFormed (replicate n 0xFF) := by
  intro hwell
  have hzero : Utf8.firstLength (replicate n 0xFF) = 0 := by
    obtain ⟨k, rfl⟩ := Nat.exists_eq_add_of_le' (le_trans (by decide : 1 ≤ 4) hn)
    have hfour : List.take 4 (replicate (k + 1) (0xFF : UInt8)) = replicate 4 0xFF := by
      rw [take_replicate, min_eq_left hn]
    rw [replicate_succ] at hfour ⊢
    rw [Utf8.firstLength, show Utf8.leadLength (0xFF : UInt8).toNat = 4 by decide, hfour]
    exact if_neg (by decide)
  have hlength := Utf8.span_eq_length hwell
  rw [Utf8.span_of_firstLength hzero, length_replicate] at hlength
  omega

theorem coerce_of_length {n : ℕ} (hn : n % 2 ^ 32 = 0) (h : src.length = n) (r : UInt8) :
    utf8CoerceToStructurallyValid true addr src r = some src := by
  have hlen : sizeToInt src.length = 0 := by
    have hbits : BitVec.ofNat 32 n = 0 := BitVec.eq_of_toNat_eq (by rw [BitVec.toNat_ofNat, hn]; rfl)
    rw [h, sizeToInt, hbits]
    rfl
  have hscan : utf8SpnStructurallyValid true addr src = some 0 := by
    rw [utf8SpnStructurallyValid, if_pos rfl, hlen, utf8GenericScanFastAscii, if_pos rfl]
    rfl
  rw [utf8CoerceToStructurallyValid, hscan, hlen, bind_eq_bind, bind_some, if_pos rfl]

/-- Before the module is initialized a byte that is no character stays; and 2^32 such bytes stay
after that. -/
theorem not_coerced_uninitialized_long :
    (utf8CoerceToStructurallyValid false 0 [0xFF] 0x20 = some [0xFF] ∧ ¬ WellFormed [0xFF]) ∧
      utf8CoerceToStructurallyValid true 0 (replicate (2 ^ 32) 0xFF) 0x20 =
        some (replicate (2 ^ 32) 0xFF) ∧ ¬ WellFormed (replicate (2 ^ 32) 0xFF) := by
  refine ⟨⟨by decide +kernel, ?_⟩, coerce_of_length (Nat.mod_self _) length_replicate _,
    not_wellFormed_replicate (by decide)⟩
  obtain ⟨valid, hvalid, hiff⟩ := isStructurallyValidUTF8_spec 0 [0xFF]
  have hfalse : isStructurallyValidUTF8 true 0 [0xFF] 1 = some false := by decide +kernel
  obtain rfl : valid = false := some.inj (hvalid.symm.trans hfalse)
  exact fun hwell => absurd (hiff.mpr hwell) (by decide)

end Protoc.Stubs
