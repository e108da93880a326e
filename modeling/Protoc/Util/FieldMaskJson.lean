import Protoc.Lib.Words
import Protoc.Util.FieldMask

/-!
# The JSON form of a field mask

A path is written in camel case for JSON and in snake case everywhere else.  Each converter
rejects what the other never writes, and both compute one relation, `CamelCase`, read in
opposite directions.
-/

namespace Protoc.Util

open Protoc.Lib List

/-! ## From the source -/

/-- `input[i] >= 'A' && input[i] <= 'Z'`. -/
def isUppercase (c : UInt8) : Bool := 65 ≤ c && c ≤ 90

/-- `input[i] >= 'a' && input[i] <= 'z'`. -/
def isLowercase (c : UInt8) : Bool := 97 ≤ c && c ≤ 122

/-- The `'_'` between the words of a name. -/
def underscore : UInt8 := 95

/-- The `','` between the paths of a mask. -/
def comma : UInt8 := 44

/-- The loop of `SnakeCaseToCamelCase`; `output` holds what is written so far. -/
def snakeCaseToCamelCaseLoop : Bool → Str → Str → Bool × Str
  | afterUnderscore, output, [] =>
    -- a trailing `_` fails
    (!afterUnderscore, output)
  | afterUnderscore, output, c :: input =>
    if isUppercase c then (false, output)
    else if afterUnderscore then
      if isLowercase c then snakeCaseToCamelCaseLoop false (output ++ [c + 65 - 97]) input
      else (false, output)
    else if c = underscore then snakeCaseToCamelCaseLoop true output input
    else snakeCaseToCamelCaseLoop false (output ++ [c]) input

/-- `SnakeCaseToCamelCase`. -/
def snakeCaseToCamelCase (input : Str) : Bool × Str := snakeCaseToCamelCaseLoop false [] input

/-- The loop of `CamelCaseToSnakeCase`. -/
def camelCaseToSnakeCaseLoop : Str → Str → Bool × Str
  | output, [] => (true, output)
  | output, c :: input =>
    if c = underscore then (false, output)
    else if isUppercase c then
      camelCaseToSnakeCaseLoop (output ++ [underscore, c + 97 - 65]) input
    else camelCaseToSnakeCaseLoop (output ++ [c]) input

/-- `CamelCaseToSnakeCase`. -/
def camelCaseToSnakeCase (input : Str) : Bool × Str := camelCaseToSnakeCaseLoop [] input

/-- The loop of `ToJsonString`; `first` says that `i` is zero. -/
def toJsonStringLoop : Bool → Str → FieldMask → Bool × Str
  | _, out, [] => (true, out)
  | first, out, path :: paths =>
    match snakeCaseToCamelCase path with
    | (false, _) => (false, out)
    | (true, camelcasePath) =>
      toJsonStringLoop false (out ++ (if first then [] else [comma]) ++ camelcasePath) paths

/-- `ToJsonString`. -/
def toJsonString (mask : FieldMask) : Bool × Str := toJsonStringLoop true [] mask

/-- The loop of `FromJsonString` over the parts of the text. -/
def fromJsonStringLoop : FieldMask → List Str → Bool × FieldMask
  | out, [] => (true, out)
  | out, path :: paths =>
    if path = [] then fromJsonStringLoop out paths
    else
      match camelCaseToSnakeCase path with
      | (false, _) => (false, out)
      | (true, snakecasePath) => fromJsonStringLoop (out ++ [snakecasePath]) paths

/-- `FromJsonString`. -/
def fromJsonString (str : Str) : Bool × FieldMask := fromJsonStringLoop [] (split comma str)

/-! ## One relation for both converters -/

/-- `name` is the camel case of `path`: a letter behind an underscore becomes a capital, and
everything else stays. -/
inductive CamelCase : Str → Str → Prop
  | nil : CamelCase [] []
  | plain {c : UInt8} {path name : Str} (hupper : isUppercase c = false) (hc : c ≠ underscore)
      (h : CamelCase path name) : CamelCase (c :: path) (c :: name)
  | word {c : UInt8} {path name : Str} (hlower : isLowercase c = true)
      (h : CamelCase path name) : CamelCase (underscore :: c :: path) ((c + 65 - 97) :: name)

theorem isUppercase_underscore : isUppercase underscore = false := rfl

theorem isUppercase_of_isLowercase {c : UInt8} (h : isLowercase c = true) :
    isUppercase (c + 65 - 97) = true ∧ isUppercase c = false ∧ c + 65 - 97 ≠ underscore :=
  forall_byte (P := fun c => isLowercase c = true → isUppercase (c + 65 - 97) = true ∧
    isUppercase c = false ∧ c + 65 - 97 ≠ underscore) (by decide +kernel) c h

theorem isLowercase_of_isUppercase {c : UInt8} (h : isUppercase c = true) : isLowercase (c + 97 - 65) = true :=
  forall_byte (P := fun c => isUppercase c = true → isLowercase (c + 97 - 65) = true)
    (by decide +kernel) c h

variable {path name : Str}

theorem snakeCaseToCamelCaseLoop_of_camelCase (h : CamelCase path name)
    (output : Str) : snakeCaseToCamelCaseLoop false output path = (true, output ++ name) := by
  induction h generalizing output with
  | nil => simp [snakeCaseToCamelCaseLoop]
  | plain hupper hc _ ih => simp [snakeCaseToCamelCaseLoop, hupper, hc, ih]
  | word hlower _ ih =>
    obtain ⟨-, hupper, -⟩ := isUppercase_of_isLowercase hlower
    simp [snakeCaseToCamelCaseLoop, isUppercase_underscore, hupper, hlower, ih]

/-- Where `SnakeCaseToCamelCase` succeeds, it has written a camel case; behind an underscore,
that of the path with the underscore put back. -/
theorem camelCase_of_snakeCaseToCamelCaseLoop {afterUnderscore : Bool} {output path out : Str}
    (h : snakeCaseToCamelCaseLoop afterUnderscore output path = (true, out)) :
    ∃ name, out = output ++ name ∧
      CamelCase (if afterUnderscore then underscore :: path else path) name := by
  induction path generalizing afterUnderscore output with
  | nil =>
    cases afterUnderscore with
    | false =>
      simp only [snakeCaseToCamelCaseLoop, Prod.mk.injEq] at h
      exact ⟨[], by simp [h.2], CamelCase.nil⟩
    | true => simp [snakeCaseToCamelCaseLoop] at h
  | cons c path ih =>
    rw [snakeCaseToCamelCaseLoop] at h
    by_cases hupper : isUppercase c = true
    · simp [hupper] at h
    · rw [if_neg hupper] at h
      rw [Bool.not_eq_true] at hupper
      cases afterUnderscore with
      | true =>
        rw [if_pos rfl] at h
        by_cases hlower : isLowercase c = true
        · rw [if_pos hlower] at h
          obtain ⟨name, hout, hname⟩ := ih h
          exact ⟨(c + 65 - 97) :: name, by simp [hout], CamelCase.word hlower hname⟩
        · simp [hlower] at h
      | false =>
        rw [if_neg (by simp)] at h
        by_cases hc : c = underscore
        · rw [if_pos hc] at h
          obtain ⟨name, hout, hname⟩ := ih h
          exact ⟨name, hout, by simpa [hc] using hname⟩
        · rw [if_neg hc] at h
          obtain ⟨name, hout, hname⟩ := ih h
          exact ⟨c :: name, by simp [hout], CamelCase.plain hupper hc hname⟩

/-- **`SnakeCaseToCamelCase` computes the relation from left to right.** -/
theorem snakeCaseToCamelCase_eq_true_iff : snakeCaseToCamelCase path = (true, name) ↔ CamelCase path name := by
  constructor
  · intro h
    obtain ⟨name', hname', hcase⟩ := camelCase_of_snakeCaseToCamelCaseLoop h
    rw [nil_append] at hname'
    rw [hname']
    exact hcase
  · intro h
    exact snakeCaseToCamelCaseLoop_of_camelCase h []

theorem camelCaseToSnakeCaseLoop_of_camelCase (h : CamelCase path name)
    (output : Str) : camelCaseToSnakeCaseLoop output name = (true, output ++ path) := by
  induction h generalizing output with
  | nil => simp [camelCaseToSnakeCaseLoop]
  | plain hupper hc _ ih => simp [camelCaseToSnakeCaseLoop, hupper, hc, ih]
  | word hlower _ ih =>
    obtain ⟨hupper, -, hne⟩ := isUppercase_of_isLowercase hlower
    simp [camelCaseToSnakeCaseLoop, hne, hupper, ih]

theorem camelCase_of_camelCaseToSnakeCaseLoop {output name out : Str}
    (h : camelCaseToSnakeCaseLoop output name = (true, out)) :
    ∃ path, out = output ++ path ∧ CamelCase path name := by
  induction name generalizing output with
  | nil =>
    simp only [camelCaseToSnakeCaseLoop, Prod.mk.injEq] at h
    exact ⟨[], by simp [h.2], CamelCase.nil⟩
  | cons c name ih =>
    rw [camelCaseToSnakeCaseLoop] at h
    by_cases hc : c = underscore
    · simp [hc] at h
    · rw [if_neg hc] at h
      by_cases hupper : isUppercase c = true
      · rw [if_pos hupper] at h
        obtain ⟨path, hout, hpath⟩ := ih h
        have hword := CamelCase.word (isLowercase_of_isUppercase hupper) hpath
        have hback : c + 97 - 65 + 65 - 97 = c := by simp
        rw [hback] at hword
        exact ⟨underscore :: (c + 97 - 65) :: path, by simp [hout], hword⟩
      · rw [if_neg hupper] at h
        obtain ⟨path, hout, hpath⟩ := ih h
        rw [Bool.not_eq_true] at hupper
        exact ⟨c :: path, by simp [hout], CamelCase.plain hupper hc hpath⟩

/-- **`CamelCaseToSnakeCase` computes the same relation from right to left.** -/
theorem camelCaseToSnakeCase_eq_true_iff : camelCaseToSnakeCase name = (true, path) ↔ CamelCase path name := by
  constructor
  · intro h
    obtain ⟨path', hpath', hcase⟩ := camelCase_of_camelCaseToSnakeCaseLoop h
    rw [nil_append] at hpath'
    rw [hpath']
    exact hcase
  · intro h
    exact camelCaseToSnakeCaseLoop_of_camelCase h []

theorem CamelCase.isPart (h : CamelCase path name) (hpath : IsPart comma path) : IsPart comma name := by
  have hcomma : comma ∉ path → comma ∉ name := by
    clear hpath
    induction h with
    | nil => exact id
    | plain _ _ _ ih =>
      intro hnot
      simp only [mem_cons, not_or] at hnot ⊢
      exact ⟨hnot.1, ih hnot.2⟩
    | word hlower _ ih =>
      intro hnot
      simp only [mem_cons, not_or] at hnot ⊢
      refine ⟨fun heq => ?_, ih hnot.2.2⟩
      obtain ⟨hupper, -, -⟩ := isUppercase_of_isLowercase hlower
      rw [← heq] at hupper
      exact absurd hupper (by decide)
  refine ⟨fun hnil => ?_, hcomma hpath.2⟩
  rw [hnil] at h
  cases h
  exact hpath.1 rfl

/-! ## The masks -/

variable {mask : FieldMask}

/-- Where `ToJsonString` succeeds, each path has a name, and the names stand in the text with
commas between them. -/
theorem exists_names_of_toJsonStringLoop {first : Bool} {out out' : Str}
    (h : toJsonStringLoop first out mask = (true, out')) :
    ∃ names : List Str, List.Forall₂ CamelCase mask names ∧
      out' = out ++ (if first = true ∨ mask = [] then [] else [comma]) ++
        [comma].intercalate names := by
  induction mask generalizing first out with
  | nil =>
    simp only [toJsonStringLoop, Prod.mk.injEq] at h
    exact ⟨[], List.Forall₂.nil, by simp [h.2]⟩
  | cons path mask ih =>
    rw [toJsonStringLoop] at h
    rcases hcamel : snakeCaseToCamelCase path with ⟨ok, name⟩
    cases ok with
    | false => simp [hcamel] at h
    | true =>
      simp only [hcamel] at h
      obtain ⟨names, hnames, hout⟩ := ih h
      refine ⟨name :: names, .cons (snakeCaseToCamelCase_eq_true_iff.mp hcamel) hnames, ?_⟩
      cases hnames with
      | nil => simp [hout]
      | cons _ _ =>
        rw [intercalate_cons_of_ne_nil (by simp)]
        simp [hout]

theorem fromJsonStringLoop_names {names : List Str}
    (h : List.Forall₂ CamelCase mask names) (hparts : ∀ name ∈ names, name ≠ [])
    (out : FieldMask) : fromJsonStringLoop out names = (true, out ++ mask) := by
  induction h generalizing out with
  | nil => simp [fromJsonStringLoop]
  | @cons path name mask names hname _ ih =>
    have hne : name ≠ [] := hparts name mem_cons_self
    have hback := camelCaseToSnakeCase_eq_true_iff.mpr hname
    simp [fromJsonStringLoop, hne, hback, ih fun n hmem => hparts n (mem_cons_of_mem _ hmem)]

theorem isPart_names {names : List Str} (h : List.Forall₂ CamelCase mask names)
    (hmask : ∀ path ∈ mask, IsPart comma path) : ∀ name ∈ names, IsPart comma name := by
  induction h with
  | nil => simp
  | cons hname _ ih =>
    rw [forall_mem_cons] at hmask ⊢
    exact ⟨hname.isPart hmask.1, ih hmask.2⟩

/-- **The JSON form goes both ways.**  The two converters are inverse to each other where they
succeed, and a mask whose paths are not empty and without commas comes back from its JSON
form. -/
theorem json_form_roundTrip :
    (∀ s c : Str, snakeCaseToCamelCase s = (true, c) → camelCaseToSnakeCase c = (true, s)) ∧
    (∀ s c : Str, camelCaseToSnakeCase c = (true, s) → snakeCaseToCamelCase s = (true, c)) ∧
    ∀ (mask : FieldMask) (out : Str), (∀ path ∈ mask, path ≠ [] ∧ comma ∉ path) →
      toJsonString mask = (true, out) → fromJsonString out = (true, mask) := by
  refine ⟨fun s c h => ?_, fun s c h => ?_, fun mask out hmask h => ?_⟩
  · rw [camelCaseToSnakeCase_eq_true_iff]
    exact snakeCaseToCamelCase_eq_true_iff.mp h
  · rw [snakeCaseToCamelCase_eq_true_iff]
    exact camelCaseToSnakeCase_eq_true_iff.mp h
  · obtain ⟨names, hnames, hout⟩ := exists_names_of_toJsonStringLoop h
    have hparts := isPart_names hnames hmask
    have hsplit : split comma out = names := by
      rw [hout]
      simpa using split_join hparts
    rw [fromJsonString, hsplit]
    simpa using fromJsonStringLoop_names hnames (fun name hmem => (hparts name hmem).1) []

/-- `foo_bar,b2` goes to `fooBar,b2` and back. -/
theorem json_form_roundTrip_two : fromJsonString [102, 111, 111, 66, 97, 114, 44, 98, 50] =
      (true, [[102, 111, 111, 95, 98, 97, 114], [98, 50]]) :=
  json_form_roundTrip.2.2 [[102, 111, 111, 95, 98, 97, 114], [98, 50]] _ (by decide) (by decide)

end Protoc.Util
