import Protoc.Database.EncodedDatabase
import Protoc.Database.SimpleLookup

/-!
# The encoded index and the simple one

The sets and vectors of the encoded index together hold what the simple index holds in its
maps.  Additions and merges keep it so, on conditions that the source does not check: a name
or an extension that is already flat is not added again, no symbol is overlooked in one of the
two tiers, and a symbol in a package is not empty.
-/

namespace Protoc.Database

open Protoc.Lib Protoc.Lib.Sorted
open List DescriptorIndex
open Protoc.Util (Str dot)

/-! ## Comparing by parts -/

/-- The name is the first part, with the second one after a dot if there is one. -/
def SymbolParts.Plain (parts : SymbolParts) : Prop :=
  (parts.second = [] ∧ parts.string = parts.first) ∨
    (parts.second ≠ [] ∧ parts.string = parts.first ++ dot :: parts.second)

/-- The first part is the whole name, or a package in front of the second one. -/
def SymbolParts.Named (parts : SymbolParts) : Prop :=
  (parts.second = [] ∧ parts.string = parts.first) ∨ parts.string = parts.first ++ dot :: parts.second

theorem SymbolParts.Plain.named {parts : SymbolParts} (h : parts.Plain) : parts.Named :=
  h.imp_right And.right

theorem SymbolParts.Named.exists_append {parts : SymbolParts} (h : parts.Named) (n : ℕ) :
    ∃ rest, parts.string = parts.first.take n ++ rest := by
  rcases h with ⟨-, hstring⟩ | hstring
  · exact ⟨parts.first.drop n, by rw [hstring, take_append_drop]⟩
  · exact ⟨parts.first.drop n ++ dot :: parts.second, by
      rw [hstring, ← append_assoc, take_append_drop]⟩

theorem append_lt_append_of_ne {a b x y : Str} (hlength : a.length = b.length) (hne : a ≠ b) :
    a ++ x < b ++ y ↔ a < b := by
  induction a generalizing b with
  | nil => exact absurd (List.length_eq_zero_iff.mp hlength.symm).symm hne
  | cons c a ih =>
    cases b with
    | nil => simp at hlength
    | cons d b =>
      rw [cons_append, cons_append, cons_lt_cons_iff, cons_lt_cons_iff]
      refine or_congr_right (and_congr_right ?_)
      rintro rfl
      exact ih (by simpa using hlength) fun heq => hne (by rw [heq])

theorem append_lt_append_left {a x y : Str} : a ++ x < a ++ y ↔ x < y := by
  induction a with
  | nil => rfl
  | cons c a ih => rw [cons_append, cons_append, cons_lt_cons_iff, ih]; simp

/-- A whole name, and the empty symbol of the package of that name. -/
def SymbolParts.Clashes (lhs rhs : SymbolParts) : Prop :=
  lhs.string = lhs.first ∧ rhs.string = rhs.first ++ [dot] ∧ lhs.first = rhs.first

/-- Parts compare as the names do, a whole name and the empty symbol of its package excepted. -/
theorem symbolLess_agrees_iff {lhs rhs : SymbolParts} (hl : lhs.Named) (hr : rhs.Named) :
    (symbolLess lhs rhs = true ↔ lhs.string < rhs.string) ↔ ¬ lhs.Clashes rhs := by
  unfold symbolLess SymbolParts.Clashes
  dsimp only
  split_ifs with hne hlength <;> rw [decide_eq_true_eq]
  · obtain ⟨x, hx⟩ := hl.exists_append rhs.first.length
    obtain ⟨y, hy⟩ := hr.exists_append lhs.first.length
    refine iff_of_true ?_ fun ⟨_, _, hfirst⟩ => hne (by rw [hfirst])
    rw [hx, hy, append_lt_append_of_ne _ hne]
    rw [length_take, length_take, Nat.min_comm]
  · have hfirst : lhs.first = rhs.first := by
      have heq := not_not.mp hne
      rwa [← hlength, take_length, hlength, take_length] at heq
    rcases hl with ⟨hl, hls⟩ | hls <;> rcases hr with ⟨hr, hrs⟩ | hrs <;> rw [hls, hrs, hfirst]
    · rw [hl, hr]
      exact iff_of_true (iff_of_false (lt_irrefl _) (lt_irrefl _)) (by simp)
    · have hlt : rhs.first < rhs.first ++ dot :: rhs.second := Encloses.lt (c := dot) (Or.inr ⟨_, rfl⟩) (by simp)
      rw [hl, iff_true_right hlt]
      cases rhs.second with
      | nil => simp
      | cons b rest => simp
    · refine iff_of_true (iff_of_false (hr ▸ not_lt_nil _) ?_) (by simp)
      exact (Encloses.le (c := dot) (Or.inr ⟨_, rfl⟩)).not_gt
    · rw [append_lt_append_left, cons_lt_cons_iff]
      simp
  · exact iff_of_true Iff.rfl fun ⟨_, _, hfirst⟩ => hlength (by rw [hfirst])

/-- **Plain symbols compare as their names do.** -/
theorem symbolLess_eq {lhs rhs : SymbolParts} (hl : lhs.Plain) (hr : rhs.Plain) :
    symbolLess lhs rhs = true ↔ lhs.string < rhs.string := by
  refine (symbolLess_agrees_iff hl.named hr.named).mpr fun ⟨_, hstring, _⟩ => ?_
  rcases hr with ⟨-, hrs⟩ | ⟨hne, hrs⟩ <;> rw [hrs] at hstring
  · simp at hstring
  · exact hne (by simpa using hstring)

theorem plain_stringParts (str : Str) : (stringParts str).Plain := Or.inl ⟨rfl, rfl⟩

theorem plain_symbolParts {package symbol : Str} (h : package = [] ∨ symbol ≠ []) :
    (symbolParts package symbol).Plain := by
  unfold symbolParts asString
  split_ifs with hpackage
  · exact Or.inl ⟨rfl, by simp [hpackage]⟩
  · exact Or.inr ⟨h.resolve_left hpackage, by simp⟩

@[simp] theorem string_symbolParts (package symbol : Str) :
    (symbolParts package symbol).string = asString package symbol := by
  unfold symbolParts
  split_ifs <;> rfl

/-- An operand of `SymbolCompare`: an entry, by its package and its symbol, or a plain string. -/
inductive SymbolOperand
  | entry (package symbol : Str)
  | string (str : Str)

namespace SymbolOperand

/-- `GetParts`, and `AsString`. -/
def parts : SymbolOperand → SymbolParts
  | entry package symbol => symbolParts package symbol
  | string str => stringParts str

/-- `SymbolCompare::operator()` on any two operands. -/
def less (lhs rhs : SymbolOperand) : Bool := symbolLess lhs.parts rhs.parts

/-- The full name, from its definition. -/
def fullName : SymbolOperand → Str
  | entry package symbol => if package = [] then symbol else package ++ dot :: symbol
  | string str => str

/-- A name without a package, and the empty symbol of the package of that name. -/
def Clashes (lhs rhs : SymbolOperand) : Prop :=
  ∃ package ≠ [], (lhs = string package ∨ lhs = entry [] package) ∧ rhs = entry package []

theorem string_parts (operand : SymbolOperand) : operand.parts.string = operand.fullName := by
  cases operand with
  | string str => rfl
  | entry package symbol =>
    rw [parts, string_symbolParts, asString, fullName]
    split_ifs with hpackage
    · rw [hpackage]
      rfl
    · rw [append_assoc]
      rfl

theorem named_parts (operand : SymbolOperand) : operand.parts.Named := by
  cases operand with
  | string str => exact (plain_stringParts str).named
  | entry package symbol =>
    rw [parts, symbolParts, asString]
    split_ifs with hpackage
    · exact .inl ⟨rfl, by rw [hpackage]; rfl⟩
    · exact .inr (append_assoc ..)

theorem clashes_iff {lhs rhs : SymbolOperand} : lhs.parts.Clashes rhs.parts ↔ lhs.Clashes rhs := by
  constructor
  · rintro ⟨hwhole, hdot, hfirst⟩
    rw [string_parts] at hwhole hdot
    cases rhs with
    | string str => exact absurd hdot (by simp [fullName, parts, stringParts])
    | entry package symbol =>
      simp only [parts, symbolParts, fullName] at hdot hfirst
      split_ifs at hdot hfirst with hpackage
      · exact absurd hdot (by simp)
      · obtain rfl : symbol = [] := by simpa using hdot
        refine ⟨package, hpackage, ?_, rfl⟩
        cases lhs with
        | string str => exact .inl (congrArg string hfirst)
        | entry outer inner =>
          simp only [parts, symbolParts, fullName] at hwhole hfirst
          split_ifs at hwhole hfirst with houter
          · exact .inr (congrArg₂ entry houter hfirst)
          · exact absurd hwhole (by simp)
  · rintro ⟨package, hpackage, rfl | rfl, rfl⟩ <;>
      simp [SymbolParts.Clashes, parts, stringParts, symbolParts, asString, hpackage]

theorem less_iff {lhs rhs : SymbolOperand} :
    (lhs.less rhs = true ↔ lhs.fullName < rhs.fullName) ↔ ¬ lhs.Clashes rhs := by
  rw [← string_parts, ← string_parts, ← clashes_iff]
  exact symbolLess_agrees_iff lhs.named_parts rhs.named_parts

/-- **Where the comparison is that of the full names**: everywhere but on a name and the empty
symbol of the package of that name.  Without such a pair it is a strict weak order. -/
theorem less_agrees_iff (lhs rhs : SymbolOperand) (operands : Set SymbolOperand) :
    ((lhs.less rhs = true ↔ lhs.fullName < rhs.fullName) ↔ ¬ lhs.Clashes rhs) ∧
      ((∀ a ∈ operands, ∀ b ∈ operands, ¬ a.Clashes b) →
        IsStrictWeakOrder operands fun a b => a.1.less b = true) := by
  refine ⟨less_iff, fun hapart => ?_⟩
  have hless : ∀ a b : operands, a.1.less b = true ↔ a.1.fullName < b.1.fullName := fun a b =>
    less_iff.mpr (hapart a a.2 b b.2)
  refine { irrefl := fun a => ?_, trans := fun a b c => ?_, incomp_trans := fun a b c => ?_ } <;>
    simp only [hless, not_lt]
  · exact le_rfl
  · exact lt_trans
  · exact fun h h' => ⟨h'.1.trans h.1, h.2.trans h'.2⟩

/-- A message without a name in the package `foo`, and the name `foo`. -/
theorem not_less_agrees : ¬ ∀ lhs rhs : SymbolOperand, lhs.less rhs = true ↔ lhs.fullName < rhs.fullName :=
  fun h => less_iff.mp (h (string [102, 111, 111]) (entry [102, 111, 111] []))
    ⟨[102, 111, 111], nofun, .inl rfl, rfl⟩

end SymbolOperand

/-! ## The two indexes -/

namespace EncodedIndex

variable (parse : Encoded → Option FileDescriptorProto)

def fileAt (index : EncodedIndex) (dataOffset : ℕ) : Option FileDescriptorProto :=
  maybeParse parse (index.value dataOffset)

/-- The encoded index holds in its two tiers what the simple one holds. -/
structure Mirrors (index : EncodedIndex) (simple : DescriptorIndex (Option FileDescriptorProto)) :
    Prop where
  /-- The file names. -/
  names : Tiers FileEntry.encodedName (fun e => index.fileAt parse e.dataOffset)
    index.byName index.byNameFlat simple.byName
  /-- The symbols. -/
  symbols : Tiers index.symbolName (fun e => index.fileAt parse e.dataOffset)
    index.bySymbol index.bySymbolFlat simple.bySymbol
  /-- The extensions. -/
  extensions : Tiers ExtensionEntry.key (fun e => index.fileAt parse e.dataOffset)
    index.byExtension index.byExtensionFlat simple.byExtension
  /-- No symbol lies inside another. -/
  separate : Separate dot Prod.fst simple.bySymbol
  /-- The symbols are valid names. -/
  legal : Legal dot Prod.fst simple.bySymbol
  /-- A symbol in a package is not empty. -/
  plain : ∀ e, (e ∈ index.bySymbol ∨ e ∈ index.bySymbolFlat) →
    index.package e.dataOffset = [] ∨ e.encodedSymbol ≠ []
  /-- The entries name files that have been added. -/
  nameAdded : ∀ e, (e ∈ index.byName ∨ e ∈ index.byNameFlat) → e.dataOffset < index.allValues.length
  symbolAdded : ∀ e, (e ∈ index.bySymbol ∨ e ∈ index.bySymbolFlat) →
    e.dataOffset < index.allValues.length
  extensionAdded : ∀ e, (e ∈ index.byExtension ∨ e ∈ index.byExtensionFlat) →
    e.dataOffset < index.allValues.length

/-- The file that is being added stands at the end. -/
structure Current (file : FileDescriptorProto) (index : EncodedIndex) : Prop where
  /-- There is one. -/
  nonempty : 0 < index.allValues.length
  /-- Its bytes are those of the file. -/
  fileAt : index.fileAt parse (index.allValues.length - 1) = some file
  /-- Its package is kept. -/
  package : index.package (index.allValues.length - 1) = file.packageName

variable {parse} {index : EncodedIndex} {simple : DescriptorIndex (Option FileDescriptorProto)}
  {file : FileDescriptorProto}

theorem mirrors_empty : Mirrors parse empty .empty where
  names := Tiers.empty
  symbols := Tiers.empty
  extensions := Tiers.empty
  separate := by simp [Separate, DescriptorIndex.empty]
  legal := by simp [Legal, DescriptorIndex.empty]
  plain := by simp [empty]
  nameAdded := by simp [empty]
  symbolAdded := by simp [empty]
  extensionAdded := by simp [empty]

theorem entryLess_eq {a b : SymbolEntry} (ha : index.package a.dataOffset = [] ∨ a.encodedSymbol ≠ [])
    (hb : index.package b.dataOffset = [] ∨ b.encodedSymbol ≠ []) :
    index.entryLess a b = true ↔ index.symbolName a < index.symbolName b := by
  rw [entryLess, getParts, getParts, symbolLess_eq (plain_symbolParts ha) (plain_symbolParts hb),
    string_symbolParts, string_symbolParts, symbolName, symbolName]

theorem Mirrors.conflict_iff (h : Mirrors parse index simple) {name : Str} :
    Conflict Prod.fst simple.bySymbol name ↔ Conflict index.symbolName index.bySymbol name ∨
        Conflict index.symbolName index.bySymbolFlat name := by
  constructor
  · rintro ⟨p, hp, hinside⟩
    obtain ⟨e, he, rfl⟩ := (h.symbols.mem_iff p).mp hp
    exact he.imp (fun he => ⟨e, he, hinside⟩) fun he => ⟨e, he, hinside⟩
  · rintro (⟨e, he, hinside⟩ | ⟨e, he, hinside⟩)
    · exact ⟨_, (h.symbols.mem_iff _).mpr ⟨e, Or.inl he, rfl⟩, hinside⟩
    · exact ⟨_, (h.symbols.mem_iff _).mpr ⟨e, Or.inr he, rfl⟩, hinside⟩

theorem Mirrors.overlooked (h : Mirrors parse index simple) {name : Str}
    (hover : Overlooked Prod.fst simple.bySymbol name) : Overlooked index.symbolName index.bySymbol name ∨
      Overlooked index.symbolName index.bySymbolFlat name := by
  obtain ⟨hbefore, p, hp, hinside, honly⟩ := hover
  obtain ⟨e, he, rfl⟩ := (h.symbols.mem_iff p).mp hp
  have hall : ∀ a, (a ∈ index.bySymbol ∨ a ∈ index.bySymbolFlat) → name < index.symbolName a ∧
        (Encloses dot name (index.symbolName a) → index.symbolName a = index.symbolName e) := by
    intro a ha
    have hmem := (h.symbols.mem_iff (index.symbolName a, index.fileAt parse a.dataOffset)).mpr ⟨a, ha, rfl⟩
    exact ⟨hbefore _ hmem, fun hinside => congrArg Prod.fst (honly _ hmem hinside)⟩
  rcases he with he | he
  · refine Or.inl ⟨fun a ha => (hall a (Or.inl ha)).1, e, he, hinside, ?_⟩
    intro a ha hin
    exact eq_of_key_eq h.symbols.set_increasing ha he ((hall a (Or.inl ha)).2 hin)
  · refine Or.inr ⟨fun a ha => (hall a (Or.inr ha)).1, e, he, hinside, ?_⟩
    intro a ha hin
    exact eq_of_key_eq h.symbols.flat_increasing ha he ((hall a (Or.inr ha)).2 hin)

theorem Mirrors.tier (h : Mirrors parse index simple) {l : List SymbolEntry}
    (hl : Increasing index.symbolName l) (hsub : ∀ e ∈ l, e ∈ index.bySymbol ∨ e ∈ index.bySymbolFlat) :
    Separate dot index.symbolName l ∧ Legal dot index.symbolName l := by
  have hmem : ∀ e ∈ l, (index.symbolName e, index.fileAt parse e.dataOffset) ∈ simple.bySymbol :=
    fun e he => (h.symbols.mem_iff _).mpr ⟨e, hsub e he, rfl⟩
  refine ⟨?_, fun e he => h.legal _ (hmem e he)⟩
  intro a ha b hb hab
  exact eq_of_key_eq hl ha hb (congrArg Prod.fst (h.separate _ (hmem a ha) _ (hmem b hb) hab))

/-! ## Additions -/

/-- What the source relies on when it adds a symbol: a symbol in a package is not empty, and the
name is overlooked in neither tier. -/
def SymbolMeets (symbol : Str) (index : EncodedIndex) : Prop :=
  let package := index.package (index.allValues.length - 1)
  (package = [] ∨ symbol ≠ []) ∧
    ¬ Overlooked index.symbolName index.bySymbol (asString package symbol) ∧
    ¬ Overlooked index.symbolName index.bySymbolFlat (asString package symbol)

/-- What it relies on when it adds an extension: the extension is not flat yet. -/
def ExtensionMeets (field : FieldDescriptorProto) (index : EncodedIndex) : Prop :=
  field.extendee.head? = some dot →
    ∀ e ∈ index.byExtensionFlat, e.key ≠ toLex (field.extendee.drop 1, field.number)

def EntryMeets : Entry → EncodedIndex → Prop
  | .symbol name => SymbolMeets name
  | .extension field => ExtensionMeets field

theorem packagePath_append (file : FileDescriptorProto) (symbol : Str) :
    packagePath file ++ symbol = asString file.packageName symbol := by
  unfold packagePath asString
  split_ifs with hne <;> simp_all

theorem validate_asString {package : Str} (h : validateSymbolName package = true) (symbol : Str) :
    validateSymbolName (asString package symbol) = validateSymbolName symbol := by
  unfold validateSymbolName asString at *
  rw [all_append, all_append, h]
  split_ifs <;> simp [dot]

theorem Mirrors.check_tier (h : Mirrors parse index simple) {l : List SymbolEntry}
    (entry : SymbolEntry) (hl : Increasing index.symbolName l)
    (hsub : ∀ e ∈ l, e ∈ index.bySymbol ∨ e ∈ index.bySymbolFlat)
    (hplain : index.package entry.dataOffset = [] ∨ entry.encodedSymbol ≠ [])
    (hover : ¬ Overlooked index.symbolName l (index.symbolName entry)) :
    checkForMutualSubsymbols index.symbolName l (index.symbolName entry)
        (findLastLessOrEqual (setUpperBound index.entryLess entry l)) = true ↔
      ¬ Conflict index.symbolName l (index.symbolName entry) := by
  have hbound : setUpperBound index.entryLess entry l =
      upperBound index.symbolName l (index.symbolName entry) :=
    setUpperBound_eq fun e he => entryLess_eq hplain (h.plain e (hsub e he))
  obtain ⟨hseparate, hlegal⟩ := h.tier hl hsub
  rw [hbound, checkForMutualSubsymbols_iff _ hl hseparate hlegal, or_iff_left hover]

theorem addSymbol_eq (symbol : Str) (index : EncodedIndex) : index.addSymbol symbol =
      (let entry : SymbolEntry := ⟨index.allValues.length - 1, symbol⟩
      if validateSymbolName symbol = true ∧
          checkForMutualSubsymbols index.symbolName index.bySymbol (index.symbolName entry)
            (findLastLessOrEqual (setUpperBound index.entryLess entry index.bySymbol)) = true ∧
          checkForMutualSubsymbols index.symbolName index.bySymbolFlat (index.symbolName entry)
            (findLastLessOrEqual (setUpperBound index.entryLess entry index.bySymbolFlat)) = true then
        (true, { index with bySymbol := setInsert index.entryLess entry index.bySymbol })
      else (false, index)) := by
  unfold EncodedIndex.addSymbol
  dsimp only
  split_ifs <;> simp_all

/-- A symbol without a conflict goes into both. -/
theorem Mirrors.insertSymbol (h : Mirrors parse index simple) (entry : SymbolEntry)
    (hadded : entry.dataOffset < index.allValues.length)
    (hplain : index.package entry.dataOffset = [] ∨ entry.encodedSymbol ≠ [])
    (hvalid : validateSymbolName (index.symbolName entry) = true)
    (hfree : ¬ Conflict Prod.fst simple.bySymbol (index.symbolName entry)) :
    Mirrors parse { index with bySymbol := setInsert index.entryLess entry index.bySymbol }
      { simple with bySymbol := (insertIfNotPresent Prod.fst
        (index.symbolName entry, index.fileAt parse entry.dataOffset) simple.bySymbol).2 } := by
  have hset : setInsert index.entryLess entry index.bySymbol =
      (insertIfNotPresent index.symbolName entry index.bySymbol).2 :=
    setInsert_eq fun e he => ⟨entryLess_eq (h.plain e (Or.inl he)) hplain,
      entryLess_eq hplain (h.plain e (Or.inl he))⟩
  have hfresh : ∀ e, (e ∈ index.bySymbol ∨ e ∈ index.bySymbolFlat) →
      index.symbolName e ≠ index.symbolName entry :=
    h.symbols.fresh_iff.mp fun p hp heq => hfree ⟨p, hp, Or.inl (Or.inl heq.symm)⟩
  have hnew : (insertIfNotPresent index.symbolName entry index.bySymbol).1 = true :=
    (insertIfNotPresent_fst h.symbols.set_increasing).mpr fun e he => hfresh e (Or.inl he)
  have hmem := mem_insertIfNotPresent hnew
  rw [hset]
  exact {
    names := h.names
    symbols := h.symbols.insert hfresh
    extensions := h.extensions
    separate := separate_insert h.symbols.all_increasing h.separate hfree
    legal := legal_insert h.legal hvalid
    plain := by
      rintro e (he | he)
      · rcases (hmem e).mp he with rfl | he
        · exact hplain
        · exact h.plain e (Or.inl he)
      · exact h.plain e (Or.inr he)
    nameAdded := h.nameAdded
    symbolAdded := by
      rintro e (he | he)
      · rcases (hmem e).mp he with rfl | he
        · exact hadded
        · exact h.symbolAdded e (Or.inl he)
      · exact h.symbolAdded e (Or.inr he)
    extensionAdded := h.extensionAdded }

/-- **A symbol is added to both, or to neither.** -/
theorem Mirrors.addSymbol (h : Mirrors parse index simple) (hcurrent : Current parse file index)
    (hpackage : validateSymbolName file.packageName = true) {symbol : Str} (hok : SymbolMeets symbol index) :
    (index.addSymbol symbol).1 = (simple.addSymbol (some file) (packagePath file ++ symbol)).1 ∧
      Mirrors parse (index.addSymbol symbol).2
        (simple.addSymbol (some file) (packagePath file ++ symbol)).2 := by
  obtain ⟨hplain, hset, hflat⟩ := hok
  have hname : packagePath file ++ symbol =
      index.symbolName ⟨index.allValues.length - 1, symbol⟩ := by
    rw [packagePath_append, symbolName, hcurrent.package]
  have hvalid : validateSymbolName (index.symbolName ⟨index.allValues.length - 1, symbol⟩) =
      validateSymbolName symbol := by
    rw [symbolName, hcurrent.package, validate_asString hpackage]
  have hsetCheck := h.check_tier ⟨index.allValues.length - 1, symbol⟩
    h.symbols.set_increasing (fun e he => Or.inl he) hplain hset
  have hflatCheck := h.check_tier ⟨index.allValues.length - 1, symbol⟩
    h.symbols.flat_increasing (fun e he => Or.inr he) hplain hflat
  have hnot : ¬ Overlooked Prod.fst simple.bySymbol
      (index.symbolName ⟨index.allValues.length - 1, symbol⟩) :=
    fun hover => (h.overlooked hover).elim hset hflat
  have hsimple := checkForMutualSubsymbols_iff
    (index.symbolName ⟨index.allValues.length - 1, symbol⟩)
    h.symbols.all_increasing h.separate h.legal
  rw [or_iff_left hnot] at hsimple
  have hagree : (validateSymbolName symbol = true ∧ _ ∧ _) ↔ validateSymbolName symbol = true ∧ _ :=
    and_congr_right fun _ => (and_congr hsetCheck hflatCheck).trans
      (not_or.symm.trans ((not_congr h.conflict_iff.symm).trans hsimple.symm))
  rw [hname, addSymbol_eq, DescriptorIndex.addSymbol_eq, hvalid]
  dsimp only
  by_cases haccepted : validateSymbolName symbol = true ∧ checkForMutualSubsymbols Prod.fst
      simple.bySymbol (index.symbolName ⟨index.allValues.length - 1, symbol⟩)
      (findLastLessOrEqual (upperBound Prod.fst simple.bySymbol
        (index.symbolName ⟨index.allValues.length - 1, symbol⟩))) = true
  · rw [if_pos (hagree.mpr haccepted), if_pos haccepted, ← hcurrent.fileAt]
    refine ⟨rfl, h.insertSymbol ⟨index.allValues.length - 1, symbol⟩ ?_ hplain ?_
      (hsimple.mp haccepted.2)⟩
    · exact Nat.sub_lt hcurrent.nonempty Nat.one_pos
    · rw [hvalid]
      exact haccepted.1
  · rw [if_neg (mt hagree.mp haccepted), if_neg haccepted]
    exact ⟨rfl, h⟩

theorem addSymbol_allValues (symbol : Str) (index : EncodedIndex) :
    (index.addSymbol symbol).2.allValues = index.allValues := by
  rw [addSymbol_eq]
  dsimp only
  split_ifs <;> rfl

theorem addExtension_allValues (field : FieldDescriptorProto) (index : EncodedIndex) :
    (index.addExtension field).2.allValues = index.allValues := by
  unfold addExtension
  dsimp only
  split_ifs <;> rfl

theorem Current.congr {index' : EncodedIndex} (h : Current parse file index)
    (hvalues : index'.allValues = index.allValues) : Current parse file index' := by
  obtain ⟨hnonempty, hfile, hpackage⟩ := h
  unfold EncodedIndex.fileAt value at hfile
  unfold EncodedIndex.package at hpackage
  rw [← hvalues] at hnonempty hfile hpackage
  exact ⟨hnonempty, hfile, hpackage⟩

@[simp] theorem key_mk (offset : ℕ) (extendee : Str) (number : Int) :
    ExtensionEntry.key ⟨offset, extendee, number⟩ = toLex (extendee.drop 1, number) := rfl

/-- **An extension is added to both, or to neither.** -/
theorem Mirrors.addExtension (h : Mirrors parse index simple) (hcurrent : Current parse file index)
    {field : FieldDescriptorProto} (hok : ExtensionMeets field index) :
    (index.addExtension field).1 = (simple.addExtension (some file) field).1 ∧
      Mirrors parse (index.addExtension field).2 (simple.addExtension (some file) field).2 := by
  unfold EncodedIndex.addExtension DescriptorIndex.addExtension
  by_cases hqualified : field.extendee.head? = some dot
  · have hflat := hok hqualified
    rw [if_pos hqualified, if_pos hqualified]
    have hnone : Sorted.find ExtensionEntry.key index.byExtensionFlat
        (toLex (field.extendee.drop 1, field.number)) = none :=
      (find_eq_none_iff h.extensions.flat_increasing).mpr hflat
    obtain ⟨hsame, htiers⟩ := h.extensions.insertIfNotPresent
      (x := ⟨index.allValues.length - 1, field.extendee, field.number⟩) hflat
    dsimp only at hsame htiers ⊢
    rw [hcurrent.fileAt] at hsame htiers
    have hmirrors : Mirrors parse
        { index with byExtension := (insertIfNotPresent ExtensionEntry.key
          ⟨index.allValues.length - 1, field.extendee, field.number⟩ index.byExtension).2 }
        { simple with byExtension := (insertIfNotPresent Prod.fst
          (toLex (field.extendee.drop 1, field.number), some file) simple.byExtension).2 } := by
      refine { h with extensions := htiers, extensionAdded := ?_ }
      rintro e (he | he)
      · rcases eq_or_mem_of_mem_insert he with rfl | he
        · exact Nat.sub_lt hcurrent.nonempty Nat.one_pos
        · exact h.extensionAdded e (Or.inl he)
      · exact h.extensionAdded e (Or.inr he)
    simp only [key_mk, hnone, Option.isSome_none, Bool.false_eq_true, or_false] at hsame ⊢
    rw [← hsame]
    split_ifs with hpresent
    · exact ⟨hpresent.symm, hmirrors⟩
    · exact ⟨(eq_true_of_ne_false hpresent).symm, hmirrors⟩
  · rw [if_neg hqualified, if_neg hqualified]
    exact ⟨rfl, h⟩

end EncodedIndex

end Protoc.Database
