import Protoc.Database.SimpleDatabase
import Protoc.Database.SymbolNames

/-!
# Looking up a symbol

After a sequence of successful additions the index holds the declared symbols.  A lookup
answers with the file whose symbol encloses the name, as long as no indexed symbol lies
inside another.  `addSymbol` sees to that except where the new name sorts before everything:
then it does not ask whether the first symbol lies inside the new one.
-/

namespace Protoc.Database

open Protoc.Lib Protoc.Lib.Sorted
open Protoc.Util (Str dot)

/-- The full names of the symbols that a file declares at the top level. -/
def FileDescriptorProto.symbols (file : FileDescriptorProto) : List Str :=
  (file.messageType.map DescriptorProto.name ++ file.enumType ++
    file.extension.map FieldDescriptorProto.name ++ file.service).map
    (DescriptorIndex.packagePath file ++ ·)

/-- The declared symbols with their files, in the order they are added. -/
def declarations (files : List FileDescriptorProto) : List (Str × FileDescriptorProto) :=
  files.flatMap fun file => file.symbols.map fun name => (name, file)

/-- No symbol sorts before all the earlier ones while one of them lies inside it. -/
def NoneOverlooked {Value : Type} (declared : List (Str × Value)) : Prop :=
  ∀ pre d post, declared = pre ++ d :: post →
    ¬ ((∀ e ∈ pre, d.1 < e.1) ∧ ∃ e ∈ pre, Encloses dot d.1 e.1)

namespace DescriptorIndex
variable {Value : Type} {index : DescriptorIndex Value}

theorem addSymbol_eq (value : Value) (name : Str) (index : DescriptorIndex Value) :
    addSymbol value name index =
      if validateSymbolName name = true ∧ checkForMutualSubsymbols Prod.fst index.bySymbol name
          (findLastLessOrEqual (upperBound Prod.fst index.bySymbol name)) = true then
        (true, { index with bySymbol := (insertIfNotPresent Prod.fst (name, value) index.bySymbol).2 })
      else (false, index) := by
  unfold addSymbol checkForMutualSubsymbols
  by_cases hvalid : validateSymbolName name = true
  · simp only [hvalid, Bool.true_eq_false, if_false, true_and]
    rcases index.bySymbol[_]? with - | found
    · rfl
    · dsimp only
      by_cases hfound : isSubSymbol found.1 name = true
      · simp [hfound]
      · simp only [hfound]
        rcases index.bySymbol[_]? with - | next
        · rfl
        · by_cases hnext : isSubSymbol name next.1 = true <;> simp [hnext]
  · simp [hvalid]

/-- What holds between the index and what has been declared. -/
structure Reflects (index : DescriptorIndex Value) (declared : List (Str × Value)) : Prop where
  /-- The symbols are in order. -/
  increasing : Increasing Prod.fst index.bySymbol
  /-- They are valid names. -/
  legal : Legal dot Prod.fst index.bySymbol
  /-- They are the declared ones. -/
  mem_iff : ∀ e, e ∈ index.bySymbol ↔ e ∈ declared
  /-- None lies inside another, unless one was overlooked. -/
  separate : NoneOverlooked declared → Separate dot Prod.fst index.bySymbol

theorem reflects_empty : Reflects (empty : DescriptorIndex Value) [] where
  increasing := increasing_nil
  legal := by simp [Legal, empty]
  mem_iff := by simp [empty]
  separate _ := by simp [Separate, empty]

variable {declared : List (Str × Value)}

theorem NoneOverlooked.of_append {d : Str × Value} (h : NoneOverlooked (declared ++ [d])) :
    NoneOverlooked declared ∧ ¬ ((∀ e ∈ declared, d.1 < e.1) ∧ ∃ e ∈ declared, Encloses dot d.1 e.1) := by
  refine ⟨?_, h declared d [] rfl⟩
  rintro pre e post rfl
  exact h pre e (post ++ [d]) (by simp)

variable {value : Value}

/-- **A symbol that is accepted.** -/
theorem Reflects.addSymbol {name : Str}
    (h : Reflects index declared) (hadded : (addSymbol value name index).1 = true) :
    Reflects (addSymbol value name index).2 (declared ++ [(name, value)]) := by
  rw [addSymbol_eq] at hadded ⊢
  split_ifs at hadded ⊢ with hcheck
  obtain ⟨hvalid, hcheck⟩ := hcheck
  have hnew : (insertIfNotPresent Prod.fst (name, value) index.bySymbol).1 = true :=
    (insertIfNotPresent_fst h.increasing).mpr (notMem_of_check h.increasing hcheck)
  have hmem := mem_insertIfNotPresent hnew
  refine ⟨h.increasing.insertIfNotPresent _, legal_insert h.legal hvalid, ?_, ?_⟩
  · intro e
    rw [hmem, h.mem_iff, List.mem_append, List.mem_singleton]
    exact or_comm
  · intro hnone
    obtain ⟨hnone, hlast⟩ := NoneOverlooked.of_append hnone
    have hsep := h.separate hnone
    have hfree : ¬ Conflict Prod.fst index.bySymbol name := by
      rcases (checkForMutualSubsymbols_iff _ h.increasing hsep h.legal).mp hcheck with hfree | hover
      · exact hfree
      · obtain ⟨hbefore, e, hin, hinside, -⟩ := hover
        refine absurd ⟨fun e hin => hbefore e ((h.mem_iff e).mpr hin), e, ?_, hinside⟩ hlast
        exact (h.mem_iff e).mp hin
    exact separate_insert h.increasing hsep hfree

theorem addExtension_bySymbol (value : Value) (field : FieldDescriptorProto) (index : DescriptorIndex Value) :
    (addExtension value field index).2.bySymbol = index.bySymbol := by
  unfold addExtension
  split_ifs <;> rfl

theorem Reflects.congr {index' : DescriptorIndex Value}
    (h : Reflects index declared) (hsymbols : index'.bySymbol = index.bySymbol) : Reflects index' declared := by
  obtain ⟨hinc, hlegal, hmem, hsep⟩ := h
  rw [← hsymbols] at hinc hlegal hmem hsep
  exact ⟨hinc, hlegal, hmem, hsep⟩

def entrySymbols (path : Str) (entries : List Entry) : List Str := entries.filterMap fun
    | .symbol name => some (path ++ name)
    | .extension _ => none

@[simp] theorem entrySymbols_nil (path : Str) : entrySymbols path [] = [] := rfl

@[simp] theorem entrySymbols_symbol (path name : Str) (entries : List Entry) :
    entrySymbols path (.symbol name :: entries) = (path ++ name) :: entrySymbols path entries := rfl

@[simp] theorem entrySymbols_extension (path : Str) (field : FieldDescriptorProto)
    (entries : List Entry) :
    entrySymbols path (.extension field :: entries) = entrySymbols path entries := rfl

@[simp] theorem entrySymbols_append (path : Str) (l₁ l₂ : List Entry) :
    entrySymbols path (l₁ ++ l₂) = entrySymbols path l₁ ++ entrySymbols path l₂ :=
  List.filterMap_append

theorem Reflects.forAll {path : Str} (entries : List Entry) (h : Reflects index declared)
    (hadded : (Attempt.forAll (addEntry (fun name => DescriptorIndex.addSymbol value (path ++ name))
      (addExtension value)) entries index).1 = true) :
    Reflects (Attempt.forAll (addEntry (fun name => DescriptorIndex.addSymbol value (path ++ name))
      (addExtension value)) entries index).2
      (declared ++ (entrySymbols path entries).map fun name => (name, value)) := by
  induction entries generalizing index declared with
  | nil => simpa using h
  | cons entry entries ih =>
    rw [Attempt.forAll_cons] at hadded ⊢
    obtain ⟨hfirst, hrest⟩ := Attempt.andThen_fst.mp hadded
    rw [Attempt.andThen_snd hfirst]
    cases entry with
    | symbol name =>
      have hstep := ih (h.addSymbol hfirst) hrest
      simpa [addEntry] using hstep
    | extension field =>
      have hstep := ih (h.congr (addExtension_bySymbol value field index)) hrest
      simpa [addEntry] using hstep

theorem entrySymbols_map_extension (path : Str) (fields : List FieldDescriptorProto) :
    entrySymbols path (fields.map .extension) = [] := by
  induction fields with
  | nil => rfl
  | cons field fields ih => simpa using ih

theorem entrySymbols_map_symbol (path : Str) (names : List Str) :
    entrySymbols path (names.map .symbol) = names.map (path ++ ·) := by
  induction names with
  | nil => rfl
  | cons name names ih => simpa using ih

theorem entrySymbols_entries (path : Str) (file : FileDescriptorProto) :
    entrySymbols path file.entries = (file.messageType.map DescriptorProto.name ++ file.enumType ++
        file.extension.map FieldDescriptorProto.name ++ file.service).map (path ++ ·) := by
  have hmessages : entrySymbols path (file.messageType.flatMap fun messageType =>
      Entry.symbol messageType.name :: (nestedExtensions messageType).map .extension) =
      file.messageType.map fun messageType => path ++ messageType.name := by
    induction file.messageType with
    | nil => rfl
    | cons messageType rest ih =>
      rw [List.flatMap_cons, entrySymbols_append, entrySymbols_symbol, entrySymbols_map_extension, ih]
      rfl
  have hfields : entrySymbols path (file.extension.flatMap fun field =>
      [Entry.symbol field.name, .extension field]) = file.extension.map fun field => path ++ field.name := by
    induction file.extension with
    | nil => rfl
    | cons field rest ih =>
      rw [List.flatMap_cons, entrySymbols_append, ih]
      rfl
  rw [FileDescriptorProto.entries, entrySymbols_append, entrySymbols_append, entrySymbols_append,
    hmessages, hfields, entrySymbols_map_symbol, entrySymbols_map_symbol]
  simp [Function.comp_def]

/-- **A file that is added.** -/
theorem Reflects.addFile {file : FileDescriptorProto}
    (h : Reflects index declared) (hadded : (addFile file value index).1 = true) :
    Reflects (addFile file value index).2 (declared ++ file.symbols.map fun name => (name, value)) := by
  unfold DescriptorIndex.addFile at hadded ⊢
  dsimp only at hadded ⊢
  split_ifs at hadded ⊢ with hname
  rw [addContents_eq] at hadded ⊢
  have hnamed : Reflects { index with
      byName := (insertIfNotPresent Prod.fst (file.name, value) index.byName).2 } declared := h.congr rfl
  have hrun := hnamed.forAll file.entries hadded
  rw [entrySymbols_entries] at hrun
  exact hrun

theorem Reflects.addSymbol_conflict (h : Reflects index declared)
    (hnone : NoneOverlooked declared) (value : Value) {name : Str}
    (hconflict : Conflict Prod.fst index.bySymbol name) :
    (DescriptorIndex.addSymbol value name index).1 = false ↔
      ¬ (validateSymbolName name = true ∧ Overlooked Prod.fst index.bySymbol name) := by
  have hcheck := checkForMutualSubsymbols_iff name h.increasing (h.separate hnone) h.legal
  rw [or_iff_right (not_not.mpr hconflict)] at hcheck
  rw [← hcheck, addSymbol_eq]
  split_ifs with hover <;> simp [hover]

/-- **What a lookup answers.** -/
theorem Reflects.findSymbol [Inhabited Value] {declared : List (Str × Value)}
    (h : Reflects index declared) (hseparate : Separate dot Prod.fst index.bySymbol) (name : Str) :
    (∀ d ∈ declared, Encloses dot d.1 name → DescriptorIndex.findSymbol index name = d.2) ∧
      ((∀ d ∈ declared, ¬ Encloses dot d.1 name) → DescriptorIndex.findSymbol index name = default) := by
  have hfind : DescriptorIndex.findSymbol index name =
      ((findEncloser Prod.fst index.bySymbol name).map Prod.snd).getD default := by
    unfold DescriptorIndex.findSymbol findEncloser
    rcases index.bySymbol[_]? with - | found
    · rfl
    · by_cases hsub : isSubSymbol found.1 name = true <;> simp [hsub, Option.filter]
  have hsome := fun e => findEncloser_eq_some_iff (e := e) name h.increasing hseparate h.legal
  rw [hfind]
  constructor
  · intro d hd hinside
    rw [(hsome d).mpr ⟨(h.mem_iff d).mpr hd, hinside⟩]
    rfl
  · intro hnot
    have hnone : findEncloser Prod.fst index.bySymbol name = none := by
      rw [Option.eq_none_iff_forall_not_mem]
      intro e he
      obtain ⟨hmem, hinside⟩ := (hsome e).mp he
      exact hnot e ((h.mem_iff e).mp hmem) hinside
    rw [hnone]
    rfl

end DescriptorIndex

namespace SimpleDescriptorDatabase

/-- The files added one after the other, until one is turned down. -/
def addAll (files : List FileDescriptorProto) : Attempt SimpleDescriptorDatabase :=
  Attempt.forAll add files empty

/-- What the database promises about symbols. -/
structure SymbolLookups (files : List FileDescriptorProto) (db : SimpleDescriptorDatabase) : Prop where
  /-- No indexed symbol is a sub-symbol of another. -/
  separate : ∀ a ∈ db.index.bySymbol, ∀ b ∈ db.index.bySymbol,
    isSubSymbol a.1 b.1 = true → a.1 = b.1
  /-- A name is found in the file whose symbol equals or encloses it. -/
  found : ∀ name, ∀ d ∈ declarations files, isSubSymbol d.1 name = true →
    db.findFileContainingSymbol name = some d.2
  /-- Any other name is not found. -/
  notFound : ∀ name, (∀ d ∈ declarations files, isSubSymbol d.1 name = false) →
    db.findFileContainingSymbol name = none

def indexed (files : List FileDescriptorProto) : List (Str × Option FileDescriptorProto) :=
  (declarations files).map fun d => (d.1, some d.2)

theorem noneOverlooked_indexed (files : List FileDescriptorProto) :
    NoneOverlooked (indexed files) ↔ NoneOverlooked (declarations files) := by
  unfold NoneOverlooked indexed
  constructor
  · rintro h pre d post heq ⟨hbefore, e, hmem, hinside⟩
    refine h _ (d.1, some d.2) _ (by rw [heq, List.map_append, List.map_cons]) ⟨?_, ?_⟩
    · intro e hmem
      obtain ⟨d', hmem', rfl⟩ := List.mem_map.mp hmem
      exact hbefore d' hmem'
    · exact ⟨(e.1, some e.2), List.mem_map_of_mem hmem, hinside⟩
  · rintro h pre d post heq ⟨hbefore, e, hmem, hinside⟩
    obtain ⟨pre', rest, hfiles, rfl, hrest⟩ := List.map_eq_append_iff.mp heq
    obtain ⟨d', post', rfl, rfl, -⟩ := List.map_eq_cons_iff.mp hrest
    obtain ⟨e', hmem', rfl⟩ := List.mem_map.mp hmem
    refine h pre' d' post' hfiles ⟨?_, e', hmem', hinside⟩
    intro e hmem
    exact hbefore _ (List.mem_map_of_mem hmem)

theorem reflects_forAll {declared : List (Str × Option FileDescriptorProto)}
    (files : List FileDescriptorProto) {db : SimpleDescriptorDatabase}
    (h : db.index.Reflects declared) (hadded : (Attempt.forAll add files db).1 = true) :
    (Attempt.forAll add files db).2.index.Reflects (declared ++ indexed files) := by
  induction files generalizing db declared with
  | nil => simpa [indexed, declarations] using h
  | cons file files ih =>
    rw [Attempt.forAll_cons] at hadded ⊢
    obtain ⟨hfirst, hrest⟩ := Attempt.andThen_fst.mp hadded
    rw [Attempt.andThen_snd hfirst]
    have hstep := ih (h.addFile hfirst) hrest
    simpa [indexed, declarations, Function.comp_def] using hstep

variable {files : List FileDescriptorProto}

theorem reflects_addAll (h : (addAll files).1 = true) : (addAll files).2.index.Reflects (indexed files) := by
  have hrun := reflects_forAll files DescriptorIndex.reflects_empty h
  rwa [List.nil_append] at hrun

theorem symbolLookups_of_noneOverlooked
    (h : (addAll files).1 = true) (hnone : NoneOverlooked (declarations files)) :
    SymbolLookups files (addAll files).2 := by
  have hreflects := reflects_addAll h
  have hseparate := hreflects.separate ((noneOverlooked_indexed files).mpr hnone)
  refine ⟨?_, ?_, ?_⟩
  · intro a ha b hb hsub
    rw [hseparate a ha b hb (isSubSymbol_iff.mp hsub)]
  · intro name d hd hsub
    exact (hreflects.findSymbol hseparate name).1 (d.1, some d.2) (List.mem_map_of_mem hd)
      (isSubSymbol_iff.mp hsub)
  · intro name hnot
    refine (hreflects.findSymbol hseparate name).2 ?_
    intro e he hinside
    obtain ⟨d, hd, rfl⟩ := List.mem_map.mp he
    exact absurd (isSubSymbol_iff.mpr hinside) (Bool.eq_false_iff.mp (hnot d hd))

theorem noneOverlooked_of_separate (h : (addAll files).1 = true)
    (hseparate : ∀ a ∈ (addAll files).2.index.bySymbol, ∀ b ∈ (addAll files).2.index.bySymbol,
      isSubSymbol a.1 b.1 = true → a.1 = b.1) : NoneOverlooked (declarations files) := by
  have hreflects := reflects_addAll h
  rw [← noneOverlooked_indexed]
  rintro pre d post heq ⟨hbefore, e, hmem, hinside⟩
  have hd : d ∈ (addAll files).2.index.bySymbol := (hreflects.mem_iff d).mpr (by simp [heq])
  have he : e ∈ (addAll files).2.index.bySymbol := (hreflects.mem_iff e).mpr (by simp [heq, hmem])
  have hsame := hseparate d hd e he (isSubSymbol_iff.mpr hinside)
  exact absurd (hbefore e hmem) (by simp [hsame])

/-- **Lookups are right exactly when no symbol was overlooked**, and then a symbol in conflict
with an indexed one is turned down unless it is overlooked in its turn. -/
theorem symbolLookups_iff (files : List FileDescriptorProto) (h : (addAll files).1 = true) :
    (SymbolLookups files (addAll files).2 ↔ NoneOverlooked (declarations files)) ∧
      (NoneOverlooked (declarations files) → ∀ value name,
        Conflict Prod.fst (addAll files).2.index.bySymbol name →
        (((addAll files).2.index.addSymbol value name).1 = false ↔
          ¬ (validateSymbolName name = true ∧
            Overlooked Prod.fst (addAll files).2.index.bySymbol name))) := by
  refine ⟨⟨?_, symbolLookups_of_noneOverlooked h⟩, ?_⟩
  · intro hlookups
    exact noneOverlooked_of_separate h hlookups.separate
  · intro hnone value name hconflict
    exact (reflects_addAll h).addSymbol_conflict ((noneOverlooked_indexed files).mpr hnone) value hconflict

/-- A file with one message. -/
def oneMessage (fileName : Str) (package : Option Str) (message : Str) : FileDescriptorProto where
  name := fileName
  package := package
  messageType := [.mk message [] []]
  enumType := []
  extension := []
  service := []

/-- The message `bar` in the package `foo`, and then the message `foo`. -/
def fooBarThenFoo : List FileDescriptorProto :=
  [oneMessage [97] (some [102, 111, 111]) [98, 97, 114], oneMessage [98] none [102, 111, 111]]

theorem symbolLookups_iff_fooBarThenFoo : (SymbolLookups fooBarThenFoo (addAll fooBarThenFoo).2 ↔
      NoneOverlooked (declarations fooBarThenFoo)) ∧
      (NoneOverlooked (declarations fooBarThenFoo) → ∀ value name,
        Conflict Prod.fst (addAll fooBarThenFoo).2.index.bySymbol name →
        (((addAll fooBarThenFoo).2.index.addSymbol value name).1 = false ↔
          ¬ (validateSymbolName name = true ∧
            Overlooked Prod.fst (addAll fooBarThenFoo).2.index.bySymbol name))) :=
  symbolLookups_iff fooBarThenFoo (by decide)

/-- Both files are added, and the symbol `foo.bar` lies inside the symbol `foo`; a name inside
`foo` that sorts after `foo.bar` is not found. -/
theorem not_symbolLookups_fooBarThenFoo :
    ¬ (∀ files, (addAll files).1 = true → SymbolLookups files (addAll files).2) ∧
      (addAll fooBarThenFoo).1 = true ∧
      ((addAll fooBarThenFoo).2.findFileContainingSymbol
        [102, 111, 111, 46, 122]).isNone = true := by
  have hadded : (addAll fooBarThenFoo).1 = true := by decide
  refine ⟨?_, hadded, by decide⟩
  intro hall
  have hfound := (hall fooBarThenFoo hadded).found [102, 111, 111, 46, 122]
    ([102, 111, 111], oneMessage [98] none [102, 111, 111]) (by simp [declarations, fooBarThenFoo,
      FileDescriptorProto.symbols, oneMessage, DescriptorIndex.packagePath,
      FileDescriptorProto.packageName, DescriptorProto.name]) (by decide)
  have hnone : ((addAll fooBarThenFoo).2.findFileContainingSymbol
      [102, 111, 111, 46, 122]).isNone = true := by decide
  rw [hfound] at hnone
  exact absurd hnone (by decide)

end SimpleDescriptorDatabase

end Protoc.Database
