import Protoc.Database.EncodedMirror

/-!
# Runs of the encoded database

As long as the additions of a run meet what the source relies on, the encoded index mirrors the
simple one, and what the simple one holds depends on the additions alone.  So a lookup, which
merges the sets into the vectors, changes no later answer.
-/

namespace Protoc.Database

open Protoc.Lib Protoc.Lib.Sorted EncodedIndex
open Protoc.Util (Str dot)

/-- A file added to the simple index, once its package is a valid name. -/
def addValid (file : FileDescriptorProto) (simple : DescriptorIndex (Option FileDescriptorProto)) :
    Attempt (DescriptorIndex (Option FileDescriptorProto)) :=
  if validateSymbolName file.packageName = false then (false, simple)
  else simple.addFile file (some file)

namespace EncodedIndex
variable {parse : Encoded → Option FileDescriptorProto} {index : EncodedIndex}
  {simple : DescriptorIndex (Option FileDescriptorProto)} {file : FileDescriptorProto}

/-- The index with the bytes of a file, and its name in the set. -/
def named (file : FileDescriptorProto) (data : Encoded) (index : EncodedIndex) : EncodedIndex :=
  { index with
    allValues := index.allValues ++ [EncodedEntry.mk data file.packageName]
    byName := (insertIfNotPresent FileEntry.encodedName ⟨index.allValues.length, file.name⟩
      index.byName).2 }

/-- What the source relies on when it adds a file: its name is not flat yet, and each entry meets
what is relied on for it. -/
def AddMeets (file : FileDescriptorProto) (data : Encoded) (index : EncodedIndex) : Prop :=
  validateSymbolName file.packageName = true → (∀ e ∈ index.byNameFlat, e.encodedName ≠ file.name) ∧
      ((∀ e ∈ index.byName, e.encodedName ≠ file.name) →
        Attempt.Along EntryMeets (addEntry addSymbol addExtension) file.entries (named file data index))

/-! ## Adding a file -/

theorem Mirrors.push (h : Mirrors parse index simple) (entry : EncodedEntry) :
    Mirrors parse { index with allValues := index.allValues ++ [entry] } simple := by
  have hpackage : ∀ i < index.allValues.length,
      package { index with allValues := index.allValues ++ [entry] } i = index.package i := by
    intro i hi
    simp [package, List.getElem?_append_left hi]
  have hfile : ∀ i < index.allValues.length,
      fileAt parse { index with allValues := index.allValues ++ [entry] } i = index.fileAt parse i := by
    intro i hi
    simp [fileAt, value, List.getElem?_append_left hi]
  have hlength : index.allValues.length ≤ (index.allValues ++ [entry]).length := by simp
  exact {
    names := h.names.congr fun e he => ⟨rfl, hfile _ (h.nameAdded e he)⟩
    symbols := h.symbols.congr fun e he => by
      have hadded := h.symbolAdded e he
      exact ⟨by rw [symbolName, symbolName, hpackage _ hadded], hfile _ hadded⟩
    extensions := h.extensions.congr fun e he => ⟨rfl, hfile _ (h.extensionAdded e he)⟩
    separate := h.separate
    legal := h.legal
    plain := fun e he => by
      rw [hpackage _ (h.symbolAdded e he)]
      exact h.plain e he
    nameAdded := fun e he => lt_of_lt_of_le (h.nameAdded e he) hlength
    symbolAdded := fun e he => lt_of_lt_of_le (h.symbolAdded e he) hlength
    extensionAdded := fun e he => lt_of_lt_of_le (h.extensionAdded e he) hlength }

theorem Mirrors.named (h : Mirrors parse index simple) {data : Encoded} (hparse : parse data = some file)
    (hflat : ∀ e ∈ index.byNameFlat, e.encodedName ≠ file.name) :
    (insertIfNotPresent FileEntry.encodedName ⟨index.allValues.length, file.name⟩ index.byName).1 =
        (insertIfNotPresent Prod.fst (file.name, some file) simple.byName).1 ∧
      Mirrors parse (named file data index)
        { simple with byName := (insertIfNotPresent Prod.fst (file.name, some file) simple.byName).2 } ∧
      Current parse file (EncodedIndex.named file data index) := by
  have hpushed := h.push ⟨data, file.packageName⟩
  have hlast : fileAt parse { index with
      allValues := index.allValues ++ [EncodedEntry.mk data file.packageName] }
      index.allValues.length = some file := by
    simp [fileAt, value, maybeParse, hparse]
  obtain ⟨hsame, htiers⟩ := hpushed.names.insertIfNotPresent
    (x := ⟨index.allValues.length, file.name⟩) hflat
  dsimp only at hsame htiers
  rw [hlast] at hsame htiers
  refine ⟨hsame, { hpushed with names := htiers, nameAdded := ?_ }, ?_⟩
  · rintro e (he | he)
    · rcases eq_or_mem_of_mem_insert he with rfl | he
      · simp [EncodedIndex.named]
      · exact hpushed.nameAdded e (Or.inl he)
    · exact hpushed.nameAdded e (Or.inr he)
  · have hlength : (EncodedIndex.named file data index).allValues.length - 1 =
        index.allValues.length := by
      simp [EncodedIndex.named]
    refine ⟨by simp [EncodedIndex.named], ?_, ?_⟩
    · rw [hlength]
      exact hlast
    · rw [hlength]
      simp [package, EncodedIndex.named]

/-- **A file is added to both, or to neither.** -/
theorem Mirrors.addFile (h : Mirrors parse index simple) {data : Encoded}
    (hparse : parse data = some file) (hok : AddMeets file data index) :
    (index.addFile file data).1 = (addValid file simple).1 ∧
      Mirrors parse (index.addFile file data).2 (addValid file simple).2 := by
  unfold EncodedIndex.addFile addValid
  by_cases hpackage : validateSymbolName file.packageName = false
  · rw [if_pos hpackage, if_pos hpackage]
    exact ⟨rfl, h.push _⟩
  · have hvalid : validateSymbolName file.packageName = true := eq_true_of_ne_false hpackage
    obtain ⟨hflat, hentries⟩ := hok hvalid
    have hnone : Sorted.find FileEntry.encodedName index.byNameFlat file.name = none :=
      (find_eq_none_iff h.names.flat_increasing).mpr hflat
    obtain ⟨hsame, hmirrors, hcurrent⟩ := h.named hparse hflat
    rw [if_neg hpackage, if_neg hpackage]
    unfold DescriptorIndex.addFile
    simp only [List.length_append, List.length_singleton, Nat.add_sub_cancel, hnone,
      Option.isSome_none, Bool.false_eq_true, or_false]
    rw [← hsame]
    split_ifs with hpresent
    · refine ⟨rfl, ?_⟩
      have hunchanged : (insertIfNotPresent Prod.fst (file.name, some file) simple.byName).2 =
          simple.byName := insertIfNotPresent_of_present (hsame ▸ hpresent)
      rw [hunchanged] at hmirrors
      exact hmirrors
    · have hnew : ∀ e ∈ index.byName, e.encodedName ≠ file.name :=
        (insertIfNotPresent_fst h.names.set_increasing).mp (eq_true_of_ne_false hpresent)
      rw [addContents_eq, addContents_eq]
      have hstep : ∀ e s t, (Mirrors parse s t ∧ Current parse file s) → EntryMeets e s →
          (addEntry EncodedIndex.addSymbol EncodedIndex.addExtension e s).1 =
              (addEntry (fun name => DescriptorIndex.addSymbol (some file)
                (DescriptorIndex.packagePath file ++ name))
                (DescriptorIndex.addExtension (some file)) e t).1 ∧
            (Mirrors parse (addEntry EncodedIndex.addSymbol EncodedIndex.addExtension e s).2
                (addEntry (fun name => DescriptorIndex.addSymbol (some file)
                  (DescriptorIndex.packagePath file ++ name))
                  (DescriptorIndex.addExtension (some file)) e t).2 ∧
              Current parse file (addEntry EncodedIndex.addSymbol EncodedIndex.addExtension e s).2) := by
        rintro (name | field) s t ⟨hst, hs⟩ hmeets
        · obtain ⟨hfst, hsnd⟩ := hst.addSymbol hs hvalid hmeets
          exact ⟨hfst, hsnd, hs.congr (addSymbol_allValues name s)⟩
        · obtain ⟨hfst, hsnd⟩ := hst.addExtension hs hmeets
          exact ⟨hfst, hsnd, hs.congr (addExtension_allValues field s)⟩
      obtain ⟨hfst, hsnd, -⟩ :=
        Attempt.forAll_simulates hstep file.entries ⟨hmirrors, hcurrent⟩ (hentries hnew)
      exact ⟨hfst, hsnd⟩

/-! ## Looking up -/

theorem mem_tiers_of_flat {ε : Type} {less : ε → ε → Bool} {set flat : List ε} {e : ε}
    (h : e ∈ ([] : List ε) ∨ e ∈ mergeIntoFlat less set flat) : e ∈ set ∨ e ∈ flat := by
  exact mem_mergeIntoFlat.mp (h.resolve_left List.not_mem_nil)

/-- **A merge changes nothing.** -/
theorem Mirrors.ensureFlat (h : Mirrors parse index simple) : Mirrors parse index.ensureFlat simple where
  names := h.names.merge fun _ _ _ _ => decide_eq_true_iff
  symbols := h.symbols.merge fun a ha b hb =>
    entryLess_eq (h.plain b (Or.inr hb)) (h.plain a (Or.inl ha))
  extensions := h.extensions.merge fun _ _ _ _ => decide_eq_true_iff
  separate := h.separate
  legal := h.legal
  plain e he := h.plain e (mem_tiers_of_flat he)
  nameAdded e he := h.nameAdded e (mem_tiers_of_flat he)
  symbolAdded e he := h.symbolAdded e (mem_tiers_of_flat he)
  extensionAdded e he := h.extensionAdded e (mem_tiers_of_flat he)

/-- Once flat, the vectors are the maps, and lookups answer alike. -/
theorem Mirrors.answer_of_flat (h : Mirrors parse index simple) (hname : index.byName = [])
    (hsymbol : index.bySymbol = []) (hextension : index.byExtension = []) (lookup : Lookup) :
    index.answer parse lookup = SimpleDescriptorDatabase.answer ⟨simple⟩ lookup := by
  have hnames := h.names
  have hsymbols := h.symbols
  have hextensions := h.extensions
  rw [hname] at hnames
  rw [hsymbol] at hsymbols
  rw [hextension] at hextensions
  cases lookup with
  | fileByName filename =>
    rw [answer, SimpleDescriptorDatabase.answer, SimpleDescriptorDatabase.findFileByName,
      DescriptorIndex.findFile, ← hnames.map_flat, find_map fun _ => rfl, findFile]
    cases Sorted.find FileEntry.encodedName index.byNameFlat filename <;> rfl
  | fileContainingSymbol symbolName =>
    have hbound : (index.bySymbolFlat.findIdx fun e =>
        symbolLess (stringParts symbolName) (index.getParts e)) =
        upperBound index.symbolName index.bySymbolFlat symbolName := by
      refine findIdx_eq_upperBound fun e he => ?_
      have hless := symbolLess_eq (plain_stringParts symbolName)
        (plain_symbolParts (h.plain e (Or.inr he)))
      rwa [string_symbolParts] at hless
    rw [answer, SimpleDescriptorDatabase.answer,
      SimpleDescriptorDatabase.findFileContainingSymbol, DescriptorIndex.findSymbol,
      ← hsymbols.map_flat, upperBound_map fun _ => rfl, List.getElem?_map,
      findSymbolOnlyFlat, hbound]
    rcases index.bySymbolFlat[_]? with - | found
    · rfl
    · dsimp only [Option.map_some]
      split_ifs <;> rfl
  | fileContainingExtension containingType fieldNumber =>
    rw [answer, SimpleDescriptorDatabase.answer,
      SimpleDescriptorDatabase.findFileContainingExtension, DescriptorIndex.findExtension,
      ← hextensions.map_flat, find_map fun _ => rfl, findExtension]
    cases Sorted.find ExtensionEntry.key index.byExtensionFlat _ <;> rfl
  | allExtensionNumbers extendeeType =>
    rw [answer, SimpleDescriptorDatabase.answer,
      SimpleDescriptorDatabase.findAllExtensionNumbers, DescriptorIndex.findAllExtensionNumbers,
      ← hextensions.map_flat, lowerBound_map fun _ => rfl, findAllExtensionNumbers]
    dsimp only
    rw [← List.map_drop, List.takeWhile_map, List.map_map, List.isEmpty_map]
    rfl

theorem Mirrors.answer (h : Mirrors parse index simple) (lookup : Lookup) :
    index.ensureFlat.answer parse lookup = SimpleDescriptorDatabase.answer ⟨simple⟩ lookup :=
  h.ensureFlat.answer_of_flat rfl rfl rfl lookup

/-! ## Runs -/

def CallMeets (parse : Encoded → Option FileDescriptorProto) (index : EncodedIndex) : Call → Prop
  | .add encoded => ∀ file, parse encoded = some file → AddMeets file encoded index
  | .lookup _ => True

/-- Every call of a run, from an index on, meets what is relied on. -/
def Meets (parse : Encoded → Option FileDescriptorProto) : List Call → EncodedIndex → Prop
  | [], _ => True
  | c :: calls, index => CallMeets parse index c ∧ Meets parse calls (call parse index c).2

/-- What a call does to the simple index: lookups do nothing. -/
def addCall (parse : Encoded → Option FileDescriptorProto)
    (simple : DescriptorIndex (Option FileDescriptorProto)) :
    Call → Answer × DescriptorIndex (Option FileDescriptorProto)
  | .add encoded =>
    match parse encoded with
    | some file => (.added (addValid file simple).1, (addValid file simple).2)
    | none => (.added false, simple)
  | .lookup lookup => (SimpleDescriptorDatabase.answer ⟨simple⟩ lookup, simple)

/-- **One call.** -/
theorem Mirrors.call (h : Mirrors parse index simple) {c : Call} (hok : CallMeets parse index c) :
    (index.call parse c).1 = (addCall parse simple c).1 ∧
      Mirrors parse (index.call parse c).2 (addCall parse simple c).2 := by
  cases c with
  | add encoded =>
    cases hparse : parse encoded with
    | none =>
      simp only [EncodedIndex.call, add, addCall, hparse]
      exact ⟨trivial, h⟩
    | some file =>
      obtain ⟨hfst, hsnd⟩ := h.addFile hparse (hok file hparse)
      simp only [EncodedIndex.call, add, addCall, hparse]
      exact ⟨congrArg Answer.added hfst, hsnd⟩
  | lookup lookup => exact ⟨h.answer lookup, h.ensureFlat⟩

def afterAdds (parse : Encoded → Option FileDescriptorProto) (calls : List Call)
    (simple : DescriptorIndex (Option FileDescriptorProto)) : DescriptorIndex (Option FileDescriptorProto) :=
  calls.foldl (fun simple c => (addCall parse simple c).2) simple

/-- **A run.** -/
theorem Mirrors.run (calls : List Call) (h : Mirrors parse index simple) (hok : Meets parse calls index) :
    Mirrors parse (calls.foldl (fun index c => (EncodedIndex.call parse index c).2) index)
      (afterAdds parse calls simple) := by
  induction calls generalizing index simple with
  | nil => exact h
  | cons c calls ih => exact ih (h.call hok.1).2 hok.2

theorem mirrors_after {calls : List Call} (hok : Meets parse calls empty) :
    Mirrors parse (after parse calls) (afterAdds parse calls .empty) := mirrors_empty.run calls hok

def adds (calls : List Call) : List Encoded := calls.filterMap fun
    | .add encoded => some encoded
    | .lookup _ => none

theorem afterAdds_eq (calls : List Call) (simple : DescriptorIndex (Option FileDescriptorProto)) :
    afterAdds parse calls simple =
      (adds calls).foldl (fun simple encoded => (addCall parse simple (.add encoded)).2) simple := by
  induction calls generalizing simple with
  | nil => rfl
  | cons c calls ih =>
    cases c with
    | add encoded => exact ih (addCall parse simple (.add encoded)).2
    | lookup lookup => exact ih simple

/-- Every addition of a run succeeds. -/
def AllAdded (parse : Encoded → Option FileDescriptorProto) : List Call → EncodedIndex → Prop
  | [], _ => True
  | .add encoded :: calls, index =>
    (add parse encoded index).1 = true ∧ AllAdded parse calls (add parse encoded index).2
  | .lookup _ :: calls, index => AllAdded parse calls index.ensureFlat

def addedFiles (parse : Encoded → Option FileDescriptorProto) (calls : List Call) :
    List FileDescriptorProto := (adds calls).filterMap parse

/-- Where every addition succeeds, the simple database adds the same files. -/
theorem Mirrors.allAdded (calls : List Call) (h : Mirrors parse index simple)
    (hok : Meets parse calls index) (hadded : AllAdded parse calls index) :
    (Attempt.forAll SimpleDescriptorDatabase.add (addedFiles parse calls) ⟨simple⟩).1 = true ∧
      (Attempt.forAll SimpleDescriptorDatabase.add (addedFiles parse calls) ⟨simple⟩).2 =
        ⟨afterAdds parse calls simple⟩ := by
  induction calls generalizing index simple with
  | nil => exact ⟨rfl, rfl⟩
  | cons c calls ih =>
    obtain ⟨hfirst, hrest⟩ := hok
    have hstep := h.call hfirst
    cases c with
    | lookup lookup => exact ih hstep.2 hrest hadded
    | add encoded =>
      obtain ⟨hsuccess, hadded⟩ := hadded
      cases hparse : parse encoded with
      | none => simp [add, hparse] at hsuccess
      | some file =>
        have hrestAdded := ih hstep.2 hrest hadded
        have hfile : (addValid file simple).1 = true := by
          have hsame := (h.addFile hparse (hfirst file hparse)).1
          rw [← hsame]
          simpa [add, hparse] using hsuccess
        have hvalid : addValid file simple = simple.addFile file (some file) := by
          unfold addValid at hfile ⊢
          split_ifs at hfile ⊢
          rfl
        have hfiles : addedFiles parse (.add encoded :: calls) =
            file :: addedFiles parse calls := by
          simp [addedFiles, adds, hparse]
        have hcall : (addCall parse simple (.add encoded)).2 =
            (simple.addFile file (some file)).2 := by
          simp [addCall, hparse, hvalid]
        have hadd : (SimpleDescriptorDatabase.add file ⟨simple⟩).1 = true := by
          rw [hvalid] at hfile
          exact hfile
        rw [hfiles, Attempt.forAll_cons, Attempt.andThen, if_pos hadd]
        rw [hcall] at hrestAdded
        have hafter : afterAdds parse (.add encoded :: calls) simple =
            afterAdds parse calls (simple.addFile file (some file)).2 := by
          rw [← hcall]
          rfl
        rw [hafter]
        exact hrestAdded

/-- A file named `a`, without a package and in the package `p`. -/
def fileA (package : Option Str) : FileDescriptorProto := ⟨[97], package, [], [], [], []⟩

def encodedA : Encoded := [10, 1, 97]

def encodedAInP : Encoded := [10, 1, 97, 18, 1, 112]

def parseA (encoded : Encoded) : Option FileDescriptorProto :=
  if encoded = encodedA then some (fileA none)
  else if encoded = encodedAInP then some (fileA (some [112]))
  else none

def foundPackage : Answer → Option Str
  | .file (some file) => file.package
  | _ => none

end EncodedIndex

end Protoc.Database
