import Protoc.Database.Descriptors

/-!
# The merged descriptor database

Several databases, where a file of an earlier one hides the files of the same name behind it.
-/

namespace Protoc.Database

open Protoc.Lib Sorted
open Protoc.Util (Str)

/-- What a `DescriptorDatabase` answers: the output, where it returns true. -/
structure DescriptorDatabase where
  findFileByName : Str → Option FileDescriptorProto
  findFileContainingSymbol : Str → Option FileDescriptorProto
  findFileContainingExtension : Str → Int → Option FileDescriptorProto
  findAllExtensionNumbers : Str → Option (List Int)

/-- A file that contains a symbol or an extension is the file of its name. -/
structure DescriptorDatabase.Consistent (source : DescriptorDatabase) : Prop where
  symbol : ∀ symbolName file, source.findFileContainingSymbol symbolName = some file →
    source.findFileByName file.name = some file
  extension : ∀ containingType fieldNumber file,
    source.findFileContainingExtension containingType fieldNumber = some file →
      source.findFileByName file.name = some file

namespace MergedDescriptorDatabase

/-- `FindFileByName`. -/
def findFileByName : List DescriptorDatabase → Str → Option FileDescriptorProto
  | [], _ => none
  | source :: sources, filename =>
    match source.findFileByName filename with
    | some output => some output
    | none => findFileByName sources filename

/-- The loop of `FindFileContainingSymbol` and `FindFileContainingExtension`, behind the
previous sources. -/
def findVisible (find : DescriptorDatabase → Option FileDescriptorProto) (previous : List DescriptorDatabase) :
    List DescriptorDatabase → Option FileDescriptorProto
  | [] => none
  | source :: sources =>
    match find source with
    | some output =>
      -- a conflicting file in a previous source hides this one
      if previous.any fun source => (source.findFileByName output.name).isSome then none else some output
    | none => findVisible find (previous ++ [source]) sources

/-- `FindFileContainingSymbol`. -/
def findFileContainingSymbol (sources : List DescriptorDatabase) (symbolName : Str) : Option FileDescriptorProto :=
  findVisible (fun source => source.findFileContainingSymbol symbolName) [] sources

/-- `FindFileContainingExtension`. -/
def findFileContainingExtension (sources : List DescriptorDatabase) (containingType : Str) (fieldNumber : Int) :
    Option FileDescriptorProto :=
  findVisible (fun source => source.findFileContainingExtension containingType fieldNumber) [] sources

/-- A number is inserted into `merged_results`. -/
def insertResult (mergedResults : List Int) (number : Int) : List Int :=
  (insertIfNotPresent id number mergedResults).2

/-- The loop of `FindAllExtensionNumbers`: `success`, and `merged_results`. -/
def mergeResults (extendeeType : Str) (r : Bool × List Int) (source : DescriptorDatabase) : Bool × List Int :=
  match source.findAllExtensionNumbers extendeeType with
  | some results => (true, results.foldl insertResult r.2)
  | none => r

/-- `FindAllExtensionNumbers`; what is found is appended to the output. -/
def findAllExtensionNumbers (sources : List DescriptorDatabase) (extendeeType : Str) (output : List Int) :
    Bool × List Int :=
  let r := sources.foldl (mergeResults extendeeType) (false, [])
  (r.1, output ++ r.2)

variable {sources previous : List DescriptorDatabase} {file : FileDescriptorProto}

theorem findFileByName_append {filename : Str} (h : ∀ source ∈ previous, source.findFileByName filename = none)
    (sources : List DescriptorDatabase) :
    findFileByName (previous ++ sources) filename = findFileByName sources filename := by
  induction previous with
  | nil => rfl
  | cons source previous ih =>
    obtain ⟨hsource, hprevious⟩ := List.forall_mem_cons.mp h
    rw [List.cons_append, findFileByName, hsource]
    exact ih hprevious

/-- **What is not hidden is found by its name.** -/
theorem findFileByName_of_findVisible {find : DescriptorDatabase → Option FileDescriptorProto}
    (h : ∀ source ∈ sources, find source = some file → source.findFileByName file.name = some file)
    (hfound : findVisible find previous sources = some file) :
    findFileByName (previous ++ sources) file.name = some file := by
  induction sources generalizing previous with
  | nil => cases hfound
  | cons source sources ih =>
    obtain ⟨hsource, hsources⟩ := List.forall_mem_cons.mp h
    rw [findVisible] at hfound
    split at hfound
    · next output houtput =>
      split at hfound
      · cases hfound
      · next hvisible =>
        obtain rfl := Option.some.inj hfound
        have hprevious : ∀ source ∈ previous, source.findFileByName output.name = none := by
          intro source hmem
          simp only [List.any_eq_true, not_exists, not_and] at hvisible
          exact Option.not_isSome_iff_eq_none.mp (hvisible source hmem)
        rw [findFileByName_append hprevious, findFileByName, hsource houtput]
    · have hrest := ih hsources hfound
      rwa [List.append_assoc] at hrest

/-! ## Extension numbers -/

theorem mem_insertResult {mergedResults : List Int} (h : Increasing id mergedResults) (number n : Int) :
    n ∈ insertResult mergedResults number ↔ n = number ∨ n ∈ mergedResults := by
  rw [insertResult]
  cases hnew : (insertIfNotPresent id number mergedResults).1 with
  | true => exact mem_insertIfNotPresent hnew n
  | false =>
    have hpresent : number ∈ mergedResults := by
      have hnot := mt (insertIfNotPresent_fst h).mpr (Bool.eq_false_iff.mp hnew)
      push Not at hnot
      obtain ⟨e, hmem, heq⟩ := hnot
      obtain rfl : e = number := heq
      exact hmem
    rw [insertIfNotPresent_of_present hnew]
    exact ⟨Or.inr, fun hn => hn.elim (fun heq => heq ▸ hpresent) id⟩

theorem foldl_insertResult {mergedResults : List Int} (h : Increasing id mergedResults) (results : List Int) :
    Increasing id (results.foldl insertResult mergedResults) ∧
      ∀ n, n ∈ results.foldl insertResult mergedResults ↔ n ∈ results ∨ n ∈ mergedResults := by
  induction results generalizing mergedResults with
  | nil => exact ⟨h, fun n => by simp⟩
  | cons number results ih =>
    obtain ⟨hsorted, hmem⟩ := ih (h.insertIfNotPresent number)
    refine ⟨hsorted, fun n => ?_⟩
    rw [List.foldl_cons, insertResult, hmem, List.mem_cons, ← insertResult, mem_insertResult h]
    tauto

def NumberOf (sources : List DescriptorDatabase) (extendeeType : Str) (n : Int) : Prop :=
  ∃ source ∈ sources, ∃ results, source.findAllExtensionNumbers extendeeType = some results ∧ n ∈ results

theorem foldl_mergeResults (extendeeType : Str) (sources : List DescriptorDatabase) {r : Bool × List Int}
    (h : Increasing id r.2) : Increasing id (sources.foldl (mergeResults extendeeType) r).2 ∧
      (∀ n, n ∈ (sources.foldl (mergeResults extendeeType) r).2 ↔ NumberOf sources extendeeType n ∨ n ∈ r.2) ∧
      ((sources.foldl (mergeResults extendeeType) r).1 = true ↔
        (∃ source ∈ sources, (source.findAllExtensionNumbers extendeeType).isSome) ∨ r.1 = true) := by
  induction sources generalizing r with
  | nil => exact ⟨h, fun n => by simp [NumberOf], by simp⟩
  | cons source sources ih =>
    rw [List.foldl_cons, mergeResults]
    cases hresults : source.findAllExtensionNumbers extendeeType with
    | none =>
      obtain ⟨hsorted, hmem, hok⟩ := ih h
      refine ⟨hsorted, fun n => ?_, ?_⟩
      · rw [hmem]
        simp [NumberOf, hresults]
      · rw [hok]
        simp [hresults]
    | some results =>
      obtain ⟨hinserted, hnumbers⟩ := foldl_insertResult h results
      obtain ⟨hsorted, hmem, hok⟩ := ih (r := (true, results.foldl insertResult r.2)) hinserted
      refine ⟨hsorted, fun n => ?_, ?_⟩
      · rw [hmem, hnumbers]
        simp only [NumberOf, List.exists_mem_cons_iff, hresults, Option.some.injEq, exists_eq_left']
        rw [or_left_comm, or_assoc]
      · rw [hok]
        simp [hresults]

/-! ## Coherence -/

/-- **Merged databases are coherent.**  A file that is found by a symbol or an extension is the
one found by its name, and the extension numbers are those of the sources, each once and in
increasing order. -/
theorem coherent (sources : List DescriptorDatabase) (h : ∀ source ∈ sources, source.Consistent) :
    (∀ symbolName file, findFileContainingSymbol sources symbolName = some file →
        findFileByName sources file.name = some file) ∧
      (∀ containingType fieldNumber file,
        findFileContainingExtension sources containingType fieldNumber = some file →
          findFileByName sources file.name = some file) ∧
      ∀ extendeeType output, ∃ numbers : List Int,
        (findAllExtensionNumbers sources extendeeType output).2 = output ++ numbers ∧
          numbers.Pairwise (· < ·) ∧ (∀ n, n ∈ numbers ↔ NumberOf sources extendeeType n) ∧
          ((findAllExtensionNumbers sources extendeeType output).1 = true ↔
            ∃ source ∈ sources, (source.findAllExtensionNumbers extendeeType).isSome) := by
  refine ⟨fun symbolName file hfound => ?_, fun containingType fieldNumber file hfound => ?_,
    fun extendeeType output => ?_⟩
  · exact findFileByName_of_findVisible (fun source hmem => (h source hmem).symbol symbolName file) hfound
  · exact findFileByName_of_findVisible
      (fun source hmem => (h source hmem).extension containingType fieldNumber file) hfound
  · obtain ⟨hsorted, hmem, hok⟩ := foldl_mergeResults extendeeType sources (r := (false, [])) increasing_nil
    refine ⟨_, rfl, hsorted, fun n => ?_, ?_⟩
    · rw [hmem]
      simp
    · rw [findAllExtensionNumbers, hok]
      simp

/-- A source with one file, which contains one symbol and extends nothing. -/
def oneFile (file : FileDescriptorProto) (symbol : Str) : DescriptorDatabase where
  findFileByName filename := if filename = file.name then some file else none
  findFileContainingSymbol symbolName := if symbolName = symbol then some file else none
  findFileContainingExtension _ _ := none
  findAllExtensionNumbers _ := some [7, 5, 7]

theorem oneFile_consistent (file : FileDescriptorProto) (symbol : Str) : (oneFile file symbol).Consistent := by
  refine ⟨fun symbolName found hfound => ?_, fun _ _ _ hfound => nomatch hfound⟩
  simp only [oneFile] at hfound ⊢
  split at hfound
  · cases hfound
    exact if_pos rfl
  · cases hfound

/-- Two sources with one file each, the second behind the first. -/
theorem coherent_twoFiles :
    findFileByName [oneFile ⟨[1], none, [], [], [], []⟩ [65], oneFile ⟨[2], none, [], [], [], []⟩ [66]] [2] =
      some ⟨[2], none, [], [], [], []⟩ := by
  have hcoherent := coherent [oneFile ⟨[1], none, [], [], [], []⟩ [65], oneFile ⟨[2], none, [], [], [], []⟩ [66]]
    (by simp [oneFile_consistent])
  exact hcoherent.1 [66] ⟨[2], none, [], [], [], []⟩ rfl

end MergedDescriptorDatabase

end Protoc.Database
