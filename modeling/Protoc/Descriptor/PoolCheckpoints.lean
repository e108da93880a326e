import Mathlib.Data.List.Infix
import Mathlib.Data.List.Nodup
import Mathlib.Data.List.TakeWhile
import Protoc.Descriptor.PoolTables

/-!
# What a failed build leaves

While checkpoints are open the tables only grow, so that a rollback brings back what they were
at the checkpoint.  But the values of unknown enum numbers are allocated in the tables too, and
the file of their enum may be older than the checkpoint, or of another pool: the tables of such
a file keep a value that the rollback removes.
-/

namespace Protoc.Descriptor

open Function (update update_self update_of_ne)
open List Option
open Protoc.Lib
open Protoc.Lib.Journaled (Grows)

theorem DescriptorPtr.Live.mono {t t' : Tables} {d : DescriptorPtr} (h : d.Live t)
    (hle : t.allocations <+: t'.allocations) : d.Live t' := by
  cases d with
  | own allocation index => exact hle.subset h
  | foreign n => trivial

theorem FileTablesPtr.Live.mono {t t' : Tables} {f : FileTablesPtr} (h : f.Live t)
    (hle : t.fileTables <+: t'.fileTables) : f.Live t' := by
  cases f with
  | own allocation => exact hle.subset h
  | foreign n => trivial

theorem cStr_eq {s : Name} (h : 0 ∉ s) : cStr s = s := by
  apply takeWhile_eq_self_iff.mpr
  intro c hc
  simp only [decide_eq_true_eq, ne_eq]
  rintro rfl
  exact h hc

namespace Pool

variable {b p q : Pool} {created created' : List FileTablesPtr}

/-! ## Growing -/

def symbols (p : Pool) : Journaled Name (ℕ × Symbol) :=
  ⟨p.tables.symbolsByName, p.tables.symbolsAfterCheckpoint.map p.memory.text⟩

def files (p : Pool) : Journaled Name (ℕ × DescriptorPtr) :=
  ⟨p.tables.filesByName, p.tables.filesAfterCheckpoint.map p.memory.text⟩

def extensions (p : Pool) : Journaled (DescriptorPtr × ℤ) DescriptorPtr :=
  ⟨p.tables.extensions, p.tables.extensionsAfterCheckpoint⟩

/-- No table refers to what was removed, the numbers of the allocations were given out, and the
names that a rollback erases have no null character. -/
structure Sound (p : Pool) : Prop extends NoDangling p where
  allocations_lt : ∀ id ∈ p.tables.allocations, id < p.memory.next
  strings_lt : ∀ id ∈ p.tables.strings, id < p.memory.next
  fileTables_lt : ∀ id ∈ p.tables.fileTables, id < p.memory.next
  fileTables_nodup : p.tables.fileTables.Nodup
  symbolNames : ∀ s ∈ p.tables.symbolsAfterCheckpoint, 0 ∉ p.memory.text s
  fileNames : ∀ s ∈ p.tables.filesAfterCheckpoint, 0 ∉ p.memory.text s

/-- `p` arose from `b` without a rollback past it, and unknown values were added to the file
tables `created`. -/
structure Since (b p : Pool) (created : List FileTablesPtr) : Prop where
  allocations : b.tables.allocations <+: p.tables.allocations
  strings : b.tables.strings <+: p.tables.strings
  messages : b.tables.messages <+: p.tables.messages
  onceDynamics : b.tables.onceDynamics <+: p.tables.onceDynamics
  fileTables : b.tables.fileTables <+: p.tables.fileTables
  symbolsAfter : b.tables.symbolsAfterCheckpoint <+: p.tables.symbolsAfterCheckpoint
  filesAfter : b.tables.filesAfterCheckpoint <+: p.tables.filesAfterCheckpoint
  symbols : Grows b.symbols p.symbols
  files : Grows b.files p.files
  extensions : Grows b.extensions p.extensions
  next_le : b.memory.next ≤ p.memory.next
  text_eq : ∀ id < b.memory.next, p.memory.text id = b.memory.text id
  enumValue_eq : ∀ id < b.memory.next, p.memory.enumValue id = b.memory.enumValue id
  enumValues_eq : ∀ f : FileTablesPtr, f.Live b.tables →
    (p.memory.fileTables f).enumValuesByNumber = (b.memory.fileTables f).enumValuesByNumber
  unknown_le : ∀ f : FileTablesPtr, f.Live b.tables → ∀ key value,
    (b.memory.fileTables f).unknownEnumValuesByNumber key = some value →
      (p.memory.fileTables f).unknownEnumValuesByNumber key = some value
  unknown_eq : ∀ f : FileTablesPtr, f.Live b.tables → f ∉ created →
    (p.memory.fileTables f).unknownEnumValuesByNumber =
      (b.memory.fileTables f).unknownEnumValuesByNumber
  created : ∀ f ∈ created, f.Live p.tables ∧ ∃ key id,
    (p.memory.fileTables f).unknownEnumValuesByNumber key = some (.own id 0) ∧
      b.memory.next ≤ id

theorem Since.refl (p : Pool) : Since p p [] where
  allocations := prefix_rfl
  strings := prefix_rfl
  messages := prefix_rfl
  onceDynamics := prefix_rfl
  fileTables := prefix_rfl
  symbolsAfter := prefix_rfl
  filesAfter := prefix_rfl
  symbols := .refl _
  files := .refl _
  extensions := .refl _
  next_le := le_rfl
  text_eq _ _ := rfl
  enumValue_eq _ _ := rfl
  enumValues_eq _ _ := rfl
  unknown_le _ _ _ _ := id
  unknown_eq _ _ _ := rfl
  created _ hf := absurd hf not_mem_nil

theorem Since.trans (hbp : Since b p created) (hpq : Since p q created') : Since b q (created' ++ created) where
  allocations := hbp.allocations.trans hpq.allocations
  strings := hbp.strings.trans hpq.strings
  messages := hbp.messages.trans hpq.messages
  onceDynamics := hbp.onceDynamics.trans hpq.onceDynamics
  fileTables := hbp.fileTables.trans hpq.fileTables
  symbolsAfter := hbp.symbolsAfter.trans hpq.symbolsAfter
  filesAfter := hbp.filesAfter.trans hpq.filesAfter
  symbols := hbp.symbols.trans hpq.symbols
  files := hbp.files.trans hpq.files
  extensions := hbp.extensions.trans hpq.extensions
  next_le := le_trans hbp.next_le hpq.next_le
  text_eq id hid := by
    rw [hpq.text_eq id (lt_of_lt_of_le hid hbp.next_le), hbp.text_eq id hid]
  enumValue_eq id hid := by
    rw [hpq.enumValue_eq id (lt_of_lt_of_le hid hbp.next_le), hbp.enumValue_eq id hid]
  enumValues_eq f hf := by
    rw [hpq.enumValues_eq f (hf.mono hbp.fileTables), hbp.enumValues_eq f hf]
  unknown_le f hf key value hvalue :=
    hpq.unknown_le f (hf.mono hbp.fileTables) key value (hbp.unknown_le f hf key value hvalue)
  unknown_eq f hf hnone := by
    rw [mem_append, not_or] at hnone
    rw [hpq.unknown_eq f (hf.mono hbp.fileTables) hnone.1, hbp.unknown_eq f hf hnone.2]
  created f hf := by
    rcases mem_append.mp hf with hf | hf
    · obtain ⟨hlive, key, id, hkey, hid⟩ := hpq.created f hf
      exact ⟨hlive, key, id, hkey, le_trans hbp.next_le hid⟩
    · obtain ⟨hlive, key, id, hkey, hid⟩ := hbp.created f hf
      exact ⟨hlive.mono hpq.fileTables, key, id, hpq.unknown_le f hlive key _ hkey, hid⟩

variable {ids : List ℕ}

theorem map_text_eq (hids : ∀ s ∈ ids, s < b.memory.next)
    (htext : ∀ id < b.memory.next, p.memory.text id = b.memory.text id) :
    ids.map p.memory.text = ids.map b.memory.text :=
  map_congr_left fun s hs => htext s (hids s hs)

theorem Sound.symbols_eq (h : Sound p) (hmap : q.tables.symbolsByName = p.tables.symbolsByName)
    (hjournal : q.tables.symbolsAfterCheckpoint = p.tables.symbolsAfterCheckpoint)
    (htext : ∀ id < p.memory.next, q.memory.text id = p.memory.text id) : q.symbols = p.symbols := by
  rw [symbols, symbols, hmap, hjournal, map_text_eq (fun s hs => h.strings_lt s (h.pendingSymbols s hs)) htext]

theorem Sound.files_eq (h : Sound p) (hmap : q.tables.filesByName = p.tables.filesByName)
    (hjournal : q.tables.filesAfterCheckpoint = p.tables.filesAfterCheckpoint)
    (htext : ∀ id < p.memory.next, q.memory.text id = p.memory.text id) : q.files = p.files := by
  rw [files, files, hmap, hjournal, map_text_eq (fun s hs => h.strings_lt s (h.pendingFiles s hs)) htext]

/-- The maps and the journals are the same. -/
structure SameMaps (t t' : Tables) : Prop where
  symbolsByName : t'.symbolsByName = t.symbolsByName
  filesByName : t'.filesByName = t.filesByName
  extensions : t'.extensions = t.extensions
  symbolsAfter : t'.symbolsAfterCheckpoint = t.symbolsAfterCheckpoint
  filesAfter : t'.filesAfterCheckpoint = t.filesAfterCheckpoint

theorem Since.hasNames (hpq : Since p q created) (hsound : Sound p) {value : DescriptorPtr}
    (hlive : value.Live p.tables) (h : HasNames p value) : HasNames q value := by
  cases value with
  | own id index =>
    intro v hv
    rw [hpq.enumValue_eq id (hsound.allocations_lt id hlive)] at hv
    exact ⟨hpq.strings.subset (h v hv).1, hpq.strings.subset (h v hv).2⟩
  | foreign n => trivial

/-- After allocations, which are not referred to yet. -/
theorem Sound.grow (h : Sound p) (hpq : Since p q []) (hmaps : SameMaps p.tables q.tables)
    (hallocations : ∀ id ∈ q.tables.allocations, id < q.memory.next)
    (hstrings : ∀ id ∈ q.tables.strings, id < q.memory.next)
    (hfileTables : ∀ id ∈ q.tables.fileTables, id < q.memory.next) (hnodup : q.tables.fileTables.Nodup)
    (hempty : ∀ f : FileTablesPtr, f.Live q.tables → f.Live p.tables ∨
      q.memory.fileTables f = ⟨fun _ => none, fun _ => none⟩) : Sound q where
  symbols name s symbol hfind := by
    rw [hmaps.symbolsByName] at hfind
    obtain ⟨hs, hlive⟩ := h.symbols name s symbol hfind
    exact ⟨hpq.strings.subset hs, hlive.mono hpq.allocations⟩
  files name s file hfind := by
    rw [hmaps.filesByName] at hfind
    obtain ⟨hs, hlive⟩ := h.files name s file hfind
    exact ⟨hpq.strings.subset hs, hlive.mono hpq.allocations⟩
  extensions key field hfind := by
    rw [hmaps.extensions] at hfind
    obtain ⟨hkey, hlive⟩ := h.extensions key field hfind
    exact ⟨hkey.mono hpq.allocations, hlive.mono hpq.allocations⟩
  pendingSymbols s hs := by
    rw [hmaps.symbolsAfter] at hs
    exact hpq.strings.subset (h.pendingSymbols s hs)
  pendingFiles s hs := by
    rw [hmaps.filesAfter] at hs
    exact hpq.strings.subset (h.pendingFiles s hs)
  enumValues f hf key value hfind := by
    rcases hempty f hf with hlive | hnone
    · rw [hpq.enumValues_eq f hlive] at hfind
      obtain ⟨hkey, hvalue⟩ := h.enumValues f hlive key value hfind
      exact ⟨hkey.mono hpq.allocations, hvalue.mono hpq.allocations⟩
    · simp [hnone] at hfind
  unknownEnumValues f hf key value hfind := by
    rcases hempty f hf with hlive | hnone
    · rw [hpq.unknown_eq f hlive not_mem_nil] at hfind
      obtain ⟨hkey, hvalue, hnames⟩ := h.unknownEnumValues f hlive key value hfind
      exact ⟨hkey.mono hpq.allocations, hvalue.mono hpq.allocations, hpq.hasNames h hvalue hnames⟩
    · simp [hnone] at hfind
  allocations_lt := hallocations
  strings_lt := hstrings
  fileTables_lt := hfileTables
  fileTables_nodup := hnodup
  symbolNames s hs := by
    rw [hmaps.symbolsAfter] at hs
    rw [hpq.text_eq s (h.strings_lt s (h.pendingSymbols s hs))]
    exact h.symbolNames s hs
  fileNames s hs := by
    rw [hmaps.filesAfter] at hs
    rw [hpq.text_eq s (h.strings_lt s (h.pendingFiles s hs))]
    exact h.fileNames s hs

/-! ## The calls -/

theorem Sound.lt_next_append {n : ℕ} (h : ∀ id ∈ ids, id < n) : ∀ id ∈ ids ++ [n], id < n + 1 := by
  intro id hid
  rcases mem_append.mp hid with hid | hid
  · exact Nat.lt_succ_of_lt (h id hid)
  · rw [mem_singleton.mp hid]
    exact Nat.lt_succ_self n

theorem Sound.nodup_append_next {n : ℕ} (hnodup : ids.Nodup) (h : ∀ id ∈ ids, id < n) : (ids ++ [n]).Nodup := by
  apply nodup_append.mpr
  refine ⟨hnodup, nodup_singleton n, ?_⟩
  intro id hid id' hid'
  rw [mem_singleton.mp hid']
  exact ne_of_lt (h id hid)

theorem allocate_since (p : Pool) : Since p p.allocate.2 [] :=
  { Since.refl p with
    allocations := prefix_append _ _
    next_le := Nat.le_succ _
    enumValue_eq := fun _ hid => update_of_ne (ne_of_lt hid) _ _ }

theorem Sound.allocate (h : Sound p) : Sound p.allocate.2 :=
  h.grow p.allocate_since ⟨rfl, rfl, rfl, rfl, rfl⟩ (lt_next_append h.allocations_lt)
    (fun id hid => Nat.lt_succ_of_lt (h.strings_lt id hid))
    (fun id hid => Nat.lt_succ_of_lt (h.fileTables_lt id hid)) h.fileTables_nodup (fun _ => .inl)

theorem Sound.allocateString_since (h : Sound p) (value : Name) : Since p (p.allocateString value).2 [] := by
  have htext : ∀ id < p.memory.next, (p.allocateString value).2.memory.text id =
      p.memory.text id := fun id hid => update_of_ne (ne_of_lt hid) _ _
  have hsymbols : (p.allocateString value).2.symbols = p.symbols := h.symbols_eq rfl rfl htext
  have hfiles : (p.allocateString value).2.files = p.files := h.files_eq rfl rfl htext
  exact { Since.refl p with
    strings := prefix_append _ _
    symbols := by rw [hsymbols]; exact .refl _
    files := by rw [hfiles]; exact .refl _
    next_le := Nat.le_succ _
    text_eq := htext }

theorem Sound.allocateString (h : Sound p) (value : Name) : Sound (p.allocateString value).2 :=
  h.grow (h.allocateString_since value) ⟨rfl, rfl, rfl, rfl, rfl⟩
    (fun id hid => Nat.lt_succ_of_lt (h.allocations_lt id hid)) (lt_next_append h.strings_lt)
    (fun id hid => Nat.lt_succ_of_lt (h.fileTables_lt id hid)) h.fileTables_nodup (fun _ => .inl)

theorem allocateOnceDynamic_since (p : Pool) : Since p p.allocateOnceDynamic.2 [] :=
  { Since.refl p with
    onceDynamics := prefix_append _ _
    next_le := Nat.le_succ _ }

theorem Sound.allocateOnceDynamic (h : Sound p) : Sound p.allocateOnceDynamic.2 :=
  h.grow p.allocateOnceDynamic_since ⟨rfl, rfl, rfl, rfl, rfl⟩
    (fun id hid => Nat.lt_succ_of_lt (h.allocations_lt id hid))
    (fun id hid => Nat.lt_succ_of_lt (h.strings_lt id hid))
    (fun id hid => Nat.lt_succ_of_lt (h.fileTables_lt id hid)) h.fileTables_nodup (fun _ => .inl)

theorem allocateMessage_since (p : Pool) : Since p p.allocateMessage.2 [] :=
  { Since.refl p with
    messages := prefix_append _ _
    next_le := Nat.le_succ _ }

theorem Sound.allocateMessage (h : Sound p) : Sound p.allocateMessage.2 :=
  h.grow p.allocateMessage_since ⟨rfl, rfl, rfl, rfl, rfl⟩
    (fun id hid => Nat.lt_succ_of_lt (h.allocations_lt id hid))
    (fun id hid => Nat.lt_succ_of_lt (h.strings_lt id hid))
    (fun id hid => Nat.lt_succ_of_lt (h.fileTables_lt id hid)) h.fileTables_nodup (fun _ => .inl)

theorem Sound.allocateFileTables_eq (h : Sound p) {f : FileTablesPtr} (hf : f.Live p.tables) :
    p.allocateFileTables.2.memory.fileTables f = p.memory.fileTables f := by
  apply update_of_ne
  rintro rfl
  exact lt_irrefl _ (h.fileTables_lt _ hf)

theorem Sound.allocateFileTables_since (h : Sound p) : Since p p.allocateFileTables.2 [] :=
  { Since.refl p with
    fileTables := prefix_append _ _
    next_le := Nat.le_succ _
    enumValues_eq := fun f hf => by rw [h.allocateFileTables_eq hf]
    unknown_le := fun f hf key value hvalue => by rwa [h.allocateFileTables_eq hf]
    unknown_eq := fun f hf _ => by rw [h.allocateFileTables_eq hf]
    created := fun f hf => absurd hf not_mem_nil }

theorem Sound.allocateFileTables (h : Sound p) : Sound p.allocateFileTables.2 := by
  apply h.grow h.allocateFileTables_since ⟨rfl, rfl, rfl, rfl, rfl⟩
    (fun id hid => Nat.lt_succ_of_lt (h.allocations_lt id hid))
    (fun id hid => Nat.lt_succ_of_lt (h.strings_lt id hid)) (lt_next_append h.fileTables_lt)
    (nodup_append_next h.fileTables_nodup h.fileTables_lt)
  intro f hf
  cases f with
  | own id =>
    rcases mem_append.mp hf with hf | hf
    · exact .inl hf
    · rw [mem_singleton.mp hf]
      exact .inr (update_self ..)
  | foreign n => exact .inl trivial

theorem addSymbol_since (p : Pool) (s : ℕ) (symbol : Symbol) : Since p (p.addSymbol s symbol).2 [] := by
  by_cases hnew : p.tables.symbolsByName (p.memory.text s) = none
  · rw [addSymbol, if_pos hnew]
    have hgrows := Grows.insertNew (a := p.symbols) hnew (s, symbol)
    exact { Since.refl p with
      symbolsAfter := prefix_append _ _
      symbols := by
        show Grows p.symbols ⟨_, (p.tables.symbolsAfterCheckpoint ++ [s]).map p.memory.text⟩
        rw [map_append]
        exact hgrows }
  · rw [addSymbol, if_neg hnew]
    exact .refl p

theorem Sound.addSymbol (h : Sound p) {s : ℕ} {symbol : Symbol} (hs : s ∈ p.tables.strings)
    (hname : 0 ∉ p.memory.text s) (hlive : symbol.descriptor.Live p.tables) :
    Sound (p.addSymbol s symbol).2 := by
  by_cases hnew : p.tables.symbolsByName (p.memory.text s) = none
  · rw [Pool.addSymbol, if_pos hnew]
    exact { h with
      symbols := by
        intro name s' symbol' hfind
        by_cases hkey : name = p.memory.text s
        · rw [hkey] at hfind
          simp only [update_self, some.injEq, Prod.mk.injEq] at hfind
          obtain ⟨rfl, rfl⟩ := hfind
          exact ⟨hs, hlive⟩
        · simp only [update_of_ne hkey] at hfind
          exact h.symbols name s' symbol' hfind
      pendingSymbols := by
        intro s' hs'
        rcases mem_append.mp hs' with hs' | hs'
        · exact h.pendingSymbols s' hs'
        · rw [mem_singleton.mp hs']
          exact hs
      symbolNames := by
        intro s' hs'
        rcases mem_append.mp hs' with hs' | hs'
        · exact h.symbolNames s' hs'
        · rw [mem_singleton.mp hs']
          exact hname }
  · rw [Pool.addSymbol, if_neg hnew]
    exact h

theorem addFile_since (p : Pool) (s : ℕ) (file : DescriptorPtr) : Since p (p.addFile s file).2 [] := by
  by_cases hnew : p.tables.filesByName (p.memory.text s) = none
  · rw [addFile, if_pos hnew]
    have hgrows := Grows.insertNew (a := p.files) hnew (s, file)
    exact { Since.refl p with
      filesAfter := prefix_append _ _
      files := by
        show Grows p.files ⟨_, (p.tables.filesAfterCheckpoint ++ [s]).map p.memory.text⟩
        rw [map_append]
        exact hgrows }
  · rw [addFile, if_neg hnew]
    exact .refl p

theorem Sound.addFile (h : Sound p) {s : ℕ} {file : DescriptorPtr} (hs : s ∈ p.tables.strings)
    (hname : 0 ∉ p.memory.text s) (hlive : file.Live p.tables) : Sound (p.addFile s file).2 := by
  by_cases hnew : p.tables.filesByName (p.memory.text s) = none
  · rw [Pool.addFile, if_pos hnew]
    exact { h with
      files := by
        intro name s' file' hfind
        by_cases hkey : name = p.memory.text s
        · rw [hkey] at hfind
          simp only [update_self, some.injEq, Prod.mk.injEq] at hfind
          obtain ⟨rfl, rfl⟩ := hfind
          exact ⟨hs, hlive⟩
        · simp only [update_of_ne hkey] at hfind
          exact h.files name s' file' hfind
      pendingFiles := by
        intro s' hs'
        rcases mem_append.mp hs' with hs' | hs'
        · exact h.pendingFiles s' hs'
        · rw [mem_singleton.mp hs']
          exact hs
      fileNames := by
        intro s' hs'
        rcases mem_append.mp hs' with hs' | hs'
        · exact h.fileNames s' hs'
        · rw [mem_singleton.mp hs']
          exact hname }
  · rw [Pool.addFile, if_neg hnew]
    exact h

theorem addExtension_since (p : Pool) (containingType : DescriptorPtr) (number : ℤ)
    (field : DescriptorPtr) : Since p (p.addExtension containingType number field).2 [] := by
  by_cases hnew : p.tables.extensions (containingType, number) = none
  · rw [addExtension, if_pos hnew]
    have hgrows := Grows.insertNew (a := p.extensions) hnew field
    exact { Since.refl p with
      extensions := hgrows }
  · rw [addExtension, if_neg hnew]
    exact .refl p

theorem Sound.addExtension (h : Sound p) {containingType field : DescriptorPtr} (number : ℤ)
    (htype : containingType.Live p.tables) (hlive : field.Live p.tables) :
    Sound (p.addExtension containingType number field).2 := by
  by_cases hnew : p.tables.extensions (containingType, number) = none
  · rw [Pool.addExtension, if_pos hnew]
    exact { h with
      extensions := by
        intro key field' hfind
        by_cases hkey : key = (containingType, number)
        · rw [hkey] at hfind ⊢
          simp only [update_self, some.injEq] at hfind
          rw [← hfind]
          exact ⟨htype, hlive⟩
        · simp only [update_of_ne hkey] at hfind
          exact h.extensions key field' hfind }
  · rw [Pool.addExtension, if_neg hnew]
    exact h

theorem Since.addEnumValueByNumber (h : Since b p created) {id : ℕ}
    (hnew : ¬ (FileTablesPtr.own id).Live b.tables) (type : DescriptorPtr) (number : ℤ)
    (value : DescriptorPtr) : Since b (p.addEnumValueByNumber id type number value).2 created := by
  rw [Pool.addEnumValueByNumber]
  split
  · have hother : ∀ f : FileTablesPtr, f.Live b.tables → ∀ t : FileDescriptorTables,
        (p.memory.setFileTables (.own id) t).fileTables f = p.memory.fileTables f := by
      intro f hf t
      apply update_of_ne
      rintro rfl
      exact hnew hf
    exact { h with
      enumValues_eq := fun f hf => by rw [hother f hf]; exact h.enumValues_eq f hf
      unknown_le := fun f hf => by rw [hother f hf]; exact h.unknown_le f hf
      unknown_eq := fun f hf => by rw [hother f hf]; exact h.unknown_eq f hf
      created := by
        intro f hf
        obtain ⟨hlive, key, id', hkey, hid⟩ := h.created f hf
        refine ⟨hlive, key, id', ?_, hid⟩
        by_cases hsame : f = .own id
        · rw [hsame] at hkey ⊢
          simp only [Memory.setFileTables, update_self]
          exact hkey
        · simp only [Memory.setFileTables, update_of_ne hsame]
          exact hkey }
  · exact h

theorem Sound.addEnumValueByNumber (h : Sound p) (id : ℕ) {type value : DescriptorPtr}
    (number : ℤ) (htype : type.Live p.tables) (hlive : value.Live p.tables) :
    Sound (p.addEnumValueByNumber id type number value).2 := by
  rw [Pool.addEnumValueByNumber]
  split
  · exact { h with
      enumValues := by
        intro f hf key value' hfind
        by_cases hsame : f = .own id
        · rw [hsame] at hf hfind
          simp only [Memory.setFileTables, update_self] at hfind
          by_cases hkey : key = (type, number)
          · rw [hkey] at hfind ⊢
            simp only [update_self, some.injEq] at hfind
            rw [← hfind]
            exact ⟨htype, hlive⟩
          · rw [update_of_ne hkey] at hfind
            exact h.enumValues _ hf key value' hfind
        · simp only [Memory.setFileTables, update_of_ne hsame] at hfind
          exact h.enumValues f hf key value' hfind
      unknownEnumValues := by
        intro f hf key value' hfind
        by_cases hsame : f = .own id
        · rw [hsame] at hf hfind
          simp only [Memory.setFileTables, update_self] at hfind
          exact h.unknownEnumValues _ hf key value' hfind
        · simp only [Memory.setFileTables, update_of_ne hsame] at hfind
          exact h.unknownEnumValues f hf key value' hfind }
  · exact h

/-! ## Unknown enum values -/

/-- The allocations for a new value: the descriptor and its two names. -/
def allocateValue (p : Pool) (parent : EnumDescriptor) (number : ℤ) : Pool :=
  let enumValueName := unknownValueName parent.name number
  ((p.allocate.2.allocateString enumValueName).2.allocateString
    (parent.fullName ++ ".".toUTF8.toList ++ enumValueName)).2

theorem Sound.allocateValue (h : Sound p) (parent : EnumDescriptor) (number : ℤ) :
    Sound (p.allocateValue parent number) :=
  (h.allocate.allocateString _).allocateString _

theorem Sound.allocateValue_since (h : Sound p) (parent : EnumDescriptor) (number : ℤ) :
    Since p (p.allocateValue parent number) [] :=
  ((p.allocate_since).trans (h.allocate.allocateString_since _)).trans
    ((h.allocate.allocateString _).allocateString_since _)

/-- The value that was created, and the tables that know it. -/
structure Created (p q : Pool) (f : FileTablesPtr) (parent : EnumDescriptor) (number : ℤ) :
    Prop where
  tables_eq : q.tables = (p.allocateValue parent number).tables
  next_eq : q.memory.next = (p.allocateValue parent number).memory.next
  text_eq : q.memory.text = (p.allocateValue parent number).memory.text
  enumValue_eq : q.memory.enumValue = update (p.allocateValue parent number).memory.enumValue
    p.memory.next (some ⟨p.memory.next + 1, p.memory.next + 2, number, parent.self⟩)
  enumValues_eq : ∀ g, (q.memory.fileTables g).enumValuesByNumber =
    (p.memory.fileTables g).enumValuesByNumber
  unknown_eq : ∀ g, (q.memory.fileTables g).unknownEnumValuesByNumber =
    if g = f then update (p.memory.fileTables f).unknownEnumValuesByNumber (parent.self, number)
      (some (.own p.memory.next 0))
    else (p.memory.fileTables g).unknownEnumValuesByNumber

theorem createValue_created (p : Pool) (f : FileTablesPtr) (parent : EnumDescriptor)
    (number : ℤ) : Created p (p.createValue f parent number).2 f parent number where
  tables_eq := rfl
  next_eq := rfl
  text_eq := rfl
  enumValue_eq := rfl
  enumValues_eq g := by
    by_cases hsame : g = f
    · rw [hsame]
      simp [createValue, Memory.setFileTables, Memory.setEnumValue, Pool.allocateString, allocate]
    · simp [createValue, Memory.setFileTables, Memory.setEnumValue, Pool.allocateString, allocate,
        update_of_ne hsame]
  unknown_eq g := by
    by_cases hsame : g = f
    · rw [hsame]
      simp [createValue, Memory.setFileTables, Memory.setEnumValue, Pool.allocateString, allocate]
    · simp [createValue, Memory.setFileTables, Memory.setEnumValue, Pool.allocateString, allocate, hsame]

section
variable {f : FileTablesPtr} {parent : EnumDescriptor} {number : ℤ}

theorem Created.since (h : Created p q f parent number) (hsound : Sound p) (hf : f.Live p.tables)
    (hnew : (p.memory.fileTables f).unknownEnumValuesByNumber (parent.self, number) = none) :
    Since p q [f] := by
  have hsince := hsound.allocateValue_since parent number
  have hsymbols : q.symbols = (p.allocateValue parent number).symbols := by
    rw [symbols, symbols, h.tables_eq, h.text_eq]
  have hfiles : q.files = (p.allocateValue parent number).files := by
    rw [files, files, h.tables_eq, h.text_eq]
  have hextensions : q.extensions = (p.allocateValue parent number).extensions := by
    rw [extensions, extensions, h.tables_eq]
  exact {
    allocations := h.tables_eq ▸ hsince.allocations
    strings := h.tables_eq ▸ hsince.strings
    messages := h.tables_eq ▸ hsince.messages
    onceDynamics := h.tables_eq ▸ hsince.onceDynamics
    fileTables := h.tables_eq ▸ hsince.fileTables
    symbolsAfter := h.tables_eq ▸ hsince.symbolsAfter
    filesAfter := h.tables_eq ▸ hsince.filesAfter
    symbols := hsymbols ▸ hsince.symbols
    files := hfiles ▸ hsince.files
    extensions := hextensions ▸ hsince.extensions
    next_le := h.next_eq ▸ hsince.next_le
    text_eq := h.text_eq ▸ hsince.text_eq
    enumValue_eq := by
      intro id hid
      rw [h.enumValue_eq, update_of_ne (ne_of_lt hid), hsince.enumValue_eq id hid]
    enumValues_eq := fun g _ => h.enumValues_eq g
    unknown_le := by
      intro g _ key value hvalue
      rw [h.unknown_eq]
      split
      case isTrue hsame =>
        rw [hsame] at hvalue
        rw [update_of_ne]
        · exact hvalue
        · rintro rfl
          rw [hnew] at hvalue
          exact absurd hvalue.symm (some_ne_none _)
      case isFalse => exact hvalue
    unknown_eq := by
      intro g _ hg
      rw [h.unknown_eq, if_neg (mt mem_singleton.mpr hg)]
    created := by
      intro g hg
      rw [mem_singleton.mp hg]
      refine ⟨?_, (parent.self, number), p.memory.next, ?_, le_rfl⟩
      · rw [h.tables_eq]
        exact hf.mono hsince.fileTables
      · rw [h.unknown_eq, if_pos rfl, update_self] }

theorem Created.sound (h : Created p q f parent number) (hsound : Sound p)
    (hq : Since p q [f]) (hparent : parent.self.Live p.tables) : Sound q := by
  have hall := hsound.allocateValue parent number
  exact {
    symbols := by rw [h.tables_eq]; exact hall.symbols
    files := by rw [h.tables_eq]; exact hall.files
    extensions := by rw [h.tables_eq]; exact hall.extensions
    pendingSymbols := by rw [h.tables_eq]; exact hall.pendingSymbols
    pendingFiles := by rw [h.tables_eq]; exact hall.pendingFiles
    enumValues := by
      intro g hg key value hfind
      rw [h.enumValues_eq] at hfind
      rw [h.tables_eq] at hg ⊢
      exact hall.enumValues g hg key value hfind
    unknownEnumValues := by
      intro g hg key value hfind
      have hlive : g.Live p.tables := by
        rw [h.tables_eq] at hg
        cases g <;> exact hg
      rw [h.unknown_eq] at hfind
      by_cases hcreated : g = f ∧ key = (parent.self, number)
      · obtain ⟨rfl, rfl⟩ := hcreated
        simp only [if_true, update_self, some.injEq] at hfind
        subst hfind
        refine ⟨hparent.mono hq.allocations, ?_, ?_⟩
        · rw [h.tables_eq]
          exact mem_append_right _ (mem_singleton_self _)
        · intro value hvalue
          rw [h.enumValue_eq, update_self, some.injEq] at hvalue
          subst hvalue
          rw [h.tables_eq]
          exact ⟨mem_append_left _ (mem_append_right _ (mem_singleton_self _)),
            mem_append_right _ (mem_singleton_self _)⟩
      · have hvalue : (p.memory.fileTables g).unknownEnumValuesByNumber key = some value := by
          by_cases hsame : g = f
          · rw [if_pos hsame, update_of_ne (fun hkey => hcreated ⟨hsame, hkey⟩)] at hfind
            rw [hsame]
            exact hfind
          · rwa [if_neg hsame] at hfind
        obtain ⟨hkey, hvalueLive, hnames⟩ := hsound.unknownEnumValues g hlive key value hvalue
        exact ⟨hkey.mono hq.allocations, hvalueLive.mono hq.allocations, hq.hasNames hsound hvalueLive hnames⟩
    allocations_lt := by rw [h.tables_eq, h.next_eq]; exact hall.allocations_lt
    strings_lt := by rw [h.tables_eq, h.next_eq]; exact hall.strings_lt
    fileTables_lt := by rw [h.tables_eq, h.next_eq]; exact hall.fileTables_lt
    fileTables_nodup := by rw [h.tables_eq]; exact hall.fileTables_nodup
    symbolNames := by rw [h.tables_eq, h.text_eq]; exact hall.symbolNames
    fileNames := by rw [h.tables_eq, h.text_eq]; exact hall.fileNames }

theorem findEnumValue_of_known (h : p.createsValue f parent number = false) :
    (p.findEnumValueByNumberCreatingIfUnknown f parent number).2 = p := by
  rw [findEnumValueByNumberCreatingIfUnknown]
  rw [createsValue] at h
  split
  · rfl
  · split
    · rfl
    · simp_all

theorem findEnumValue_of_unknown (h : p.createsValue f parent number = true) :
    p.findEnumValueByNumberCreatingIfUnknown f parent number = p.createValue f parent number ∧
      (p.memory.fileTables f).unknownEnumValuesByNumber (parent.self, number) = none := by
  rw [createsValue, Bool.and_eq_true, isNone_iff_eq_none, isNone_iff_eq_none] at h
  rw [findEnumValueByNumberCreatingIfUnknown, h.1, h.2]
  exact ⟨rfl, rfl⟩

end

/-! ## Checkpoints -/

theorem take_of_prefix {α : Type} {l l' : List α} (h : l <+: l') : l'.take l.length = l :=
  (prefix_iff_eq_take.mp h).symm

theorem map_cStr_eq (h : ∀ s ∈ ids, 0 ∉ p.memory.text s) (n : ℕ) :
    ((ids.drop n).map fun s => cStr (p.memory.text s)) = (ids.map p.memory.text).drop n := by
  rw [← map_drop]
  exact map_congr_left fun s hs => cStr_eq (h s (mem_of_mem_drop hs))

section
variable (h : Since b p created)
include h

/-- **A rollback** brings back the tables of the checkpoint. -/
theorem Since.rollback_eq (hsound : Sound p)
    (hlast : p.tables.checkpoints = b.tables.checkpoints ++ [.of b.tables]) :
    p.rollbackToLastCheckpoint = ⟨b.tables, p.memory⟩ := by
  have hsymbols := h.symbols.undo
  have hfiles := h.files.undo
  have hextensions := h.extensions.undo
  simp only [Pool.symbols, Pool.files, Pool.extensions, length_map]
    at hsymbols hfiles hextensions
  have hcheckpoints : p.tables.checkpoints.dropLast = b.tables.checkpoints := by
    rw [hlast, dropLast_concat]
  have hextensionsAfter :
      b.tables.extensionsAfterCheckpoint <+: p.tables.extensionsAfterCheckpoint :=
    h.extensions.journal_isPrefix
  rw [rollbackToLastCheckpoint, hlast, List.getLast?_concat]
  simp only [CheckPoint.of, hcheckpoints, map_cStr_eq hsound.symbolNames,
    map_cStr_eq hsound.fileNames, hsymbols, hfiles, hextensions,
    take_of_prefix h.allocations, take_of_prefix h.strings, take_of_prefix h.messages,
    take_of_prefix h.onceDynamics, take_of_prefix h.fileTables, take_of_prefix h.symbolsAfter,
    take_of_prefix h.filesAfter, take_of_prefix hextensionsAfter]

theorem Since.rolledBack (hb : Sound b)
    (hclean : ∀ f ∈ created, ¬ f.Live b.tables) : Since b ⟨b.tables, p.memory⟩ [] := by
  have hsymbols : Pool.symbols ⟨b.tables, p.memory⟩ = b.symbols := hb.symbols_eq rfl rfl h.text_eq
  have hfiles : Pool.files ⟨b.tables, p.memory⟩ = b.files := hb.files_eq rfl rfl h.text_eq
  exact { Since.refl b with
    symbols := by rw [hsymbols]; exact .refl _
    files := by rw [hfiles]; exact .refl _
    next_le := h.next_le
    text_eq := h.text_eq
    enumValue_eq := h.enumValue_eq
    enumValues_eq := h.enumValues_eq
    unknown_le := h.unknown_le
    unknown_eq := fun f hf _ => h.unknown_eq f hf fun hmem => hclean f hmem hf
    created := fun f hf => absurd hf not_mem_nil }

theorem Since.rolledBack_sound (hb : Sound b)
    (hclean : ∀ f ∈ created, ¬ f.Live b.tables) : Sound ⟨b.tables, p.memory⟩ :=
  hb.grow (h.rolledBack hb hclean) ⟨rfl, rfl, rfl, rfl, rfl⟩
    (fun id hid => lt_of_lt_of_le (hb.allocations_lt id hid) h.next_le)
    (fun id hid => lt_of_lt_of_le (hb.strings_lt id hid) h.next_le)
    (fun id hid => lt_of_lt_of_le (hb.fileTables_lt id hid) h.next_le) hb.fileTables_nodup
    (fun _ => .inl)

theorem Since.dangling (hb : Sound b) {f : FileTablesPtr}
    (hf : f ∈ created) (hlive : f.Live b.tables) : ¬ NoDangling ⟨b.tables, p.memory⟩ := by
  intro hnone
  obtain ⟨-, key, id, hkey, hid⟩ := h.created f hf
  have hvalue := (hnone.unknownEnumValues f hlive key _ hkey).2.1
  exact lt_irrefl _ (lt_of_lt_of_le (hb.allocations_lt id hvalue) hid)

theorem Since.withCheckpoints (checkpoints : List CheckPoint) :
    Since b { p with tables.checkpoints := checkpoints } created :=
  { h with }

end

theorem Sound.withCheckpoints (h : Sound p) (checkpoints : List CheckPoint) :
    Sound { p with tables.checkpoints := checkpoints } :=
  { h with }

theorem Sound.clearLastCheckpoint (h : Sound p) : Sound p.clearLastCheckpoint := by
  rw [Pool.clearLastCheckpoint]
  simp only
  split
  · exact { h with
      pendingSymbols := fun s hs => absurd hs not_mem_nil
      pendingFiles := fun s hs => absurd hs not_mem_nil
      symbolNames := fun s hs => absurd hs not_mem_nil
      fileNames := fun s hs => absurd hs not_mem_nil }
  · exact h.withCheckpoints _

end Pool

/-! ## Runs -/

open Pool

/-- The pool, and for each open checkpoint, the last one first, the pool that it was added to
and the file tables that an unknown value was added to since. -/
structure Watch where
  pool : Pool
  opened : List (Pool × List FileTablesPtr)

def Watch.record (w : Watch) (f : FileTablesPtr) : List (Pool × List FileTablesPtr) :=
  match w.opened with
  | [] => []
  | (b, created) :: rest => (b, f :: created) :: rest

/-- A step.  What was added since a checkpoint that is cleared was added since the one before. -/
def Watch.step (w : Watch) (step : Step) : Watch where
  pool := w.pool.step step
  opened :=
    match step with
    | .addCheckpoint => (w.pool, []) :: w.opened
    | .clearLastCheckpoint =>
      match w.opened with
      | (_, created) :: (b, created') :: rest => (b, created ++ created') :: rest
      | _ => []
    | .rollbackToLastCheckpoint => w.opened.tail
    | .findEnumValueByNumberCreatingIfUnknown tables parent number =>
      if w.pool.createsValue tables parent number then w.record tables else w.opened
    | _ => w.opened

/-- A rollback may come: no unknown value was added since the checkpoint to the tables of a
file that were there then, or that are of another pool. -/
def Clean (w : Watch) : Prop :=
  ∀ b created rest, w.opened = (b, created) :: rest → ∀ f ∈ created, ¬ f.Live b.tables

/-- The same allocations, and the same contents of the three maps. -/
structure SameContents (t t' : Tables) : Prop where
  allocations : t'.allocations = t.allocations
  strings : t'.strings = t.strings
  messages : t'.messages = t.messages
  onceDynamics : t'.onceDynamics = t.onceDynamics
  fileTables : t'.fileTables = t.fileTables
  symbolsByName : t'.symbolsByName = t.symbolsByName
  filesByName : t'.filesByName = t.filesByName
  extensions : t'.extensions = t.extensions

/-- What a call should do: a rollback restores the tables of the checkpoint, a cleared
checkpoint keeps everything, and no table refers to what was removed. -/
structure LeavesNoTrace (w : Watch) (step : Step) : Prop where
  restored : step = .rollbackToLastCheckpoint → ∃ b created rest,
    w.opened = (b, created) :: rest ∧ SameContents b.tables (w.step step).pool.tables
  kept : step = .clearLastCheckpoint →
    SameContents w.pool.tables (w.step step).pool.tables ∧
      (w.step step).pool.memory = w.pool.memory
  noDangling : NoDangling (w.step step).pool

/-- The runs from the empty tables, with the states and the calls, the last one first. -/
inductive Run (known : ℕ → ℕ × ℤ → Option ℕ) : List (Watch × Step) → Watch → Prop
  | start : Run known [] ⟨.start known, []⟩
  | step {trace : List (Watch × Step)} {w : Watch} (run : Run known trace w) (step : Step)
      (allowed : Allowed w.pool step) : Run known ((w, step) :: trace) (w.step step)

/-- Each open checkpoint saves the pool that it was added to, and the pool arose from it. -/
def Opened : Pool → List (Pool × List FileTablesPtr) → Prop
  | p, [] => p.tables.checkpoints = []
  | p, (b, created) :: rest =>
    p.tables.checkpoints = b.tables.checkpoints ++ [.of b.tables] ∧ Since b p created ∧
      Sound b ∧ Opened b rest

variable {p q : Pool} {stack : List (Pool × List FileTablesPtr)} {w : Watch}

theorem Opened.grow (h : Opened p stack) (hpq : Since p q [])
    (hsame : q.tables.checkpoints = p.tables.checkpoints) : Opened q stack := by
  cases stack with
  | nil => exact hsame.trans h
  | cons top rest =>
    obtain ⟨b, created⟩ := top
    obtain ⟨hlast, hsince, hsound, hrest⟩ := h
    exact ⟨hsame.trans hlast, hsince.trans hpq, hsound, hrest⟩

/-- The state and its record fit. -/
structure Fits (w : Watch) : Prop where
  sound : Sound w.pool
  opened : Opened w.pool w.opened

theorem fits_start (known : ℕ → ℕ × ℤ → Option ℕ) : Fits ⟨.start known, []⟩ where
  sound := {
    symbols := fun _ _ _ h => absurd h.symm (some_ne_none _)
    files := fun _ _ _ h => absurd h.symm (some_ne_none _)
    extensions := fun _ _ h => absurd h.symm (some_ne_none _)
    pendingSymbols := fun _ h => absurd h not_mem_nil
    pendingFiles := fun _ h => absurd h not_mem_nil
    enumValues := by
      intro f hf key value hfind
      cases f with
      | own id => exact absurd hfind.symm (some_ne_none _)
      | foreign n =>
        obtain ⟨parent, number⟩ := key
        cases parent with
        | own id index => exact absurd hfind.symm (some_ne_none _)
        | foreign parent =>
          obtain ⟨value', -, rfl⟩ := map_eq_some_iff.mp hfind
          exact ⟨trivial, trivial⟩
    unknownEnumValues := by
      intro f hf key value hfind
      cases f <;> exact absurd hfind.symm (some_ne_none _)
    allocations_lt := fun _ h => absurd h not_mem_nil
    strings_lt := fun _ h => absurd h not_mem_nil
    fileTables_lt := fun _ h => absurd h not_mem_nil
    fileTables_nodup := nodup_nil
    symbolNames := fun _ h => absurd h not_mem_nil
    fileNames := fun _ h => absurd h not_mem_nil }
  opened := rfl

theorem Fits.grow (h : Fits w) (step : Step) (hopened : (w.step step).opened = w.opened)
    (hsince : Since w.pool (w.pool.step step) []) (hsound : Sound (w.pool.step step))
    (hsame : (w.pool.step step).tables.checkpoints = w.pool.tables.checkpoints) : Fits (w.step step) :=
  ⟨hsound, hopened ▸ h.opened.grow hsince hsame⟩

theorem addSymbol_checkpoints (p : Pool) (s : ℕ) (symbol : Symbol) :
    (p.addSymbol s symbol).2.tables.checkpoints = p.tables.checkpoints := by
  rw [addSymbol]
  split <;> rfl

theorem addFile_checkpoints (p : Pool) (s : ℕ) (file : DescriptorPtr) :
    (p.addFile s file).2.tables.checkpoints = p.tables.checkpoints := by
  rw [addFile]
  split <;> rfl

theorem addExtension_checkpoints (p : Pool) (containingType : DescriptorPtr) (number : ℤ)
    (field : DescriptorPtr) :
    (p.addExtension containingType number field).2.tables.checkpoints = p.tables.checkpoints := by
  rw [addExtension]
  split <;> rfl

theorem addEnumValueByNumber_checkpoints (p : Pool) (id : ℕ) (type : DescriptorPtr) (number : ℤ)
    (value : DescriptorPtr) :
    (p.addEnumValueByNumber id type number value).2.tables.checkpoints = p.tables.checkpoints := by
  rw [addEnumValueByNumber]
  split <;> rfl

theorem Fits.addCheckpoint (h : Fits w) : Fits (w.step .addCheckpoint) where
  sound := h.sound.withCheckpoints _
  opened := ⟨rfl, (Since.refl _).withCheckpoints _, h.sound, h.opened⟩

theorem Opened.new (h : Opened p stack) (hsound : Sound p) {id : ℕ}
    (hid : id ∈ p.tables.fileTables.drop p.tables.fileTablesBefore) :
    ∀ b created rest, stack = (b, created) :: rest → ¬ (FileTablesPtr.own id).Live b.tables := by
  rintro b created rest rfl hlive
  obtain ⟨hlast, hsince, -, -⟩ := h
  obtain ⟨added, hadded⟩ := hsince.fileTables
  have hbefore : p.tables.fileTablesBefore = b.tables.fileTables.length := by
    rw [Tables.fileTablesBefore, hlast, List.getLast?_concat]
    rfl
  have hnodup := hsound.fileTables_nodup
  rw [hbefore, ← hadded, drop_left] at hid
  rw [← hadded, nodup_append] at hnodup
  exact hnodup.2.2 id hlive id hid rfl

theorem Fits.addEnumValueByNumber (h : Fits w) {id : ℕ} {type value : DescriptorPtr} {number : ℤ}
    (allowed : Allowed w.pool (.addEnumValueByNumber id type number value)) :
    Fits (w.step (.addEnumValueByNumber id type number value)) where
  sound := h.sound.addEnumValueByNumber id number allowed.2.1 allowed.2.2
  opened := by
    have hopened := h.opened
    have hnew := hopened.new h.sound allowed.1
    have hsame := addEnumValueByNumber_checkpoints w.pool id type number value
    show Opened (w.pool.addEnumValueByNumber id type number value).2 w.opened
    cases hstack : w.opened with
    | nil =>
      rw [hstack] at hopened
      exact hsame.trans hopened
    | cons top rest =>
      obtain ⟨b, created⟩ := top
      rw [hstack] at hopened
      obtain ⟨hlast, hsince, hsound, hrest⟩ := hopened
      exact ⟨hsame.trans hlast,
        hsince.addEnumValueByNumber (hnew b created rest hstack) type number value, hsound, hrest⟩

theorem Fits.findEnumValue (h : Fits w) {f : FileTablesPtr} {parent : EnumDescriptor} {number : ℤ}
    (allowed : Allowed w.pool (.findEnumValueByNumberCreatingIfUnknown f parent number)) :
    Fits (w.step (.findEnumValueByNumberCreatingIfUnknown f parent number)) := by
  cases hcreates : w.pool.createsValue f parent number with
  | false =>
    have hpool := findEnumValue_of_known hcreates
    exact h.grow _ (by simp [Watch.step, hcreates]) (by rw [Pool.step, hpool]; exact .refl _)
      (by rw [Pool.step, hpool]; exact h.sound) (by rw [Pool.step, hpool])
  | true =>
    obtain ⟨hfind, hnone⟩ := findEnumValue_of_unknown hcreates
    have hcreated := createValue_created w.pool f parent number
    have hsince := hcreated.since h.sound allowed.1 hnone
    have hsame : (w.pool.createValue f parent number).2.tables.checkpoints =
        w.pool.tables.checkpoints := by
      rw [hcreated.tables_eq]
      rfl
    have hopened := h.opened
    have hrecord : (w.step (.findEnumValueByNumberCreatingIfUnknown f parent number)).opened =
        w.record f := by simp [Watch.step, hcreates]
    constructor
    · rw [Watch.step, Pool.step, hfind]
      exact hcreated.sound h.sound hsince allowed.2
    · rw [hrecord, Watch.step, Pool.step, hfind, Watch.record]
      cases hstack : w.opened with
      | nil =>
        rw [hstack] at hopened
        exact hsame.trans hopened
      | cons top rest =>
        obtain ⟨b, created⟩ := top
        rw [hstack] at hopened
        obtain ⟨hlast, hb, hsound, hrest⟩ := hopened
        exact ⟨hsame.trans hlast, hb.trans hsince, hsound, hrest⟩

theorem clearLastCheckpoint_eq (p : Pool) : SameContents p.tables p.clearLastCheckpoint.tables ∧
      p.clearLastCheckpoint.memory = p.memory ∧
      p.clearLastCheckpoint.tables.checkpoints = p.tables.checkpoints.dropLast := by
  rw [clearLastCheckpoint]
  simp only
  split
  · exact ⟨⟨rfl, rfl, rfl, rfl, rfl, rfl, rfl, rfl⟩, rfl, rfl⟩
  · exact ⟨⟨rfl, rfl, rfl, rfl, rfl, rfl, rfl, rfl⟩, rfl, rfl⟩

section
variable (h : Fits w)
include h

theorem Fits.clearLastCheckpoint (allowed : Allowed w.pool .clearLastCheckpoint) :
    Fits (w.step .clearLastCheckpoint) where
  sound := h.sound.clearLastCheckpoint
  opened := by
    have hopened := h.opened
    show Opened w.pool.clearLastCheckpoint (w.step .clearLastCheckpoint).opened
    rw [Watch.step]
    simp only
    cases hstack : w.opened with
    | nil =>
      rw [hstack] at hopened
      exact absurd hopened allowed
    | cons top rest =>
      obtain ⟨b, created⟩ := top
      rw [hstack] at hopened
      obtain ⟨hlast, hsince, -, hrest⟩ := hopened
      have hdrop : w.pool.tables.checkpoints.dropLast = b.tables.checkpoints := by
        rw [hlast, dropLast_concat]
      cases rest with
      | nil =>
        show w.pool.clearLastCheckpoint.tables.checkpoints = []
        rw [(clearLastCheckpoint_eq w.pool).2.2, hdrop]
        exact hrest
      | cons top' rest =>
        obtain ⟨b', created'⟩ := top'
        obtain ⟨hlast', hsince', hsound', hrest'⟩ := hrest
        have hclear : w.pool.clearLastCheckpoint =
            { w.pool with tables.checkpoints := b.tables.checkpoints } := by
          rw [Pool.clearLastCheckpoint, hdrop]
          exact if_neg (by rw [hlast']; exact concat_ne_nil _ _)
        rw [hclear]
        exact ⟨hlast', (hsince'.trans hsince).withCheckpoints _, hsound', hrest'⟩

theorem Fits.rollback {b : Pool} {created : List FileTablesPtr}
    {rest : List (Pool × List FileTablesPtr)} (hstack : w.opened = (b, created) :: rest) :
    (w.step .rollbackToLastCheckpoint).pool = ⟨b.tables, w.pool.memory⟩ ∧
      Since b w.pool created ∧ Sound b ∧ Opened b rest := by
  have hopened := h.opened
  rw [hstack] at hopened
  obtain ⟨hlast, hsince, hsound, hrest⟩ := hopened
  exact ⟨hsince.rollback_eq h.sound hlast, hsince, hsound, hrest⟩

theorem Fits.exists_opened (hsome : w.pool.tables.checkpoints ≠ []) :
    ∃ b created rest, w.opened = (b, created) :: rest := by
  have hopened := h.opened
  cases hstack : w.opened with
  | nil =>
    rw [hstack] at hopened
    exact absurd hopened hsome
  | cons top rest => exact ⟨top.1, top.2, rest, rfl⟩

theorem Fits.rollbackToLastCheckpoint (allowed : Allowed w.pool .rollbackToLastCheckpoint) (clean : Clean w) :
    Fits (w.step .rollbackToLastCheckpoint) := by
  obtain ⟨b, created, rest, hstack⟩ := h.exists_opened allowed
  obtain ⟨hpool, hsince, hsound, hrest⟩ := h.rollback hstack
  have hclean := clean b created rest hstack
  constructor
  · rw [hpool]
    exact hsince.rolledBack_sound hsound hclean
  · have htail : (w.step .rollbackToLastCheckpoint).opened = rest := by
      simp [Watch.step, hstack]
    rw [hpool, htail]
    exact hrest.grow (hsince.rolledBack hsound hclean) rfl

/-- **A step.**  The state and its record fit again, if a rollback comes when it may. -/
theorem Fits.step {step : Step} (allowed : Allowed w.pool step)
    (clean : step = .rollbackToLastCheckpoint → Clean w) : Fits (w.step step) := by
  cases step with
  | addCheckpoint => exact h.addCheckpoint
  | clearLastCheckpoint => exact h.clearLastCheckpoint allowed
  | rollbackToLastCheckpoint => exact h.rollbackToLastCheckpoint allowed (clean rfl)
  | addSymbol s symbol =>
    exact h.grow _ rfl (addSymbol_since _ _ _)
      (h.sound.addSymbol allowed.1 allowed.2.1 allowed.2.2) (addSymbol_checkpoints _ _ _)
  | addFile s file =>
    exact h.grow _ rfl (addFile_since _ _ _)
      (h.sound.addFile allowed.1 allowed.2.1 allowed.2.2) (addFile_checkpoints _ _ _)
  | addExtension containingType number field =>
    exact h.grow _ rfl (addExtension_since _ _ _ _)
      (h.sound.addExtension number allowed.1 allowed.2) (addExtension_checkpoints _ _ _ _)
  | addEnumValueByNumber id type number value => exact h.addEnumValueByNumber allowed
  | allocateBytes size =>
    by_cases hsize : size = 0
    · exact h.grow _ rfl (by rw [Pool.step, allocateBytes, if_pos hsize]; exact .refl _)
        (by rw [Pool.step, allocateBytes, if_pos hsize]; exact h.sound)
        (by rw [Pool.step, allocateBytes, if_pos hsize])
    · exact h.grow _ rfl (by rw [Pool.step, allocateBytes, if_neg hsize]; exact allocate_since _)
        (by rw [Pool.step, allocateBytes, if_neg hsize]; exact h.sound.allocate)
        (by rw [Pool.step, allocateBytes, if_neg hsize]; rfl)
  | allocateString value =>
    exact h.grow _ rfl (h.sound.allocateString_since value) (h.sound.allocateString value) rfl
  | allocateOnceDynamic =>
    exact h.grow _ rfl (allocateOnceDynamic_since _) h.sound.allocateOnceDynamic rfl
  | allocateMessage => exact h.grow _ rfl (allocateMessage_since _) h.sound.allocateMessage rfl
  | allocateFileTables =>
    exact h.grow _ rfl h.sound.allocateFileTables_since h.sound.allocateFileTables rfl
  | findEnumValueByNumberCreatingIfUnknown f parent number => exact h.findEnumValue allowed

theorem Fits.leavesNoTrace {step : Step} (allowed : Allowed w.pool step)
    (clean : step = .rollbackToLastCheckpoint → Clean w) : LeavesNoTrace w step where
  restored := by
    rintro rfl
    obtain ⟨b, created, rest, hstack⟩ := h.exists_opened allowed
    refine ⟨b, created, rest, hstack, ?_⟩
    rw [(h.rollback hstack).1]
    exact ⟨rfl, rfl, rfl, rfl, rfl, rfl, rfl, rfl⟩
  kept := by
    rintro rfl
    exact ⟨(clearLastCheckpoint_eq w.pool).1, (clearLastCheckpoint_eq w.pool).2.1⟩
  noDangling := (h.step allowed clean).sound.toNoDangling

theorem Fits.clean (hleaves : LeavesNoTrace w .rollbackToLastCheckpoint) : Clean w := by
  intro b created rest hstack f hf hlive
  obtain ⟨hpool, hsince, hsound, -⟩ := h.rollback hstack
  have hnone := hleaves.noDangling
  rw [hpool] at hnone
  exact hsince.dangling hsound hf hlive hnone

end

theorem Run.fits {known : ℕ → ℕ × ℤ → Option ℕ} {trace : List (Watch × Step)} {w : Watch}
    (h : Run known trace w) (clean : ∀ p ∈ trace, p.2 = .rollbackToLastCheckpoint → Clean p.1) :
    Fits w ∧ ∀ p ∈ trace, LeavesNoTrace p.1 p.2 := by
  induction h with
  | start => exact ⟨fits_start known, fun p hp => absurd hp not_mem_nil⟩
  | @step trace w run step allowed ih =>
    obtain ⟨hfits, hleaves⟩ := ih fun p hp => clean p (mem_cons_of_mem _ hp)
    have hlast := clean (w, step) mem_cons_self
    refine ⟨hfits.step allowed hlast, ?_⟩
    intro p hp
    rcases mem_cons.mp hp with rfl | hp
    · exact hfits.leavesNoTrace allowed hlast
    · exact hleaves p hp

/-- **Failed builds leave no trace** in a run exactly when every rollback comes when it may. -/
theorem leavesNoTrace_iff {known : ℕ → ℕ × ℤ → Option ℕ} {trace : List (Watch × Step)} {w : Watch}
    (h : Run known trace w) :
    (∀ p ∈ trace, LeavesNoTrace p.1 p.2) ↔
      ∀ p ∈ trace, p.2 = .rollbackToLastCheckpoint → Clean p.1 := by
  constructor
  · intro hleaves
    induction h with
    | start => exact fun p hp => absurd hp not_mem_nil
    | @step trace w run step allowed ih =>
      have hclean := ih fun p hp => hleaves p (mem_cons_of_mem _ hp)
      have hlast := hleaves (w, step) mem_cons_self
      intro p hp hrollback
      rcases mem_cons.mp hp with rfl | hp
      · cases hrollback
        exact (run.fits hclean).1.clean hlast
      · exact hclean p hp hrollback
  · intro hclean
    exact (h.fits hclean).2

/-- A build that adds a file of the name `a`, and fails. -/
theorem leavesNoTrace_failed :
    ∃ trace w, Run (fun _ _ => none) trace w ∧ trace.length = 5 ∧
      ∀ p ∈ trace, LeavesNoTrace p.1 p.2 := by
  have run : Run (fun _ _ => none) _ _ := .start
  have run := run.step .addCheckpoint trivial
  have run := run.step (.allocateString [97]) trivial
  have run := run.step (.allocateBytes 1) trivial
  have run := run.step (.addFile 0 (.own 1 0)) (by decide)
  have run := run.step .rollbackToLastCheckpoint (by decide)
  refine ⟨_, _, run, rfl, (leavesNoTrace_iff run).mpr ?_⟩
  intro p hp hrollback b created rest hstack f hf
  simp only [mem_cons, not_mem_nil, or_false] at hp
  rcases hp with rfl | rfl | rfl | rfl | rfl
  · cases hstack
    exact absurd hf not_mem_nil
  all_goals cases hrollback

/-- The enum of a file that was built, with an unknown value while a later build fails. -/
theorem not_leavesNoTrace : ¬ ∀ known trace w, Run known trace w →
    ∀ p ∈ trace, LeavesNoTrace p.1 p.2 := by
  intro hall
  have run : Run (fun _ _ => none) _ _ := .start
  have run := run.step .addCheckpoint trivial
  have run := run.step .allocateFileTables trivial
  have run := run.step (.allocateBytes 1) trivial
  have run := run.step .clearLastCheckpoint (by decide)
  have run := run.step .addCheckpoint trivial
  have run := run.step
    (.findEnumValueByNumberCreatingIfUnknown (.own 0) ⟨.own 1 0, [69], [69]⟩ 7) (by decide)
  have run := run.step .rollbackToLastCheckpoint (by decide)
  have hleaves := hall _ _ _ run _ mem_cons_self
  have hvalue := hleaves.noDangling.unknownEnumValues (.own 0) (by decide) (.own 1 0, 7)
    (.own 2 0) (by decide)
  exact absurd hvalue.2.1 (by decide)

end Protoc.Descriptor
