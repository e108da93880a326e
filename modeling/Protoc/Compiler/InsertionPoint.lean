import Mathlib.Data.List.Forall2
import Mathlib.Data.List.TakeWhile
import Mathlib.Tactic.Ring

/-!
# Insertion points

A generator inserts text before the line of an insertion point, with the indentation of that line, and the
annotations of the inserted text are listed with those of the file.  `InsertShiftedInfo` passes over the text
once, so the newlines before the end of an inner annotation have been counted when the outer one is reached;
`UpdateMetadata` shifts all that is listed after the first annotation behind the position.

Offsets are natural numbers, and the metadata is what it is parsed to.
-/

namespace Protoc.Compiler.Insertion

open List

abbrev Text := List UInt8

def newline : UInt8 := 10

/-! ## From the source -/

/-- `GeneratedCodeInfo::Annotation` -/
structure Annotation where
  path : List ℤ
  sourceFile : Text
  first : ℕ
  last : ℕ
  deriving DecidableEq

/-- `set_begin(begin() + b)`, `set_end(end() + e)` -/
def Annotation.shift (b e : ℕ) (a : Annotation) : Annotation := { a with first := a.first + b, last := a.last + e }

/-- The inner loop of `InsertShiftedInfo`, for a number of steps: `insertion_offset` and `inner_indent`. -/
def scanIndents (content : Text) (first indentLength : ℕ) : ℕ → ℕ → ℕ → ℕ → ℕ × ℕ
  | 0, _, insertionOffset, innerIndent => (insertionOffset, innerIndent)
  | n + 1, pos, insertionOffset, innerIndent =>
    if content[pos]? = some newline then
      if first ≤ pos then scanIndents content first indentLength n (pos + 1) insertionOffset (innerIndent + indentLength)
      else scanIndents content first indentLength n (pos + 1) (insertionOffset + indentLength) innerIndent
    else scanIndents content first indentLength n (pos + 1) insertionOffset innerIndent

/-- The loop of `InsertShiftedInfo` over the annotations, with `pos` and `insertion_offset`. -/
def insertShifted (content : Text) (indentLength : ℕ) : List Annotation → ℕ → ℕ → List Annotation
  | [], _, _ => []
  | a :: rest, pos, insertionOffset =>
    -- `size() - 1` of an empty string is no bound
    let stop := if content = [] then a.last else min a.last (content.length - 1)
    let r := scanIndents content a.first indentLength (stop - pos) pos insertionOffset 0
    a.shift r.1 (r.1 + r.2) :: insertShifted content indentLength rest (max pos stop) (r.1 + r.2)

/-- `InsertShiftedInfo` -/
def insertShiftedInfo (content : Text) (insertionOffset indentLength : ℕ) (info : List Annotation) : List Annotation :=
  insertShifted content indentLength info 0 (insertionOffset + indentLength)

/-- The loop of `UpdateMetadata`, with `crossed_offset` and `to_add`. -/
def updateAnnotations (content : Text) (insertionOffset insertionLength indentLength : ℕ) (info : List Annotation) :
    List Annotation → Bool → ℕ → List Annotation
  | [], crossed, _ => if crossed then [] else insertShiftedInfo content insertionOffset indentLength info
  | a :: rest, crossed, toAdd =>
    if insertionOffset ≤ a.first ∧ crossed = false then
      insertShiftedInfo content insertionOffset indentLength info ++
        a.shift (toAdd + insertionLength) (toAdd + insertionLength) ::
          updateAnnotations content insertionOffset insertionLength indentLength info rest true (toAdd + insertionLength)
    else a.shift toAdd toAdd ::
      updateAnnotations content insertionOffset insertionLength indentLength info rest crossed toAdd

/-- The file `.pb.meta`. -/
inductive Metadata
  | missing
  | wire (annotations : List Annotation)
  | text (annotations : List Annotation)
  | invalid
  deriving DecidableEq

def Metadata.annotations : Metadata → List Annotation
  | .wire annotations | .text annotations => annotations
  | _ => []

/-- `UpdateMetadata` -/
def updateMetadata (content : Text) (insertionOffset insertionLength indentLength : ℕ) (info : List Annotation) :
    Metadata → Metadata
  | .missing =>
    if info = [] then .missing
    else .wire (updateAnnotations content insertionOffset insertionLength indentLength info [] false 0)
  | .wire l => .wire (updateAnnotations content insertionOffset insertionLength indentLength info l false 0)
  | .text l => .text (updateAnnotations content insertionOffset insertionLength indentLength info l false 0)
  | .invalid => .invalid

/-- `target->find(magic_string)` -/
def find (pattern target : Text) : Option ℕ :=
  (List.range (target.length + 1)).find? fun i => pattern.isPrefixOf (target.drop i)

/-- `@@protoc_insertion_point($0)` -/
def magicString (insertionPoint : Text) : Text :=
  [64, 64, 112, 114, 111, 116, 111, 99, 95, 105, 110, 115, 101, 114, 116, 105, 111, 110, 95, 112, 111, 105, 110, 116, 40] ++
    insertionPoint ++ [41]

/-- Where text is inserted: before an inline comment, or at the beginning of the line. -/
def insertionPosition (target : Text) (pos : ℕ) : ℕ :=
  if 3 < pos ∧ (target.drop (pos - 3)).take 2 = [47, 42] then pos - 3
  else pos + 1 - ((target.take (pos + 1)).reverse.takeWhile (· ≠ newline)).length

/-- `indent_` -/
def indentAt (target : Text) (pos : ℕ) : Text := (target.drop pos).takeWhile fun c => c = 32 ∨ c = 9

def endLine (data : Text) : Text := if data ≠ [] ∧ data.getLast? ≠ some newline then data ++ [newline] else data

/-- The loop that copies in the data, for at most a number of lines. -/
def copyLines (indent : Text) : ℕ → Text → Text
  | 0, _ => []
  | fuel + 1, data =>
    if data = [] then []
    else
      let lineLength := data.findIdx (· == newline) + 1
      indent ++ data.take lineLength ++ copyLines indent fuel (data.drop lineLength)

/-- A file of the directory, and its metadata. -/
structure GeneratedFile where
  content : Text
  metadata : Metadata
  deriving DecidableEq

/-- `~MemoryOutputStream` after `OpenForInsert`; `none` is `had_error_`. -/
def insert (insertionPoint data : Text) (info : List Annotation) (file : Option GeneratedFile) : Option GeneratedFile :=
  file.bind fun file => (find (magicString insertionPoint) file.content).map fun found =>
    let data := endLine data
    let pos := insertionPosition file.content found
    let indent := indentAt file.content pos
    let text := if indent = [] then data else copyLines indent data.length data
    ⟨file.content.take pos ++ text ++ file.content.drop pos,
      updateMetadata data pos text.length indent.length info file.metadata⟩

/-! ## What an insertion should do -/

/-- The characters from `b` to `e`. -/
def slice {α : Type} (l : List α) (b e : ℕ) : List α := (l.take e).drop b

def insertAt {α : Type} (pos : ℕ) (block text : List α) : List α := text.take pos ++ block ++ text.drop pos

/-- The lines, each with its newline. -/
def linesOf : Text → List Text
  | [] => []
  | c :: rest =>
    if c = newline then [c] :: linesOf rest
    else match linesOf rest with
      | [] => [[c]]
      | line :: lines => (c :: line) :: lines

def block (indent data : Text) : Text := (linesOf data).flatMap (indent ++ ·)

/-- The characters, those that are newlines but the last one with the indentation of the next line. -/
def chunks (indent : Text) : Text → List Text
  | [] => []
  | [c] => [[c]]
  | c :: d :: rest => (if c = newline then c :: indent else [c]) :: chunks indent (d :: rest)

/-- The annotations are in range, and each is listed when it is closed. -/
structure WellNested (length : ℕ) (annotations : List Annotation) : Prop where
  range : ∀ a ∈ annotations, a.first ≤ a.last ∧ a.last ≤ length
  closing : annotations.Pairwise fun a a' => a.last ≤ a'.last ∧ (a.last ≤ a'.first ∨ a'.first ≤ a.first)

def SameElement (a a' : Annotation) : Prop := a'.path = a.path ∧ a'.sourceFile = a.sourceFile

/-- The characters of the old file, after something of a length has been put in. -/
def origins (length pos inserted : ℕ) : List (Option ℕ) :=
  insertAt pos (replicate inserted none) ((List.range length).map some)

/-- An annotation spans the same characters of the old file. -/
def SameText (length pos inserted : ℕ) (a a' : Annotation) : Prop := SameElement a a' ∧
    slice (origins length pos inserted) a'.first a'.last = slice ((List.range length).map some) a.first a.last

/-- An annotation spans what it spanned, with the indentation behind the newlines. -/
def IndentedText (content indent data : Text) (a a' : Annotation) : Prop :=
  SameElement a a' ∧ slice content a'.first a'.last = (slice (chunks indent data) a.first a.last).flatten

/-- **The metadata is true**: the lines are put in with the indentation, and all annotations span what they should.  The
new ones stand before the first old one at or behind the position. -/
structure MetadataTrue (pos : ℕ) (indent data : Text) (info : List Annotation) (old new : GeneratedFile) : Prop where
  content : new.content = insertAt pos (block indent data) old.content
  annotations : ∃ front inserted back, new.metadata.annotations = front ++ (inserted ++ back) ∧
    List.Forall₂ (SameText old.content.length pos (block indent data).length)
      (old.metadata.annotations.takeWhile fun a => a.first < pos) front ∧
    List.Forall₂ (IndentedText new.content indent data) info inserted ∧
    List.Forall₂ (SameText old.content.length pos (block indent data).length)
      (old.metadata.annotations.dropWhile fun a => a.first < pos) back

/-- No newline but the last one stands between two offsets. -/
def Quiet (data : Text) (b e : ℕ) : Prop := ∀ k, b ≤ k → k < e → k + 1 < data.length → data[k]? ≠ some newline

/-! ## Slices -/

section Slices
variable {α : Type} {l r t blk : List α} {b e x y pos : ℕ}

theorem slice_append_left (h : e ≤ l.length) : slice (l ++ r) b e = slice l b e := by
  rw [slice, slice, take_append_of_le_length h]

theorem slice_append_right : slice (l ++ r) (l.length + x) (l.length + y) = slice r x y := by
  rw [slice, slice, take_length_add_append, ← drop_drop, drop_left]

theorem slice_self : slice l x x = [] := drop_eq_nil_of_le (by simp)

theorem length_slice : (slice l b e).length = min e l.length - b := by
  rw [slice, length_drop, length_take]

theorem slice_insertAt_front (he : e ≤ pos) (hpos : pos ≤ t.length) : slice (insertAt pos blk t) b e = slice t b e := by
  have hlength : (t.take pos).length = pos := length_take_of_le hpos
  rw [insertAt, append_assoc, slice_append_left (by omega)]
  conv_rhs => rw [← take_append_drop pos t]
  rw [slice_append_left (by omega)]

theorem slice_insertAt_back (hb : pos ≤ b) (he : b ≤ e) (hpos : pos ≤ t.length) :
    slice (insertAt pos blk t) (b + blk.length) (e + blk.length) = slice t b e := by
  have hlength : (t.take pos).length = pos := length_take_of_le hpos
  obtain ⟨x, rfl⟩ := Nat.exists_eq_add_of_le hb
  obtain ⟨y, rfl⟩ := Nat.exists_eq_add_of_le (hb.trans he)
  have hright := slice_append_right (l := t.take pos ++ blk) (r := t.drop pos) (x := x) (y := y)
  rw [length_append, hlength] at hright
  rw [insertAt, add_right_comm, add_right_comm pos y, hright]
  have hsplit := slice_append_right (l := t.take pos) (r := t.drop pos) (x := x) (y := y)
  rw [take_append_drop, hlength] at hsplit
  exact hsplit.symm

theorem slice_insertAt_block (hy : y ≤ blk.length) (hpos : pos ≤ t.length) :
    slice (insertAt pos blk t) (pos + x) (pos + y) = slice blk x y := by
  have hlength : (t.take pos).length = pos := length_take_of_le hpos
  have hright := slice_append_right (l := t.take pos) (r := blk ++ t.drop pos) (x := x) (y := y)
  rw [hlength, slice_append_left hy] at hright
  rw [insertAt, append_assoc, hright]

theorem slice_flatten (l : List (List α)) (h : b ≤ e) :
    slice l.flatten (l.take b).flatten.length (l.take e).flatten.length = (slice l b e).flatten := by
  have hsplit : l.take b ++ slice l b e = l.take e := by
    have hb : (l.take e).take b = l.take b := by rw [take_take, min_eq_left h]
    rw [slice, ← hb, take_append_drop]
  conv_lhs => rw [← take_append_drop e l, flatten_append]
  rw [take_append_drop, slice, take_left, ← hsplit, flatten_append, drop_left]

end Slices

/-! ## Newlines -/

section Newlines
variable {data indent : Text} {i j k : ℕ}

def newlines (data : Text) (k : ℕ) : ℕ := (data.take k).countP (· == newline)

theorem newlines_succ (data : Text) (k : ℕ) :
    newlines data (k + 1) = newlines data k + if data[k]? = some newline then 1 else 0 := by
  rw [newlines, take_add_one, countP_append, newlines]
  cases data[k]? with
  | none => rfl
  | some c => simp [countP_singleton]

theorem newlines_le (data : Text) (h : i ≤ j) : newlines data i ≤ newlines data j :=
  (take_sublist_take_left h).countP_le

theorem newlines_eq_iff (h : i ≤ j) :
    newlines data i = newlines data j ↔ ∀ k, i ≤ k → k < j → data[k]? ≠ some newline := by
  induction j, h using Nat.le_induction with
  | base => exact iff_of_true rfl fun k hk hlt => absurd hk (not_le.mpr hlt)
  | succ j hij ih =>
    have hle := newlines_le data hij
    rw [newlines_succ]
    constructor
    · intro heq k hk hlt
      split at heq
      · omega
      · rename_i hother
        rcases Nat.lt_or_eq_of_le (Nat.le_of_lt_succ hlt) with hlt | rfl
        · exact ih.mp heq k hk hlt
        · exact hother
    · intro hall
      rw [if_neg (hall j hij (Nat.lt_succ_self j))]
      exact ih.mpr fun k hk hlt => hall k hk (Nat.lt_succ_of_lt hlt)

def limit (data : Text) (k : ℕ) : ℕ := min k (data.length - 1)

theorem newlines_limit_iff (h : i ≤ j) :
    newlines data (limit data i) = newlines data (limit data j) ↔ Quiet data i j := by
  rw [newlines_eq_iff (by unfold limit; omega)]
  constructor
  · intro hall k hik hkj hlast
    exact hall k (by unfold limit; omega) (by unfold limit; omega)
  · intro hquiet k hik hkj
    unfold limit at hik hkj
    exact hquiet k (by omega) (by omega) (by omega)

theorem length_chunks (indent data : Text) : (chunks indent data).length = data.length := by
  induction data using chunks.induct with
  | case1 => rfl
  | case2 c => rfl
  | case3 c d rest ih => rw [chunks, length_cons, ih, length_cons (a := c)]

/-- Where a character stands behind the indentation of the first line. -/
theorem length_take_chunks (indent data : Text) (hk : k ≤ data.length) :
    ((chunks indent data).take k).flatten.length = k + indent.length * newlines data (limit data k) := by
  induction data using chunks.induct generalizing k with
  | case1 =>
    obtain rfl := Nat.le_zero.mp hk
    rfl
  | case2 c =>
    have hzero : limit [c] k = 0 := min_eq_right (Nat.zero_le _)
    rw [hzero]
    cases k with
    | zero => rfl
    | succ k =>
      obtain rfl : k = 0 := by simpa using hk
      rfl
  | case3 c d rest ih =>
    cases k with
    | zero =>
      have hzero : limit (c :: d :: rest) 0 = 0 := Nat.zero_min _
      rw [hzero]
      rfl
    | succ k =>
      have hlimit : limit (c :: d :: rest) (k + 1) = limit (d :: rest) k + 1 := by
        simp only [limit, length_cons]
        omega
      have hnewlines : newlines (c :: d :: rest) (limit (d :: rest) k + 1) =
          newlines (d :: rest) (limit (d :: rest) k) + if c = newline then 1 else 0 := by
        simp [newlines, countP_cons]
      rw [chunks, take_succ_cons, flatten_cons, length_append, ih (Nat.le_of_succ_le_succ hk), hlimit,
        hnewlines]
      split
      · rw [length_cons]
        ring
      · simp
        ring

/-- **The block** is the indentation, and the characters with the indentation behind the newlines. -/
theorem block_eq (hlast : data.getLast? = some newline) : block indent data = indent ++ (chunks indent data).flatten := by
  induction data using chunks.induct with
  | case1 => cases hlast
  | case2 c =>
    obtain rfl : c = newline := by simpa using hlast
    simp [block, linesOf, chunks]
  | case3 c d rest ih =>
    rw [List.getLast?_cons_cons] at hlast
    have hrest := ih hlast
    rw [block] at hrest ⊢
    rw [linesOf, chunks]
    split
    · rw [flatMap_cons, hrest]
      simp [*]
    · cases hlines : linesOf (d :: rest) with
      | nil =>
        rw [hlines] at hrest
        cases indent with
        | nil =>
          simp only [linesOf] at hlines
          split at hlines
          · cases hlines
          · split at hlines <;> cases hlines
        | cons a indent => cases hrest
      | cons line lines =>
        rw [hlines, flatMap_cons, append_assoc, append_cancel_left_eq] at hrest
        dsimp only
        rw [flatMap_cons, flatten_cons, ← hrest]
        simp

theorem linesOf_nil_iff : linesOf data = [] ↔ data = [] := by
  cases data with
  | nil => exact iff_of_true rfl rfl
  | cons c rest =>
    refine iff_of_false ?_ (cons_ne_nil c rest)
    rw [linesOf]
    split
    · exact cons_ne_nil _ _
    · split <;> exact cons_ne_nil _ _

theorem block_nil (data : Text) : block [] data = data := by
  induction data with
  | nil => rfl
  | cons c rest ih =>
    rw [block] at ih ⊢
    rw [linesOf]
    split
    · rw [flatMap_cons, ih]
      rfl
    · cases hlines : linesOf rest with
      | nil =>
        rw [linesOf_nil_iff.mp hlines]
        rfl
      | cons line lines =>
        rw [hlines] at ih
        dsimp only
        rw [flatMap_cons] at ih ⊢
        exact congrArg (c :: ·) ih

theorem linesOf_eq (h : newline ∈ data) : linesOf data = data.take (data.findIdx (· == newline) + 1) ::
    linesOf (data.drop (data.findIdx (· == newline) + 1)) := by
  induction data with
  | nil => cases h
  | cons c rest ih =>
    rw [linesOf, findIdx_cons]
    by_cases hc : c = newline
    · simp [hc]
    · have hrest : newline ∈ rest := (mem_cons.mp h).resolve_left fun heq => hc heq.symm
      have hother : (c == newline) = false := beq_false_of_ne hc
      rw [if_neg hc, ih hrest]
      simp [hother]

/-- **The loop copies the lines** behind the indentation. -/
theorem copyLines_eq {fuel : ℕ} (hfuel : data.length ≤ fuel) (hlast : ∀ c ∈ data.getLast?, c = newline) :
    copyLines indent fuel data = block indent data := by
  induction fuel generalizing data with
  | zero =>
    obtain rfl := length_eq_zero_iff.mp (Nat.le_zero.mp hfuel)
    rfl
  | succ fuel ih =>
    rw [copyLines]
    split
    · rename_i hdata
      rw [hdata]
      rfl
    · rename_i hdata
      have hmem : newline ∈ data := by
        rw [← hlast _ (List.getLast?_eq_some_getLast hdata)]
        exact getLast_mem hdata
      dsimp only
      rw [ih (by rw [length_drop]; omega) ?_, block, block, linesOf_eq hmem, flatMap_cons]
      intro c hc
      rw [List.getLast?_drop] at hc
      split at hc
      · cases hc
      · exact hlast c hc

end Newlines

/-! ## The new annotations -/

section Inserted
variable {data indent old : Text} {pos p offset inner base e i j : ℕ} {a a' : Annotation} {l info : List Annotation}

/-- **The inner loop** adds an indentation for each newline, those before `first` apart. -/
theorem scanIndents_spec (data : Text) (first width n pos offset inner : ℕ) :
    (scanIndents data first width n pos offset inner).1 + width * newlines data pos =
        offset + width * newlines data (min (pos + n) (max pos first)) ∧
      (scanIndents data first width n pos offset inner).1 + (scanIndents data first width n pos offset inner).2 +
          width * newlines data pos = offset + inner + width * newlines data (pos + n) := by
  induction n generalizing pos offset inner with
  | zero =>
    rw [add_zero, min_eq_left (Nat.le_max_left _ _)]
    exact ⟨rfl, rfl⟩
  | succ n ih =>
    have hnext := newlines_succ data pos
    have hsum : pos + (n + 1) = pos + 1 + n := by omega
    rw [scanIndents, hsum]
    rcases lt_or_ge pos first with hlt | hge
    · have hmax : max (pos + 1) first = max pos first := by omega
      split
      · rename_i hnewline
        rw [if_pos hnewline] at hnext
        rw [if_neg (not_le.mpr hlt)]
        obtain ⟨h₁, h₂⟩ := ih (pos + 1) (offset + width) inner
        rw [hnext, Nat.mul_succ, hmax] at h₁
        rw [hnext, Nat.mul_succ] at h₂
        omega
      · rename_i hother
        rw [if_neg hother, add_zero] at hnext
        obtain ⟨h₁, h₂⟩ := ih (pos + 1) offset inner
        rw [hnext, hmax] at h₁
        rw [hnext] at h₂
        exact ⟨h₁, h₂⟩
    · have hmin : min (pos + 1 + n) (max pos first) = pos := by omega
      have hmin' : min (pos + 1 + n) (max (pos + 1) first) = pos + 1 := by omega
      rw [hmin]
      split
      · rename_i hnewline
        rw [if_pos hnewline] at hnext
        obtain ⟨h₁, h₂⟩ := ih (pos + 1) offset (inner + width)
        rw [hmin'] at h₁
        rw [hnext, Nat.mul_succ] at h₂
        omega
      · rename_i hother
        rw [if_neg hother, add_zero] at hnext
        obtain ⟨h₁, h₂⟩ := ih (pos + 1) offset inner
        rw [hmin', hnext] at h₁
        rw [hnext] at h₂
        exact ⟨h₁, h₂⟩

theorem getLast?_eq_newline (hdata : ∀ c ∈ data.getLast?, c = newline) (hne : data ≠ []) :
    data.getLast? = some newline := by
  rw [List.getLast?_eq_some_getLast hne, hdata _ (List.getLast?_eq_some_getLast hne)]

theorem indents_le (indent data : Text) (k : ℕ) :
    indent.length * newlines data (limit data k) ≤ indent.length * newlines data (limit data data.length) :=
  Nat.mul_le_mul_left _ (newlines_le data (by unfold limit; omega))

theorem length_block (hdata : ∀ c ∈ data.getLast?, c = newline) (hne : data ≠ []) :
    (block indent data).length = indent.length + (data.length + indent.length * newlines data (limit data data.length)) := by
  have hlast := getLast?_eq_newline hdata hne
  have hlength := length_take_chunks indent data (Nat.le_refl data.length)
  rw [take_of_length_le (le_of_eq (length_chunks indent data))] at hlength
  rw [block_eq hlast, length_append, hlength]

/-- **What an annotation should span** stands between two offsets. -/
theorem slice_block (indent : Text) (hdata : ∀ c ∈ data.getLast?, c = newline) (hbase : base ≤ old.length) (hle : a.first ≤ a.last)
    (hrange : a.last ≤ data.length) : slice (insertAt base (block indent data) old)
        (base + (indent.length + (a.first + indent.length * newlines data (limit data a.first))))
        (base + (indent.length + (a.last + indent.length * newlines data (limit data a.last)))) =
      (slice (chunks indent data) a.first a.last).flatten := by
  by_cases hne : data = []
  · subst hne
    have hlast : a.last = 0 := Nat.le_zero.mp hrange
    have hfirst : a.first = 0 := by omega
    rw [hlast, hfirst, slice_self]
    rfl
  have hlast := getLast?_eq_newline hdata hne
  have hle' := indents_le indent data a.last
  rw [slice_insertAt_block (by rw [length_block hdata hne]; omega) hbase, block_eq hlast, slice_append_right,
    ← length_take_chunks indent data (hle.trans hrange), ← length_take_chunks indent data hrange]
  exact slice_flatten (chunks indent data) hle

/-- An annotation whose end is right spans what it should if its beginning is. -/
theorem indentedText_iff (hdata : ∀ c ∈ data.getLast?, c = newline) (hbase : base ≤ old.length) (hle : a.first ≤ a.last)
    (hrange : a.last ≤ data.length) (helement : SameElement a a') (hp : limit data a.first ≤ p) (hp' : p ≤ limit data a.last)
    (hfirst : a'.first = base + (indent.length + (a.first + indent.length * newlines data p)))
    (hlast : a'.last = base + (indent.length + (a.last + indent.length * newlines data (limit data a.last)))) :
    IndentedText (insertAt base (block indent data) old) indent data a a' ↔
      indent = [] ∨ newlines data (limit data a.first) = newlines data p := by
  have hslice := slice_block indent hdata hbase hle hrange
  constructor
  · rintro ⟨-, htext⟩
    have hlength := congrArg List.length (htext.trans hslice.symm)
    rw [length_slice, length_slice, hfirst, hlast] at hlength
    have hends : base + (indent.length + (a.last + indent.length * newlines data (limit data a.last))) ≤
        (insertAt base (block indent data) old).length ∨ data = [] := by
      by_cases hne : data = []
      · exact .inr hne
      · left
        have hle' := indents_le indent data a.last
        rw [insertAt, length_append, length_append, length_take_of_le hbase, length_block hdata hne]
        omega
    rcases hends with hends | rfl
    · rw [min_eq_left hends] at hlength
      have h₁ := Nat.mul_le_mul_left indent.length (newlines_le data hp)
      have h₂ := Nat.mul_le_mul_left indent.length (newlines_le data hp')
      have heq : indent.length * newlines data (limit data a.first) = indent.length * newlines data p := by omega
      rcases Nat.eq_or_lt_of_le (Nat.zero_le indent.length) with hzero | hpos
      · exact .inl (length_eq_zero_iff.mp hzero.symm)
      · exact .inr (Nat.eq_of_mul_eq_mul_left hpos heq)
    · exact .inr (by simp [newlines])
  · intro h
    have heq : indent.length * newlines data p = indent.length * newlines data (limit data a.first) := by
      rcases h with rfl | h
      · simp
      · rw [h]
    refine ⟨helement, ?_⟩
    rw [hfirst, hlast, heq]
    exact hslice

theorem newlines_start_iff (hij : i ≤ j) (hej : e ≤ j) :
    newlines data (limit data i) = newlines data (min (limit data j) (max (limit data e) i)) ↔ Quiet data i e := by
  rcases le_total i e with hi | hi
  · rw [← newlines_limit_iff hi]
    have hp : min (limit data j) (max (limit data e) i) = limit data e ∨
        limit data i = min (limit data j) (max (limit data e) i) ∧ limit data i = limit data e := by
      unfold limit
      omega
    rcases hp with hp | ⟨hp, hp'⟩
    · rw [hp]
    · rw [← hp, hp']
  · have hp : min (limit data j) (max (limit data e) i) = limit data i := by
      unfold limit
      omega
    rw [hp]
    exact iff_of_true rfl fun k hk hlt => absurd (hi.trans hk) (not_le.mpr hlt)

/-- **The loop over the new annotations**: each spans what it should unless newlines have been counted before. -/
theorem insertShifted_iff (hdata : ∀ c ∈ data.getLast?, c = newline) (hbase : base ≤ old.length)
    (h : WellNested data.length l) (he : ∀ a ∈ l, e ≤ a.last)
    (hoffset : offset = base + indent.length + indent.length * newlines data (limit data e)) :
    List.Forall₂ (IndentedText (insertAt base (block indent data) old) indent data) l
        (insertShifted data indent.length l (limit data e) offset) ↔
      indent = [] ∨ (∀ a ∈ l, Quiet data a.first e) ∧ l.Pairwise fun a a' => Quiet data a'.first a.last := by
  induction l generalizing e offset with
  | nil => exact iff_of_true .nil (.inr ⟨nofun, .nil⟩)
  | cons a rest ih =>
    obtain ⟨⟨hle, hrange⟩, hranges⟩ := forall_mem_cons.mp h.range
    obtain ⟨hclosing, hclosings⟩ := pairwise_cons.mp h.closing
    obtain ⟨hea, -⟩ := forall_mem_cons.mp he
    have hstop : (if data = [] then a.last else min a.last (data.length - 1)) = limit data a.last := by
      split
      · rename_i hnil
        subst hnil
        unfold limit
        simp only [length_nil] at hrange ⊢
        omega
      · rfl
    have hlimits : limit data e ≤ limit data a.last := by unfold limit; omega
    have hmax : max (limit data e) (limit data a.last) = limit data a.last := Nat.max_eq_right hlimits
    obtain ⟨h₁, h₂⟩ := scanIndents_spec data a.first indent.length (limit data a.last - limit data e) (limit data e) offset 0
    rw [Nat.add_sub_cancel' hlimits] at h₁ h₂
    rw [insertShifted]
    rw [hstop, hmax]
    generalize scanIndents data a.first indent.length (limit data a.last - limit data e) (limit data e) offset 0 = r at h₁ h₂
    have hnext := @ih (r.1 + r.2) a.last ⟨hranges, hclosings⟩ (fun a' ha' => (hclosing a' ha').1) (by omega)
    have hhead : IndentedText (insertAt base (block indent data) old) indent data a (a.shift r.1 (r.1 + r.2)) ↔ _ :=
      indentedText_iff hdata hbase hle hrange ⟨rfl, rfl⟩
        (p := min (limit data a.last) (max (limit data e) a.first)) (by unfold limit; omega) (by omega)
      (by change a.first + r.1 = _; omega) (by change a.last + (r.1 + r.2) = _; omega)
    rw [forall₂_cons, hhead, hnext, newlines_start_iff hle hea, forall_mem_cons, pairwise_cons]
    constructor
    · rintro ⟨hnil | hquiet, hrest⟩
      · exact .inl hnil
      · refine hrest.imp_right fun ⟨hall, hpairs⟩ => ⟨⟨hquiet, fun a' ha' k hk hlt => ?_⟩, hall, hpairs⟩
        exact hall a' ha' k hk (hlt.trans_le hea)
    · rintro (hnil | ⟨⟨hquiet, -⟩, hall, hpairs⟩)
      · exact ⟨.inl hnil, .inl hnil⟩
      · exact ⟨.inr hquiet, .inr ⟨hall, hpairs⟩⟩

theorem length_insertShifted (l : List Annotation) (pos offset : ℕ) :
    (insertShifted data indent.length l pos offset).length = l.length := by
  induction l generalizing pos offset with
  | nil => rfl
  | cons a rest ih => rw [insertShifted, length_cons, ih, length_cons]

end Inserted

/-! ## The old annotations -/

section Old
variable {content : Text} {pos length inserted width n toAdd : ℕ} {a : Annotation} {l info : List Annotation}

theorem updateAnnotations_crossed (l : List Annotation) :
    updateAnnotations content pos length width info l true toAdd = l.map fun a => a.shift toAdd toAdd := by
  induction l with
  | nil => rfl
  | cons a rest ih => rw [updateAnnotations, if_neg (by simp), ih, map_cons]

/-- **The loop over the old annotations** shifts those from the first one on that is at or behind the position. -/
theorem updateAnnotations_eq (l : List Annotation) : updateAnnotations content pos length width info l false 0 =
      (l.takeWhile fun a => a.first < pos) ++ (insertShiftedInfo content pos width info ++
        (l.dropWhile fun a => a.first < pos).map fun a => a.shift length length) := by
  induction l with
  | nil => simp [updateAnnotations]
  | cons a rest ih =>
    rw [updateAnnotations, takeWhile_cons, dropWhile_cons]
    by_cases hlt : a.first < pos
    · rw [if_neg (by omega), ih]
      simp [hlt, Annotation.shift]
    · rw [if_pos ⟨not_lt.mp hlt, rfl⟩, updateAnnotations_crossed]
      simp [hlt]

theorem annotations_updateMetadata {metadata : Metadata} (h : metadata ≠ .invalid) :
    (updateMetadata content pos length width info metadata).annotations =
      updateAnnotations content pos length width info metadata.annotations false 0 := by
  cases metadata with
  | missing =>
    rw [updateMetadata]
    split
    · rename_i hinfo
      rw [hinfo]
      rfl
    · rfl
  | wire l => rfl
  | text l => rfl
  | invalid => exact absurd rfl h

theorem length_numbered : ((List.range n).map some).length = n := by simp

theorem sameText_front (hfirst : a.first < pos) (hinside : ¬(a.first < pos ∧ pos < a.last)) (hpos : pos ≤ n) :
    SameText n pos inserted a a :=
  ⟨⟨rfl, rfl⟩, slice_insertAt_front (by omega) (by rwa [length_numbered])⟩

/-- An annotation that is shifted spans the same characters if it is behind the position. -/
theorem sameText_back (hle : a.first ≤ a.last) (hrange : a.last ≤ n) (hpos : pos ≤ n) (hlast : pos ≤ a.last)
    (hinside : ¬(a.first < pos ∧ pos < a.last)) :
    SameText n pos inserted a (a.shift inserted inserted) ↔ inserted = 0 ∨ pos ≤ a.first := by
  constructor
  · rintro ⟨-, htext⟩
    by_contra hnot
    rw [not_or, not_le] at hnot
    obtain ⟨hinserted, hfirst⟩ := hnot
    obtain rfl : a.last = pos := by omega
    have hindex := congrArg (fun l => l[a.last - 1 - a.first]?) htext
    have hleft : (origins n a.last inserted)[a.last - 1 + inserted]? = some none := by
      have hlength : (((List.range n).map some).take a.last).length = a.last := by
        rw [length_take_of_le (by rwa [length_numbered])]
      rw [origins, insertAt, List.getElem?_append_left (by rw [length_append, hlength, length_replicate]; omega),
        List.getElem?_append_right (by omega), hlength, List.getElem?_replicate, if_pos (by omega)]
    have hright : ((List.range n).map some)[a.last - 1]? = some (some (a.last - 1)) := by
      rw [List.getElem?_map, List.getElem?_range (by omega)]
      rfl
    have hslice : ∀ (t : List (Option ℕ)) (d : ℕ), (slice t (a.first + d) (a.last + d))[a.last - 1 - a.first]? =
        t[a.last - 1 + d]? := by
      intro t d
      rw [slice, List.getElem?_drop, List.getElem?_take_of_lt (by omega)]
      congr 1
      omega
    have hindex' := (hslice _ inserted).symm.trans (hindex.trans (hslice _ 0))
    simp [hleft, add_zero, hright] at hindex'
  · rintro (rfl | hfirst)
    · refine ⟨⟨rfl, rfl⟩, ?_⟩
      change slice (insertAt pos [] _) a.first a.last = _
      rw [insertAt, append_nil, take_append_drop]
    · refine ⟨⟨rfl, rfl⟩, ?_⟩
      have hslice := @slice_insertAt_back _ _ (replicate inserted none) _ _ _ hfirst hle
        (show pos ≤ ((List.range n).map some).length by rwa [length_numbered])
      rwa [length_replicate] at hslice

end Old

/-! ## Insertions -/

section Insert
variable {insertionPoint data indent : Text} {info : List Annotation} {old new : GeneratedFile} {pos found : ℕ}

theorem find_lt {target : Text} (h : find (magicString insertionPoint) target = some found) : found < target.length := by
  rw [find] at h
  have hfound := List.find?_some h
  have hlength := ( isPrefixOf_iff_prefix.mp hfound).length_le
  rw [magicString, length_append, length_append, length_drop] at hlength
  simp only [length_cons, length_nil] at hlength
  omega

theorem insertionPosition_le {target : Text} (h : found < target.length) : insertionPosition target found ≤ target.length := by
  rw [insertionPosition]
  split <;> omega

theorem getLast?_endLine (data : Text) : ∀ c ∈ (endLine data).getLast?, c = newline := by
  intro c hc
  rw [endLine] at hc
  split at hc
  · rw [List.getLast?_concat] at hc
    exact (Option.some_inj.mp hc).symm
  · rename_i hnot
    by_cases hnil : data = []
    · simp [hnil] at hc
    · have hlast : data.getLast? = some newline := not_not.mp fun hne => hnot ⟨hnil, hne⟩
      rw [hlast] at hc
      exact (Option.some_inj.mp hc).symm

theorem written_eq (hdata : ∀ c ∈ data.getLast?, c = newline) :
    (if indent = [] then data else copyLines indent data.length data) = block indent data := by
  split
  · rename_i hnil
    rw [hnil, block_nil]
  · exact copyLines_eq le_rfl hdata

theorem length_block_eq_zero (indent : Text) (hdata : ∀ c ∈ data.getLast?, c = newline) : (block indent data).length = 0 ↔ data = [] := by
  constructor
  · intro hzero
    by_contra hne
    rw [length_block hdata hne] at hzero
    have hpos := length_pos_iff.mpr hne
    omega
  · rintro rfl
    rfl

theorem WellNested.last_of_dropWhile {length : ℕ} {l : List Annotation} (h : WellNested length l) {a : Annotation}
    (ha : a ∈ l.dropWhile fun a => a.first < pos) : pos ≤ a.last := by
  have hsub := dropWhile_sublist (l := l) fun a : Annotation => decide (a.first < pos)
  have hclosing := h.closing.sublist hsub
  have hrange := fun a ha => h.range a (hsub.subset ha)
  cases hdrop : l.dropWhile fun a => a.first < pos with
  | nil =>
    simp [hdrop] at ha
  | cons d rest =>
    have hd : pos ≤ d.first := by
      have hhead := List.head?_dropWhile_not (fun a : Annotation => decide (a.first < pos)) l
      rw [hdrop] at hhead
      simpa using hhead
    rw [hdrop] at ha hclosing hrange
    have hdlast := (hrange d mem_cons_self).1
    rcases mem_cons.mp ha with rfl | ha
    · omega
    · have hle := ((pairwise_cons.mp hclosing).1 a ha).1
      omega

/-- **An insertion**, at a position with an indentation. -/
theorem metadataTrue_insertAt_iff (hdata : ∀ c ∈ data.getLast?, c = newline) (hpos : pos ≤ old.content.length)
    (hmetadata : old.metadata ≠ .invalid) (hold : WellNested old.content.length old.metadata.annotations)
    (hinfo : WellNested data.length info)
    (hinside : ∀ a ∈ old.metadata.annotations, ¬(a.first < pos ∧ pos < a.last)) :
    MetadataTrue pos indent data info old ⟨insertAt pos (block indent data) old.content,
        updateMetadata data pos (block indent data).length indent.length info old.metadata⟩ ↔
      (data = [] ∨ ∀ a ∈ old.metadata.annotations.dropWhile fun a => a.first < pos, pos ≤ a.first) ∧
        (indent = [] ∨ info.Pairwise fun a a' => Quiet data a'.first a.last) := by
  have hannotations : (updateMetadata data pos (block indent data).length indent.length info old.metadata).annotations = _ :=
    (annotations_updateMetadata hmetadata).trans (updateAnnotations_eq old.metadata.annotations)
  have hinserted : List.Forall₂ (IndentedText (insertAt pos (block indent data) old.content) indent data) info
      (insertShiftedInfo data pos indent.length info) ↔
        indent = [] ∨ info.Pairwise fun a a' => Quiet data a'.first a.last := by
    have hzero : limit data 0 = 0 := Nat.zero_min _
    have hiff : List.Forall₂ (IndentedText (insertAt pos (block indent data) old.content) indent data) info
        (insertShifted data indent.length info (limit data 0) (pos + indent.length)) ↔ _ :=
      insertShifted_iff hdata hpos hinfo (fun _ _ => Nat.zero_le _) (by rw [hzero]; rfl)
    rw [hzero] at hiff
    rw [insertShiftedInfo, hiff]
    exact or_congr_right (and_iff_right fun a _ k _ hlt => absurd hlt (Nat.not_lt_zero k))
  have hfront : List.Forall₂ (SameText old.content.length pos (block indent data).length)
      (old.metadata.annotations.takeWhile fun a => a.first < pos) (old.metadata.annotations.takeWhile fun a => a.first < pos) := by
    refine forall₂_same.mpr fun a ha => ?_
    have hfirst := mem_takeWhile_imp ha
    exact sameText_front (of_decide_eq_true hfirst)
      (hinside a ((takeWhile_sublist _).subset ha)) hpos
  have hback : List.Forall₂ (SameText old.content.length pos (block indent data).length)
      (old.metadata.annotations.dropWhile fun a => a.first < pos)
      ((old.metadata.annotations.dropWhile fun a => a.first < pos).map fun a =>
        a.shift (block indent data).length (block indent data).length) ↔
        data = [] ∨ ∀ a ∈ old.metadata.annotations.dropWhile fun a => a.first < pos, pos ≤ a.first := by
    rw [forall₂_map_right_iff, forall₂_same, ← length_block_eq_zero indent hdata]
    have heach : ∀ a ∈ old.metadata.annotations.dropWhile fun a => a.first < pos,
        SameText old.content.length pos (block indent data).length a
          (a.shift (block indent data).length (block indent data).length) ↔
            (block indent data).length = 0 ∨ pos ≤ a.first := by
      intro a ha
      have hmem := (dropWhile_sublist _).subset ha
      obtain ⟨hle, hrange⟩ := hold.range a hmem
      exact sameText_back hle hrange hpos (hold.last_of_dropWhile ha) (hinside a hmem)
    constructor
    · intro hall
      by_cases hzero : (block indent data).length = 0
      · exact .inl hzero
      · exact .inr fun a ha => ((heach a ha).mp (hall a ha)).resolve_left hzero
    · exact fun h a ha => (heach a ha).mpr (h.imp_right fun hall => hall a ha)
  constructor
  · rintro ⟨-, front, inserted, back, heq, h₁, h₂, h₃⟩
    dsimp only at heq h₂
    rw [hannotations] at heq
    obtain ⟨rfl, hrest⟩ := List.append_inj heq h₁.length_eq
    obtain ⟨rfl, rfl⟩ := List.append_inj hrest (by rw [insertShiftedInfo, length_insertShifted, h₂.length_eq])
    exact ⟨hback.mp h₃, hinserted.mp h₂⟩
  · rintro ⟨hshifted, hquiet⟩
    exact ⟨rfl, _, _, _, hannotations, hfront, hinserted.mpr hquiet, hback.mpr hshifted⟩

/-- **When an insertion keeps the metadata true**: no old annotation that is listed after one at or behind the position
begins before it, and no newline stands between the beginning of a new annotation and the end of one in it. -/
theorem metadataTrue_iff (hfound : find (magicString insertionPoint) old.content = some found)
    (hinsert : insert insertionPoint data info (some old) = some new) (hmetadata : old.metadata ≠ .invalid)
    (hold : WellNested old.content.length old.metadata.annotations) (hinfo : WellNested (endLine data).length info)
    (hinside : ∀ a ∈ old.metadata.annotations,
      ¬(a.first < insertionPosition old.content found ∧ insertionPosition old.content found < a.last)) :
    MetadataTrue (insertionPosition old.content found) (indentAt old.content (insertionPosition old.content found))
        (endLine data) info old new ↔
      (endLine data = [] ∨ ∀ a ∈ old.metadata.annotations.dropWhile fun a => a.first < insertionPosition old.content found,
          insertionPosition old.content found ≤ a.first) ∧
        (indentAt old.content (insertionPosition old.content found) = [] ∨
          info.Pairwise fun a a' => Quiet (endLine data) a'.first a.last) := by
  have hdata := getLast?_endLine data
  rw [insert, Option.bind_some, hfound, Option.map_some] at hinsert
  dsimp only at hinsert
  rw [written_eq hdata] at hinsert
  obtain rfl := Option.some.inj hinsert
  exact metadataTrue_insertAt_iff hdata (insertionPosition_le (find_lt hfound)) hmetadata hold hinfo hinside

end Insert

def indentedFile (metadata : Metadata) : GeneratedFile := ⟨[32, 32] ++ magicString [120] ++ [10], metadata⟩

/-- Two lines with one annotation are put in before another one. -/
theorem metadataTrue_iff_twoLines : ∃ new,
    insert [120] [97, 10, 98] [⟨[4, 0], [], 0, 3⟩] (some (indentedFile (.wire [⟨[4, 1], [], 4, 6⟩]))) = some new ∧
      MetadataTrue 0 [32, 32] [97, 10, 98, 10] [⟨[4, 0], [], 0, 3⟩] (indentedFile (.wire [⟨[4, 1], [], 4, 6⟩])) new := by
  refine ⟨_, rfl, ?_⟩
  exact (@metadataTrue_iff [120] [97, 10, 98] [⟨[4, 0], [], 0, 3⟩] (indentedFile (.wire [⟨[4, 1], [], 4, 6⟩])) _ 2
    (by decide) rfl nofun ⟨by decide, by decide⟩ ⟨by decide, by decide⟩ (by decide)).mpr
      ⟨.inr (by decide), .inr (pairwise_singleton _ _)⟩

/-- An annotation of two lines in another one: the outer one begins too late. -/
theorem metadata_untrue_nested : WellNested 4 [⟨[4, 0, 2], [], 0, 3⟩, ⟨[4, 0], [], 0, 4⟩] ∧ ∃ new,
    insert [120] [97, 10, 98, 10] [⟨[4, 0, 2], [], 0, 3⟩, ⟨[4, 0], [], 0, 4⟩] (some (indentedFile .missing)) = some new ∧
      ¬MetadataTrue 0 [32, 32] [97, 10, 98, 10] [⟨[4, 0, 2], [], 0, 3⟩, ⟨[4, 0], [], 0, 4⟩] (indentedFile .missing) new := by
  have hnested : WellNested 4 [⟨[4, 0, 2], [], 0, 3⟩, ⟨[4, 0], [], 0, 4⟩] := ⟨by decide, by decide⟩
  refine ⟨hnested, _, rfl, fun htrue => ?_⟩
  have hcondition := (@metadataTrue_insertAt_iff [97, 10, 98, 10] [32, 32] _ (indentedFile .missing) 0
    (fun _ hc => (Option.some_inj.mp hc).symm)
    (Nat.zero_le _) (fun h => nomatch h) ⟨nofun, .nil⟩ hnested
    (nofun)).mp htrue
  rcases hcondition.2 with hnil | hquiet
  · cases hnil
  · exact (pairwise_cons.mp hquiet).1 _ mem_cons_self 1 (by decide) (by decide) (by decide) rfl

end Protoc.Compiler.Insertion
