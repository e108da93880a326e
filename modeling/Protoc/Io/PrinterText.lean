import Protoc.Io.PrinterBytes

/-!
# What is printed

A template is a list of characters, ends of lines and variables.  What a sequence of calls should
print is said by a page with an indentation before the first character of each line; what it prints is
the page that puts the indentation off.
-/

namespace Protoc.Io

open Protoc.Lib
open List Option
open Protoc.Util (Str)
open Protoc.Lib.Indented

/-! ## Templates -/

/-- A piece of a template. -/
inductive TemplatePiece
  | endLine
  | char (c : UInt8)
  | var (name : Str)
  deriving DecidableEq

/-- Between delimiters: a variable, or nothing, which stands for a delimiter. -/
def namedPiece (delimiter : UInt8) (name : Str) : TemplatePiece :=
  if name = [] then .char delimiter else .var name

/-- The pieces of a template, with the name that has been opened. -/
def parseTemplate (delimiter : UInt8) : Option Str → Str → Option (List TemplatePiece)
  | none, [] => some []
  | some _, [] => none
  | none, c :: text =>
    if c = newline then (parseTemplate delimiter none text).map (.endLine :: ·)
    else if c = delimiter then parseTemplate delimiter (some []) text
    else (parseTemplate delimiter none text).map (.char c :: ·)
  | some name, c :: text =>
    if c = delimiter then (parseTemplate delimiter none text).map (namedPiece delimiter name :: ·)
    else parseTemplate delimiter (some (name ++ [c])) text

def TemplatePiece.piece (vars : Str → Option Str) : TemplatePiece → Option (Piece UInt8)
  | .endLine => some .endLine
  | .char c => some (.text [c])
  | .var name => (vars name).map .text

theorem parseTemplate_name (delimiter : UInt8) (name text : Str) :
    parseTemplate delimiter (some name) text =
      if (text.takeWhile (· ≠ delimiter)).length = text.length then none
      else (parseTemplate delimiter none (text.drop ((text.takeWhile (· ≠ delimiter)).length + 1))).map
        (namedPiece delimiter (name ++ text.takeWhile (· ≠ delimiter)) :: ·) := by
  induction text generalizing name with
  | nil => rfl
  | cons c text ih =>
    rw [parseTemplate]
    by_cases hc : c = delimiter
    · have hnone : (c :: text).takeWhile (· ≠ delimiter) = [] := by
        rw [takeWhile_cons_of_neg (by simp [hc])]
      rw [if_pos hc, hnone, if_neg (by simp), append_nil]
      rfl
    · have hsome : (c :: text).takeWhile (· ≠ delimiter) = c :: text.takeWhile (· ≠ delimiter) := by
        rw [takeWhile_cons_of_pos (by simp [hc])]
      rw [if_neg hc, ih, hsome, length_cons, length_cons, append_assoc]
      simp only [Nat.add_right_cancel_iff, drop_succ_cons]
      rfl

/-! ## The places of the variables -/

/-- A variable that was used once stands where its place says; one that was used more often has a place
of negative length. -/
def RangeOf (vars : Str → Option Str) (out : Str) (name : Str) (uses : ℕ) : Option (ℕ × ℕ) → Prop
  | none => uses = 0
  | some range =>
    (uses = 1 ∧ ∃ value, vars name = some value ∧ range.2 = range.1 + value.length ∧
      range.2 ≤ out.length ∧ (out.drop range.1).take value.length = value) ∨
    (2 ≤ uses ∧ range.2 < range.1)

/-- The places after the first pieces of a template. -/
structure Recorded (vars : Str → Option Str) (seen : List TemplatePiece) (p : Printer) (out : Str) : Prop where
  count_le : ∀ name, p.lineStartVariables.count name ≤ seen.count (.var name)
  empty : ∀ name ∈ p.lineStartVariables, vars name = some []
  range : ∀ name, RangeOf vars out name (seen.count (.var name)) (p.substitutions name)

variable {vars : Str → Option Str} {seen : List TemplatePiece} {p q : Printer} {out out' : Str}

theorem RangeOf.mono {name : Str} {uses : ℕ} {range : Option (ℕ × ℕ)} (h : RangeOf vars out name uses range)
    (hout : out <+: out') : RangeOf vars out' name uses range := by
  cases range with
  | none => exact h
  | some range =>
    rcases h with ⟨huses, value, hvalue, hlength, hle, htake⟩ | h
    · obtain ⟨rest, rfl⟩ := hout
      refine .inl ⟨huses, value, hvalue, hlength, by rw [length_append]; omega, ?_⟩
      rw [drop_append_of_le_length (by omega), take_append_of_le_length, htake]
      rw [length_drop]
      omega
    · exact .inr h

theorem fixUp_apply (p : Printer) (name : Str) :
    p.fixUp.substitutions name = if p.lineStartVariables.count name = 0 then p.substitutions name
      else some (Printer.shift (p.lineStartVariables.count name * p.indentation.length)
        ((p.substitutions name).getD (0, 0))) := by
  rw [Printer.fixUp]
  simp only
  generalize p.substitutions = substitutions
  induction p.lineStartVariables generalizing substitutions with
  | nil => rfl
  | cons first names ih =>
    rw [foldl_cons, ih]
    by_cases hfirst : first = name
    · rw [hfirst, Function.update_self, count_cons_self, if_neg (Nat.succ_ne_zero _), getD_some]
      by_cases hcount : names.count name = 0
      · rw [if_pos hcount, hcount, Nat.zero_add, Nat.one_mul]
      · rw [if_neg hcount, Printer.shift, Printer.shift, Printer.shift, Nat.succ_mul]
        congr 2 <;> omega
    · rw [Function.update_of_ne (Ne.symm hfirst), count_cons_of_ne hfirst]

/-- **A raw write** keeps the places right. -/
theorem Recorded.moved (h : Recorded vars seen p out) (hmoved : p.Moved q out out') :
    Recorded vars seen q out' := by
  cases hmoved with
  | kept hsubstitutions hvariables hout =>
    have hsublist : q.lineStartVariables.Sublist p.lineStartVariables := by
      rcases hvariables with heq | heq
      · exact heq ▸ List.Sublist.refl _
      · exact heq ▸ nil_sublist _
    exact {
      count_le := fun name => le_trans (hsublist.count_le _) (h.count_le name)
      empty := fun name hname => h.empty name (hsublist.mem hname)
      range := fun name => hsubstitutions ▸ (h.range name).mono hout }
  | indented hsubstitutions hvariables hout =>
    refine ⟨fun name => by rw [hvariables]; exact Nat.zero_le _, fun name hname => ?_, fun name => ?_⟩
    · rw [hvariables] at hname
      exact absurd hname not_mem_nil
    · have hrange := h.range name
      have hcount := h.count_le name
      rw [hsubstitutions, fixUp_apply]
      by_cases hzero : p.lineStartVariables.count name = 0
      · rw [if_pos hzero]
        exact hrange.mono ((prefix_append _ _).trans hout)
      · rw [if_neg hzero]
        have hvalue := h.empty name (count_pos_iff.mp (Nat.pos_of_ne_zero hzero))
        have hlength := hout.length_le
        rw [length_append] at hlength
        cases hold : p.substitutions name with
        | none =>
          rw [hold] at hrange
          exact absurd (Nat.le_zero.mp (hrange ▸ hcount)) hzero
        | some range =>
          rw [hold] at hrange
          rw [getD_some]
          rcases hrange with ⟨huses, value, hvalue', hempty, hle, -⟩ | ⟨huses, hnegative⟩
          · obtain rfl := some.inj (hvalue.symm.trans hvalue')
            have hone : p.lineStartVariables.count name = 1 := by omega
            rw [hone, Nat.one_mul]
            refine .inl ⟨huses, [], hvalue, ?_, ?_, take_zero⟩
            · simp only [Printer.shift]
              rw [hempty, length_nil]
              omega
            · simp only [Printer.shift]
              omega
          · exact .inr ⟨huses, Nat.add_lt_add_right hnegative _⟩

theorem count_append_of_ne {name : Str} {piece : TemplatePiece} (hne : piece ≠ .var name) :
    (seen ++ [piece]).count (.var name) = seen.count (.var name) := by
  rw [count_append, count_singleton, if_neg (by simpa using hne), Nat.add_zero]

theorem count_append_self (name : Str) : (seen ++ [TemplatePiece.var name]).count (.var name) = seen.count (.var name) + 1 := by
  rw [count_append, count_singleton_self]

theorem Recorded.append (h : Recorded vars seen p out) (piece : TemplatePiece) (hpiece : ∀ name, piece ≠ .var name) :
    Recorded vars (seen ++ [piece]) p out where
  count_le name := by
    rw [count_append_of_ne (hpiece name)]
    exact h.count_le name
  empty := h.empty
  range name := by
    rw [count_append_of_ne (hpiece name)]
    exact h.range name

theorem Recorded.startLine (h : Recorded vars seen p out) :
    Recorded vars seen { p with atStartOfLine := true, lineStartVariables := [] } out where
  count_le _ := Nat.zero_le _
  empty _ hname := absurd hname not_mem_nil
  range := h.range

/-- **A variable's place** after its value was written. -/
theorem Recorded.insert (h : Recorded vars seen p out) (hoffset : p.offset = out.length) {name value : Str}
    (hvalue : vars name = some value) (hsuffix : value <:+ out)
    (hcount : ∀ other, q.lineStartVariables.count other ≤ (seen ++ [TemplatePiece.var name]).count (.var other))
    (hempty : ∀ other ∈ q.lineStartVariables, vars other = some [])
    (hsubstitutions : q.substitutions = (p.insertSubstitution name value.length).substitutions) :
    Recorded vars (seen ++ [.var name]) q out := by
  refine ⟨hcount, hempty, fun other => ?_⟩
  have hrange := h.range other
  rw [hsubstitutions, Printer.insertSubstitution]
  simp only
  by_cases hother : other = name
  · subst hother
    rw [Function.update_self, count_append_self]
    cases hold : p.substitutions other with
    | none =>
      rw [hold] at hrange
      rw [if_pos rfl]
      obtain ⟨before, rfl⟩ := hsuffix
      rw [length_append] at hoffset
      have hsub : Printer.sizeSub p.offset value.length = before.length := by
        rw [Printer.sizeSub, if_pos (by omega)]
        omega
      refine .inl ⟨by rw [show seen.count (.var other) = 0 from hrange], value, hvalue, ?_, ?_, ?_⟩
      · rw [hsub, hoffset]
      · rw [hoffset, length_append]
      · rw [hsub, drop_left, take_length]
    | some range =>
      rw [hold] at hrange
      rw [if_neg (some_ne_none _)]
      refine .inr ⟨?_, Nat.zero_lt_one⟩
      rcases hrange with ⟨huses, -⟩ | ⟨huses, -⟩ <;> omega
  · have hne : TemplatePiece.var name ≠ .var other := fun h => hother (TemplatePiece.var.inj h).symm
    rw [Function.update_of_ne hother, count_append_of_ne hne]
    exact hrange

/-! ## Templates that are printed -/

namespace Printer

variable {buffers : Buffers} {start : Str} {page : Page UInt8} {template : List TemplatePiece}
  {pieces : List (Piece UInt8)}

abbrev writeDelayed (indentation : Str) (page : Page UInt8) (piece : Piece UInt8) : Page UInt8 :=
  page.write newline (delayedText newline) indentation piece

theorem writeDelayed_nil (indentation : Str) : writeDelayed indentation page (.text []) = page :=
  write_nil indentation

theorem suffix_writeDelayed (indentation value : Str) :
    value <:+ (writeDelayed indentation page (.text value)).out := by
  rw [writeDelayed, Page.write, delayedText]
  split
  · exact ((suffix_append _ _).trans (suffix_append _ _))
  · exact suffix_append _ _

/-- **A variable's value.** -/
theorem Prints.writeVariable_spec (hsucceeds : ∀ n, buffers.result n ≠ none) (h : Prints start p page)
    {name value : Str} (hvalue : vars name = some value) (hlength : value.length < 2 ^ 31)
    (hindentation : p.indentation.length < 2 ^ 31) (hrecorded : Recorded vars seen p page.out) :
    ∃ q, p.writeVariable buffers name value = some q ∧
      Prints start q (writeDelayed p.indentation page (.text value)) ∧
      q.indentation = p.indentation ∧ q.variableDelimiter = p.variableDelimiter ∧
      Recorded vars (seen ++ [.var name]) q (writeDelayed p.indentation page (.text value)).out := by
  by_cases hnil : value = []
  · subst hnil
    have hpush : ∀ names : List Str, (names = p.lineStartVariables ∨ names = p.lineStartVariables ++ [name]) →
        (∀ other, names.count other ≤ (seen ++ [TemplatePiece.var name]).count (.var other)) ∧
          ∀ other ∈ names, vars other = some [] := by
      rintro names (rfl | rfl)
      · refine ⟨fun other => le_trans (hrecorded.count_le other) ?_, hrecorded.empty⟩
        rw [count_append]
        exact Nat.le_add_right _ _
      · constructor
        · intro other
          have hcount := hrecorded.count_le other
          rw [count_append]
          by_cases hother : name = other
          · rw [hother, count_singleton_self, count_append_self]
            omega
          · rw [count_singleton, if_neg (by simpa using hother), count_append]
            omega
        · intro other hmem
          rcases mem_append.mp hmem with hold | hnew
          · exact hrecorded.empty other hold
          · rw [mem_singleton.mp hnew]
            exact hvalue
    rw [writeDelayed_nil, writeVariable]
    simp only [and_true, writeRaw_nil, map_some]
    by_cases hstart : p.atStartOfLine = true
    · rw [if_pos hstart]
      obtain ⟨hcount, hempty⟩ := hpush _ (.inr rfl)
      exact ⟨_, rfl, ⟨⟨h.holds.noError, h.holds.size_le, h.holds.last_le, h.holds.out_eq, h.holds.offset_eq⟩, h.line⟩,
        rfl, rfl, hrecorded.insert h.holds.offset_eq hvalue (nil_suffix) hcount hempty rfl⟩
    · rw [if_neg hstart]
      obtain ⟨hcount, hempty⟩ := hpush _ (.inl rfl)
      exact ⟨_, rfl, ⟨⟨h.holds.noError, h.holds.size_le, h.holds.last_le, h.holds.out_eq, h.holds.offset_eq⟩, h.line⟩,
        rfl, rfl, hrecorded.insert h.holds.offset_eq hvalue (nil_suffix) hcount hempty rfl⟩
  · obtain ⟨q, page', hwrite, rfl, hprints, hindent, hdelimiter, hmoved⟩ :=
      h.writeRaw_spec hsucceeds hlength hindentation
    have hrecorded' := hrecorded.moved hmoved
    rw [writeVariable, if_neg fun hif => hnil hif.2]
    refine ⟨q.insertSubstitution name value.length, by rw [hwrite]; rfl,
      ⟨⟨hprints.holds.noError, hprints.holds.size_le, hprints.holds.last_le, hprints.holds.out_eq,
        hprints.holds.offset_eq⟩, hprints.line⟩, hindent, hdelimiter, ?_⟩
    apply hrecorded'.insert (q := q.insertSubstitution name value.length) hprints.holds.offset_eq hvalue
      (suffix_writeDelayed _ _) _ hrecorded'.empty rfl
    intro other
    rw [count_append]
    exact le_trans (hrecorded'.count_le other) (Nat.le_add_right _ _)

/-- What the loop of `Print` has done at the end of the template. -/
def Printed (start : Str) (vars : Str → Option Str) (seen : List TemplatePiece) (indentation : Str)
    (delimiter : UInt8) (page : Page UInt8) (q : Printer) : Prop :=
  Prints start q page ∧ q.indentation = indentation ∧ q.variableDelimiter = delimiter ∧
    Recorded vars seen q page.out

theorem writeDelayed_append {s t : Str} (indentation : Str) (hnewline : newline ∉ s) :
    writeDelayed indentation page (.text (s ++ t)) =
      writeDelayed indentation (writeDelayed indentation page (.text s)) (.text t) :=
  Page.write_append hnewline

theorem writeDelayed_endLine {s : Str} (indentation : Str) (hnewline : newline ∉ s) :
    (writeDelayed indentation page (.text (s ++ [newline]))).out =
      (writeDelayed indentation (writeDelayed indentation page (.text s)) .endLine).out := by
  have hend : ∀ line, delayedText newline indentation line [newline] = [newline] := fun line =>
    if_neg fun hif => hif.2.2 rfl
  rw [writeDelayed_append indentation hnewline]
  simp only [writeDelayed, Page.write, hend]

theorem piece_cons {piece : TemplatePiece} {template : List TemplatePiece}
    (h : (piece :: template).mapM (TemplatePiece.piece vars) = some pieces) :
    ∃ first rest, piece.piece vars = some first ∧ template.mapM (TemplatePiece.piece vars) = some rest ∧
      pieces = first :: rest := by
  rw [mapM_cons, bind_eq_bind, bind_eq_some_iff] at h
  obtain ⟨first, hfirst, h⟩ := h
  rw [bind_eq_bind, bind_eq_some_iff] at h
  obtain ⟨rest, hrest, h⟩ := h
  exact ⟨first, rest, hfirst, hrest, (some.inj h).symm⟩

/-- **The loop of `Print`.** -/
theorem printLoop_spec (hsucceeds : ∀ n, buffers.result n ≠ none) (pending text : Str)
    (h : Prints start p page) (hindentation : p.indentation.length < 2 ^ 31)
    (hlength : pending.length + text.length < 2 ^ 31) (hpending : newline ∉ pending)
    (hparse : parseTemplate p.variableDelimiter none text = some template)
    (hpieces : template.mapM (TemplatePiece.piece vars) = some pieces)
    (hshort : ∀ s, Piece.text s ∈ pieces → s.length < 2 ^ 31) (hrecorded : Recorded vars seen p page.out) :
    ∃ q, printLoop buffers vars pending text p = some q ∧
      Printed start vars (seen ++ template) p.indentation p.variableDelimiter
        (pieces.foldl (writeDelayed p.indentation) (writeDelayed p.indentation page (.text pending))) q := by
  have hpendingLength : pending.length < 2 ^ 31 := by omega
  -- the loop goes on behind the closing delimiter, so the induction is on the length
  generalize hn : text.length = n at hlength
  induction n using Nat.strong_induction_on generalizing pending text p page seen template pieces with | _ n ih
  subst hn
  cases text with
  | nil =>
    cases hparse
    cases hpieces
    obtain ⟨q, page', hwrite, rfl, hprints, hindent, hdelimiter, hmoved⟩ :=
      h.writeRaw_spec hsucceeds hpendingLength hindentation
    rw [printLoop, append_nil]
    exact ⟨q, hwrite, hprints, hindent, hdelimiter, hrecorded.moved hmoved⟩
  | cons c text =>
    rw [length_cons] at hlength ih
    rw [parseTemplate] at hparse
    rw [printLoop]
    by_cases hnewline : c = newline
    · rw [if_pos hnewline, map_eq_some_iff] at hparse
      obtain ⟨template, htail, rfl⟩ := hparse
      obtain ⟨first, pieces, hfirst, hrest, rfl⟩ := piece_cons hpieces
      cases hfirst
      have hline : (pending ++ [c]).length < 2 ^ 31 := by
        rw [length_append, length_singleton]
        omega
      obtain ⟨q, page', hwrite, rfl, hprints, hindent, hdelimiter, hmoved⟩ :=
        h.writeRaw_spec hsucceeds hline hindentation
      have hout : (writeDelayed p.indentation page (.text (pending ++ [newline]))).out = _ :=
        writeDelayed_endLine p.indentation hpending
      have hprints' : Prints start { q with atStartOfLine := true, lineStartVariables := [] }
          (writeDelayed p.indentation (writeDelayed p.indentation page (.text pending)) .endLine) := by
        rw [hnewline] at hprints
        have hholds := hprints.holds
        rw [hout] at hholds
        exact ⟨⟨hholds.noError, hholds.size_le, hholds.last_le, hholds.out_eq, hholds.offset_eq⟩,
          iff_of_true rfl (by rintro ⟨⟩)⟩
      have hrecorded' : Recorded vars (seen ++ [.endLine]) { q with atStartOfLine := true, lineStartVariables := [] }
          (writeDelayed p.indentation (writeDelayed p.indentation page (.text pending)) .endLine).out := by
        rw [← hout, ← hnewline]
        exact (hrecorded.moved hmoved).startLine.append .endLine (by rintro _ ⟨⟩)
      obtain ⟨q', hloop, hprinted⟩ := ih text.length (Nat.lt_succ_self _) [] text hprints'
        (by rw [hindent]; exact hindentation) not_mem_nil (by rw [hdelimiter]; exact htail) hrest
        (fun s hs => hshort s (mem_cons_of_mem _ hs)) hrecorded' (by decide) rfl
        (by rw [length_nil]; omega)
      rw [if_pos hnewline, hwrite, bind_some]
      refine ⟨q', hloop, ?_⟩
      rw [hindent, hdelimiter, writeDelayed_nil, append_assoc] at hprinted
      exact hprinted
    · rw [if_neg hnewline] at hparse ⊢
      by_cases hdelimiter : c = p.variableDelimiter
      · rw [if_pos hdelimiter, parseTemplate_name, nil_append, ← hdelimiter] at hparse
        rw [if_pos hdelimiter]
        simp only
        generalize text.takeWhile (· ≠ c) = varname at hparse ⊢
        by_cases hclosed : varname.length = text.length
        · rw [if_pos hclosed] at hparse
          cases hparse
        rw [if_neg hclosed, map_eq_some_iff] at hparse
        obtain ⟨template, htail, rfl⟩ := hparse
        obtain ⟨first, pieces, hfirst, hrest, rfl⟩ := piece_cons hpieces
        obtain ⟨q, page', hwrite, rfl, hprints, hindent, hdelimiter', hmoved⟩ :=
          h.writeRaw_spec hsucceeds hpendingLength hindentation
        have hrecorded' := hrecorded.moved hmoved
        have hindentation' : q.indentation.length < 2 ^ 31 := hindent ▸ hindentation
        have hless : (text.drop (varname.length + 1)).length < text.length + 1 := by
          rw [length_drop]
          omega
        have hbound : ([] : Str).length + (text.drop (varname.length + 1)).length < 2 ^ 31 := by
          rw [length_nil]
          omega
        -- the piece between the delimiters, and what the loop does after it
        have hnext : ∀ q₂, Printed start vars (seen ++ [namedPiece c varname]) q.indentation q.variableDelimiter
            (writeDelayed q.indentation (writeDelayed p.indentation page (.text pending)) first) q₂ →
            ∃ q', printLoop buffers vars [] (text.drop (varname.length + 1)) q₂ = some q' ∧
              Printed start vars (seen ++ namedPiece c varname :: template) p.indentation p.variableDelimiter
                ((first :: pieces).foldl (writeDelayed p.indentation)
                  (writeDelayed p.indentation page (.text pending))) q' := by
          rintro q₂ ⟨hprints₂, hindent₂, hdelimiter₂, hrecorded₂⟩
          obtain ⟨q', hloop, hprinted⟩ := ih _ hless [] _ hprints₂ (by rw [hindent₂]; exact hindentation')
            not_mem_nil (by rw [hdelimiter₂, hdelimiter', ← hdelimiter]; exact htail) hrest
            (fun s hs => hshort s (mem_cons_of_mem _ hs)) hrecorded₂ (by decide) rfl hbound
          refine ⟨q', hloop, ?_⟩
          rw [hindent₂, hindent, hdelimiter₂, hdelimiter', writeDelayed_nil, append_assoc] at hprinted
          exact hprinted
        rw [if_neg hclosed, hwrite, bind_some]
        by_cases hname : varname = []
        · rw [namedPiece, if_pos hname] at hfirst
          cases hfirst
          obtain ⟨q₂, page₂, hwrite₂, rfl, hprints₂, hindent₂, hdelimiter₂, hmoved₂⟩ :=
            hprints.writeRaw_spec hsucceeds (hshort [c] mem_cons_self) hindentation'
          rw [if_pos hname, hwrite₂, bind_some]
          apply hnext q₂
          rw [namedPiece, if_pos hname]
          exact ⟨hprints₂, hindent₂, hdelimiter₂, (hrecorded'.moved hmoved₂).append (.char c) (by rintro _ ⟨⟩)⟩
        · rw [namedPiece, if_neg hname, TemplatePiece.piece, map_eq_some_iff] at hfirst
          obtain ⟨value, hvalue, rfl⟩ := hfirst
          obtain ⟨q₂, hwrite₂, hprints₂, hindent₂, hdelimiter₂, hrecorded₂⟩ :=
            hprints.writeVariable_spec hsucceeds hvalue (hshort value mem_cons_self) hindentation' hrecorded'
          rw [if_neg hname, hvalue, bind_some, hwrite₂, bind_some]
          apply hnext q₂
          rw [namedPiece, if_neg hname]
          exact ⟨hprints₂, hindent₂, hdelimiter₂, hrecorded₂⟩
      · rw [if_neg hdelimiter, map_eq_some_iff] at hparse
        obtain ⟨template, htail, rfl⟩ := hparse
        obtain ⟨first, pieces, hfirst, hrest, rfl⟩ := piece_cons hpieces
        cases hfirst
        have hline : (pending ++ [c]).length < 2 ^ 31 := by
          rw [length_append, length_singleton]
          omega
        have hpending' : newline ∉ pending ++ [c] := fun hmem => (mem_append.mp hmem).elim hpending
          fun hmem => hnewline (mem_singleton.mp hmem).symm
        obtain ⟨q, hloop, hprinted⟩ := ih text.length (Nat.lt_succ_self _) (pending ++ [c]) text h hindentation
          hpending' htail hrest (fun s hs => hshort s (mem_cons_of_mem _ hs)) (hrecorded.append (.char c) (by rintro _ ⟨⟩))
          hline rfl (by rw [length_append, length_singleton]; omega)
        rw [if_neg hdelimiter]
        refine ⟨q, hloop, ?_⟩
        rw [writeDelayed_append _ hpending, append_assoc] at hprinted
        exact hprinted

end Printer

end Protoc.Io
