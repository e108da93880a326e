import Protoc.Io.CodedInputLimitStack
import Protoc.Io.EpsCopyOutput

/-!
# Size-delimited messages

`ParseDelimitedFromCodedStream` reads a size and a message of exactly that size.  Where it cannot
read the size, it compares the position with the one before the read to tell the clean end of the
input from an error.
-/

namespace Protoc.Util

open Protoc.Lib Protoc.Io CodedInputStream List

/-! ## From the source -/

/-- What a call leaves: the return value, `*clean_eof`, the message and the stream. -/
structure ParsedDelimited (μ : Type) where
  returned : Bool
  cleanEof : Bool
  message : μ
  input : CodedInputStream

variable {μ : Type}

/-- `ParseDelimitedFromCodedStream`. -/
def parseDelimitedFromCodedStream
    (mergeFromCodedStream : μ → CodedInputStream → Bool × μ × CodedInputStream) (message : μ)
    (input : CodedInputStream) : ParsedDelimited μ :=
  let start := input.currentPosition
  match input.readVarint32 with
  | (false, _, input) => ⟨false, decide (input.currentPosition = start), message, input⟩
  | (true, size, input) =>
    let positionAfterSize := input.currentPosition
    let limited := input.pushLimit (toInt32 size)
    match mergeFromCodedStream message limited.2 with
    | (false, message, input) => ⟨false, false, message, input⟩
    | (true, message, input) =>
      if !input.consumedEntireMessage then ⟨false, false, message, input⟩
      else if (input.currentPosition : ℤ) - positionAfterSize ≠ toInt32 size then
        ⟨false, false, message, input⟩
      else ⟨true, false, message, input.popLimit limited.1⟩

/-! ## The end of the input -/

/-- The bytes of the data from the position to a limit. -/
def beforeLimit (data : List UInt8) (limit : ℕ) (s : CodedInputStream) : List UInt8 :=
  (data.drop s.currentPosition).take (limit - s.currentPosition)

/-- `clean_eof` says that the call fails because no byte is left. -/
def CleanEofExact (left : List UInt8) (r : ParsedDelimited μ) : Prop :=
  r.cleanEof = true ↔ r.returned = false ∧ left = []

/-- The buffer shows ten bytes, and every one of them continues. -/
def Refused (s : CodedInputStream) : Prop :=
  kMaxVarintBytes ≤ s.bufferSize ∧ ∀ b ∈ s.buffer.take kMaxVarintBytes, 0x80 ≤ b.toNat

instance (s : CodedInputStream) : Decidable (Refused s) := inferInstanceAs (Decidable (_ ∧ _))

variable {data : List UInt8} {top last : ℕ} {s : CodedInputStream}
  {merge : μ → CodedInputStream → Bool × μ × CodedInputStream}

theorem parse_of_failed (message : μ) (hfail : s.readVarint32.1 = false) :
    parseDelimitedFromCodedStream merge message s =
      ⟨false, decide (s.readVarint32.2.2.currentPosition = s.currentPosition), message,
        s.readVarint32.2.2⟩ := by
  rw [parseDelimitedFromCodedStream]
  split
  · next heq => rw [heq]
  · next heq =>
    rw [heq] at hfail
    exact absurd hfail.symm Bool.false_ne_true

theorem parse_of_read (message : μ) (hread : s.readVarint32.1 = true) :
    (parseDelimitedFromCodedStream merge message s).cleanEof = false := by
  rw [parseDelimitedFromCodedStream]
  split
  · next heq =>
    rw [heq] at hread
    exact absurd hread Bool.false_ne_true
  · dsimp only
    split
    · rfl
    · split
      · rfl
      · split <;> rfl

/-- The long path refuses a varint without a byte taken exactly where the buffer shows ten bytes
that continue. -/
theorem refused_iff_of_holdsVarint (hholds : s.holdsVarint) :
    readVarint kMaxVarintBytes s.buffer = none ↔ Refused s := by
  rw [readVarint_eq_none_iff, Refused]
  refine ⟨fun hall => ⟨?_, hall⟩, fun h => h.2⟩
  rcases hholds with hten | ⟨hpos, hlast⟩
  · exact hten
  · -- the byte that ends a varint is not among the first ten
    by_contra hfew
    have hidx : s.bufferSize - 1 < s.buffer.length := by
      have := Nat.sub_le s.buffer.length s.bufferSizeAfterLimit
      rw [bufferSize] at hpos ⊢
      omega
    rw [and_0x80_eq_zero (byteAt_lt _ _), byteAt_eq hidx] at hlast
    have hmem : s.buffer[s.bufferSize - 1] ∈ s.buffer.take kMaxVarintBytes := by
      apply mem_take_iff_getElem.mpr
      exact ⟨s.bufferSize - 1, by omega, rfl⟩
    have := hall _ hmem
    omega

theorem Refused.holdsVarint (h : Refused s) :
    s.holdsVarint ∧ ¬(0 < s.bufferSize ∧ byteAt s.buffer 0 < 0x80) := by
  refine ⟨.inl h.1, fun hshort => ?_⟩
  obtain ⟨b, rest, hbuffer⟩ := buffer_cons hshort.1
  have hfirst : 0x80 ≤ b.toNat := by
    apply h.2
    rw [hbuffer]
    exact mem_cons_self
  rw [hbuffer, byteAt_zero_cons] at hshort
  omega

theorem Refused.readVarint32 (h : Refused s) : s.readVarint32 = (false, 2 ^ 32 - 1, s) := by
  obtain ⟨hholds, hlong⟩ := h.holdsVarint
  have hpos := bufferSize_pos_of_holdsVarint hholds
  rw [CodedInputStream.readVarint32, if_neg hlong, readVarint32Fallback, if_pos hholds,
    firstByteOrZero, if_pos hpos, readVarint32FromArray_eq (firstByte_continues hlong hpos),
    (refused_iff_of_holdsVarint hholds).mpr h]
  rfl

theorem readVarint32_fails (hfail : s.readVarint32.1 = false) :
    Refused s ∨ ∃ bytes, Reads s bytes s.readVarint32.2.2 ∧
      (bytes.length = kMaxVarintBytes ∨ Stops s bytes) := by
  by_cases hshort : 0 < s.bufferSize ∧ byteAt s.buffer 0 < 0x80
  · rw [CodedInputStream.readVarint32, if_pos hshort] at hfail
    exact Bool.noConfusion hfail
  · rw [CodedInputStream.readVarint32, if_neg hshort, readVarint32Fallback] at hfail ⊢
    by_cases hholds : s.holdsVarint
    · have hpos := bufferSize_pos_of_holdsVarint hholds
      rw [if_pos hholds, firstByteOrZero, if_pos hpos,
        readVarint32FromArray_eq (firstByte_continues hshort hpos)] at hfail
      refine .inl ((refused_iff_of_holdsVarint hholds).mp ?_)
      cases hread : readVarint kMaxVarintBytes s.buffer with
      | none => rfl
      | some r =>
        have hvalue : (0 : ℤ) ≤ (r.1 % 2 ^ 32 : ℕ) := Int.natCast_nonneg _
        rw [hread] at hfail
        exact absurd hvalue (of_decide_eq_false hfail)
    · rw [if_neg hholds, readVarint32Slow, readVarint64Fallback, if_neg hholds] at hfail ⊢
      obtain ⟨bytes, hreads, hvalue⟩ := readVarint64Slow_reads s
      generalize s.readVarint64Slow = slow at hreads hvalue hfail
      obtain ⟨ok, value, t⟩ := slow
      rcases hvalue with ⟨rfl, -⟩ | ⟨rfl, -, -, hend⟩
      · have hvalue : (0 : ℤ) ≤ (value % 2 ^ 32 : ℕ) := Int.natCast_nonneg _
        exact absurd hvalue (of_decide_eq_false hfail)
      · exact .inr ⟨bytes, hreads, hend⟩

section
variable (h : Stands data top last s)
include h

theorem readVarint32_of_end (hend : readable data s = []) : s.readVarint32.1 = false := by
  obtain ⟨bytes, hreads, hvalue⟩ := readVarint32_reads s
  rcases hvalue with ⟨-, v, hv, -⟩ | ⟨hfail, -⟩
  · obtain ⟨-, -, -, -, hreadable⟩ := hreads.stands h
    rw [hend] at hreadable
    have hnil := (append_eq_nil_iff.mp hreadable.symm).1
    have hpos := hv.length_pos
    rw [hnil] at hpos
    exact absurd hpos (by decide)
  · exact hfail

theorem Refused.readable_ne_nil (hrefused : Refused s) : readable data s ≠ [] := by
  intro hend
  have hfirst := h.take_readable hrefused.1
  have hbuffer : s.bufferSize ≤ s.buffer.length := Nat.sub_le _ _
  have hlength := congrArg List.length hfirst
  rw [hend, take_nil, length_nil, length_take, min_eq_left (le_trans hrefused.1 hbuffer)] at hlength
  exact absurd hlength (by decide)

theorem readVarint32_fails_of (hclean : readable data s = [] ∨ Refused s) : s.readVarint32.1 = false := by
  rcases hclean with hend | hrefused
  · exact readVarint32_of_end h hend
  · rw [hrefused.readVarint32]

/-- A failed `ReadVarint32` leaves the position exactly where nothing can be read, and where it
refuses ten bytes at once. -/
theorem position_of_failed (hfail : s.readVarint32.1 = false) :
    s.readVarint32.2.2.currentPosition = s.currentPosition ↔ readable data s = [] ∨ Refused s := by
  rcases readVarint32_fails hfail with hrefused | ⟨bytes, hreads, hend⟩
  · rw [hrefused.readVarint32]
    exact iff_of_true rfl (.inr hrefused)
  · by_cases hrefused : Refused s
    · rw [hrefused.readVarint32]
      exact iff_of_true rfl (.inr hrefused)
    · obtain ⟨-, -, -, hposition, hreadable⟩ := hreads.stands h
      rw [hposition, or_iff_left hrefused, Nat.add_eq_left, length_eq_zero_iff]
      rcases hend with hten | hstop
      · -- ten bytes were taken, so there were some
        have hne : bytes ≠ [] := by
          rintro rfl
          exact absurd hten (by decide)
        refine iff_of_false hne fun hnil => hne ?_
        rw [hnil] at hreadable
        exact (append_eq_nil_iff.mp hreadable.symm).1
      · rw [hstop.readable_eq h]

/-- **When `clean_eof` is true**: where nothing can be read, and where the reader refuses ten bytes
at once. -/
theorem cleanEof_eq_true_iff (message : μ) : (parseDelimitedFromCodedStream merge message s).cleanEof = true ↔
      readable data s = [] ∨ Refused s := by
  cases hread : s.readVarint32.1 with
  | false =>
    rw [parse_of_failed message hread, decide_eq_true_iff]
    exact position_of_failed h hread
  | true =>
    rw [parse_of_read message hread]
    refine iff_of_false Bool.false_ne_true fun hclean => ?_
    rw [readVarint32_fails_of h hclean] at hread
    exact Bool.false_ne_true hread

theorem cleanEofExact_of_limit (message : μ) {limit : ℕ} (hlimit : s.closestLimit ≤ limit) :
    CleanEofExact (beforeLimit data limit s) (parseDelimitedFromCodedStream merge message s) ↔
      ¬Refused s ∧ (readable data s = [] → beforeLimit data limit s = []) := by
  have hreadable : beforeLimit data limit s = [] → readable data s = [] := by
    intro hnil
    have hprefix : readable data s <+: beforeLimit data limit s :=
      take_prefix_take_left (Nat.sub_le_sub_right hlimit _)
    rw [hnil] at hprefix
    exact prefix_nil.mp hprefix
  have hreturned : readable data s = [] ∨ Refused s →
      (parseDelimitedFromCodedStream merge message s).returned = false := by
    intro hclean
    rw [parse_of_failed message (readVarint32_fails_of h hclean)]
  rw [CleanEofExact, cleanEof_eq_true_iff h]
  constructor
  · intro hexact
    refine ⟨fun hrefused => ?_, fun hend => (hexact.mp (.inl hend)).2⟩
    exact hrefused.readable_ne_nil h (hreadable (hexact.mp (.inr hrefused)).2)
  · rintro ⟨hrefused, hend⟩
    constructor
    · intro hclean
      exact ⟨hreturned hclean, hend (hclean.resolve_right hrefused)⟩
    · intro hleft
      exact .inl (hreadable hleft.2)

end

/-- **A clean end of file is reported exactly** where the buffer does not show ten bytes that all
continue, and the total bytes limit does not cut off bytes before the current limit. -/
theorem cleanEofExact_iff {s₀ : CodedInputStream} {calls : List Call} {c : Caller CodedInputStream}
    (h : Opened data s₀) (run : Runs callStep InStep ⟨s₀, []⟩ calls c)
    (merge : μ → CodedInputStream → Bool × μ × CodedInputStream) (message : μ) :
    (CleanEofExact (beforeLimit data c.stream.currentLimit c.stream)
        (parseDelimitedFromCodedStream merge message c.stream) ↔
      ¬Refused c.stream ∧
        (readable data c.stream = [] → beforeLimit data c.stream.currentLimit c.stream = [])) ∧
      (CleanEofExact (readable data c.stream)
          (parseDelimitedFromCodedStream merge message c.stream) ↔ ¬Refused c.stream) := by
  obtain ⟨top, last, hstart⟩ := h.stands
  have hstands := (runs_stands hstart run).1.stream
  refine ⟨cleanEofExact_of_limit hstands message (Nat.min_le_left _ _), ?_⟩
  have hclosest : CleanEofExact (readable data c.stream)
      (parseDelimitedFromCodedStream merge message c.stream) ↔ _ :=
    cleanEofExact_of_limit hstands message le_rfl
  exact hclosest.trans (and_iff_left fun hend => hend)

/-- At the end of an array, the call says so. -/
theorem cleanEofExact_iff_end : ∃ c, exec callStep ⟨ofArray [1, 2], []⟩ [.op (.skip 2)] = some c ∧
      CleanEofExact [] (parseDelimitedFromCodedStream (fun _ input => (true, (), input)) () c.stream) := by
  refine ⟨_, rfl, ?_⟩
  have hrun : Runs callStep InStep ⟨ofArray [1, 2], []⟩ [.op (.skip 2)] _ := runs_of_execOk rfl
  exact (cleanEofExact_iff (.array [1, 2] (by decide)) hrun
    (fun _ input => (true, (), input)) ()).2.mpr (by decide)

/-- Ten bytes that all continue are taken for the clean end of the input. -/
theorem not_cleanEofExact_tenBytes :
    ¬∀ data s, Opened data s → CleanEofExact (beforeLimit data s.currentLimit s)
      (parseDelimitedFromCodedStream (fun _ input => (true, (), input)) () s) := by
  intro hclaim
  have hexact := hclaim _ _ (.array (replicate 10 0xFF) (by decide))
  exact absurd (hexact.mp (by decide)).2 (by decide)

end Protoc.Util
