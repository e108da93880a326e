import Protoc.Io.CodedInputReader

/-!
# Chunks do not matter

Over a flat array the limit pushed by the constructor is the length of the data, and over
a stream there is none.  The reader at the lower limit does the same as the other one, but
for a tag at the end of the data when that is the total bytes limit, too: the array's own
limit makes it the end of the message.
-/

namespace Protoc.Io

open Protoc.Lib CodedInputStream Reader

/-- The reader with its limit lowered to the length of the data. -/
def Reader.cap (length : ℕ) (r : Reader) : Reader := { r with limit := min r.limit length }

def Caller.cap (length : ℕ) (a : Caller Reader) : Caller Reader :=
  ⟨a.stream.cap length, a.limits.map (min · length)⟩

def Reader.Within (data : List UInt8) (total : ℕ) (r : Reader) : Prop :=
  r.pos ≤ r.limit ∧ r.pos ≤ total ∧ r.pos ≤ data.length

variable {data : List UInt8} {total top : ℕ} {r : Reader} {a : Caller Reader}

@[simp] theorem Reader.readable_cap : (r.cap data.length).readable data total = r.readable data total := by
  have hstop : (r.cap data.length).stop data total = r.stop data total := by
    simp only [stop, cap]
    omega
  rw [readable, readable, hstop]
  rfl

theorem Reader.varint_cap : (r.cap data.length).varint data total =
      (r.varint data total).map fun v => (v.1, v.2.cap data.length) := by
  rw [varint, varint, readable_cap, Option.map_map]
  rfl

/-- The message ends at the same places, but for the end of the data at the total bytes
limit. -/
theorem Reader.atMessageEnd_cap (h : r.Within data total) :
    (r.cap data.length).atMessageEnd total = r.atMessageEnd total ∨
      total = data.length ∧ r.pos = data.length ∧ r.atMessageEnd total = false ∧
        (r.cap data.length).atMessageEnd total = true := by
  obtain ⟨hlimit, htotal, hlength⟩ := h
  by_cases hbefore : r.pos < total
  · exact .inl (by simp [atMessageEnd, cap, hbefore])
  · by_cases hend : total = data.length
    · by_cases hequal : r.limit = total
      · exact .inl (by simp [atMessageEnd, cap, hequal, hend])
      · have hcap : min r.limit data.length = total := by omega
        exact .inr ⟨hend, by omega, by simp [atMessageEnd, hbefore, hequal],
          by simp [atMessageEnd, cap, hcap]⟩
    · have hcap : min r.limit data.length = total ↔ r.limit = total := by omega
      exact .inl (by simp [atMessageEnd, cap, hcap])

theorem Reader.push_cap (h : r.Within data total) (byteLimit : ℤ) :
    (r.cap data.length).push byteLimit = (r.push byteLimit).cap data.length := by
  obtain ⟨hlimit, htotal, hlength⟩ := h
  have hcapLimit : (r.cap data.length).limit = min r.limit data.length := rfl
  have hcapPos : (r.cap data.length).pos = r.pos := rfl
  rw [push, push, hcapLimit, hcapPos]
  by_cases hlow : 0 ≤ byteLimit ∧ byteLimit ≤ INT_MAX - (r.pos : ℤ) ∧
      byteLimit < ((min r.limit data.length : ℕ) : ℤ) - (r.pos : ℤ)
  · rw [if_pos hlow, if_pos (by omega)]
    simp only [cap, mk.injEq, true_and, and_true]
    omega
  · rw [if_neg hlow]
    split
    · simp only [cap, mk.injEq, true_and, and_true]
      omega
    · rfl

def capResult (length : ℕ) : Option (Bool × Value × Caller Reader) → Option (Bool × Value × Caller Reader) :=
  Option.map fun result => (result.1, result.2.1, result.2.2.cap length)

/-- A tag at the end of the data is no tag for the reader, and for the lowered one the end
of the message. -/
def TagAtEnd (data : List UInt8) (total : ℕ) (a : Caller Reader) (op : Op) : Prop :=
  op = .readTag ∧ total = data.length ∧
    (∃ c, Reader.perform data total a op = some (false, .number 0, c)) ∧
    ∃ c, Reader.perform data total (a.cap data.length) op = some (true, .number 0, c) ∧
      c.stream.pos = data.length

/-- **A call** at the lower limits. -/
theorem perform_cap (h : a.stream.Within data total) (op : Op) :
    Reader.perform data total (a.cap data.length) op = capResult data.length (Reader.perform data total a op) ∨
      TagAtEnd data total a op := by
  cases op with
  | readVarint32 | readVarint64 =>
    apply Or.inl
    simp only [Reader.perform, Caller.cap, varint_cap]
    cases a.stream.varint data total <;> rfl
  | readVarintSizeAsInt =>
    apply Or.inl
    simp only [Reader.perform, Caller.cap, varint_cap]
    cases a.stream.varint data total with
    | none => rfl
    | some v =>
      simp only [Option.map_some]
      split <;> rfl
  | readLittleEndian32 | readLittleEndian64 =>
    apply Or.inl
    simp only [Reader.perform, Caller.cap, littleEndian, readable_cap]
    split <;> rfl
  | readRaw size =>
    apply Or.inl
    simp only [Reader.perform, Caller.cap, bytes, readable_cap]
    rfl
  | readString size | skip size =>
    apply Or.inl
    simp only [Reader.perform, Caller.cap, bytes, readable_cap]
    split <;> rfl
  | readTag =>
    by_cases hnil : a.stream.readable data total = []
    · rcases atMessageEnd_cap h with hsame | ⟨htotal, hpos, hno, hyes⟩
      · apply Or.inl
        simp only [Reader.perform, Caller.cap, tag, readable_cap, if_pos hnil, hsame]
        rfl
      · apply Or.inr
        refine ⟨rfl, htotal, ⟨⟨{ a.stream with legitimateMessageEnd := false }, a.limits⟩, ?_⟩,
          ⟨⟨{ a.stream.cap data.length with legitimateMessageEnd := true },
            (a.cap data.length).limits⟩, ?_, hpos⟩⟩
        · simp only [Reader.perform, tag, if_pos hnil, hno]
          rfl
        · simp only [Reader.perform, Caller.cap, tag, readable_cap, if_pos hnil, hyes]
          rfl
    · apply Or.inl
      simp only [Reader.perform, Caller.cap, tag, readable_cap, if_neg hnil, varint_cap]
      cases a.stream.varint data total <;> rfl
  | pushLimit byteLimit =>
    apply Or.inl
    simp only [Reader.perform, Caller.cap, push_cap h]
    rfl
  | popLimit =>
    apply Or.inl
    simp only [Reader.perform, Caller.cap]
    cases a.limits <;> rfl
  | consumedEntireMessage => exact .inl rfl

/-- The outcomes over a stream and over the flat array are the same, or they are up to a
`ReadTag` at the end of the data, where the total bytes limit is: both return 0, and only
the array takes it for the end of the message. -/
def Agree (ops : List Op) (total length : ℕ) (chunked flat : List Outcome) : Prop :=
  chunked = flat ∨ total = length ∧ ∃ pre rest, ops[pre.length]? = some .readTag ∧
      chunked = pre ++ [⟨false, .number 0, none⟩] ∧
      flat = pre ++ ⟨true, .number 0, some length⟩ :: rest

theorem Agree.cons {ops : List Op} {length : ℕ} {chunked flat : List Outcome}
    (h : Agree ops total length chunked flat) (op : Op) (outcome : Outcome) :
    Agree (op :: ops) total length (outcome :: chunked) (outcome :: flat) := by
  rcases h with rfl | ⟨htotal, pre, rest, hop, rfl, rfl⟩
  · exact .inl rfl
  · exact .inr ⟨htotal, outcome :: pre, rest, by simpa using hop, rfl, rfl⟩

/-- **A sequence of calls** at the lower limits. -/
theorem run_cap {c : Caller CodedInputStream} (h : CallerRefines data total top c a)
    (hdata : data.length ≤ INT_MAX) (ops : List Op) :
    Agree ops total data.length (run (Reader.perform data total) pos a ops)
      (run (Reader.perform data total) pos (a.cap data.length) ops) := by
  induction ops generalizing c a with
  | nil => exact .inl rfl
  | cons op ops ih =>
    have hwithin : a.stream.Within data total :=
      ⟨h.stream.pos_le_limit, h.stream.pos_le_total, h.stream.pos_le_length⟩
    have hcall := perform_refines h hdata op
    rw [run, run]
    rcases perform_cap hwithin op with hcap | ⟨rfl, htotal, ⟨c', hfail⟩, c'', hok, hpos⟩
    · rw [hcap]
      generalize CodedInputStream.perform c op = result at hcall
      generalize Reader.perform data total a op = result' at hcall
      cases result' with
      | none => exact .inl rfl
      | some call' =>
        obtain ⟨ok, value, a'⟩ := call'
        cases result with
        | none => exact hcall.elim
        | some call =>
          obtain ⟨ok', value', c'⟩ := call
          obtain ⟨rfl, rfl, hnext⟩ := hcall
          cases ok' with
          | false => exact .inl rfl
          | true => exact (ih (hnext rfl)).cons op _
    · rw [hfail, hok]
      refine .inr ⟨htotal, [], run (Reader.perform data total) pos c'' ops, rfl, rfl, ?_⟩
      simp only [hpos, List.nil_append]

/-! ## The two constructors -/

theorem ofStream_refines {chunks : List (List UInt8)} (hdata : chunks.flatten.length ≤ INT_MAX)
    (totalBytesLimit : ℤ) : Refines chunks.flatten totalBytesLimit.toNat INT_MAX
      ((ofStream ⟨chunks, 0⟩).setTotalBytesLimit totalBytesLimit) ⟨0, INT_MAX, false⟩ := by
  have hempty : Refines chunks.flatten INT_MAX INT_MAX
      ⟨[], 0, some ⟨chunks, 0⟩, 0, 0, 0, false, INT_MAX, INT_MAX⟩ ⟨0, INT_MAX, false⟩ := by
    refine ⟨⟨rfl, rfl, rfl, rfl, by simp, by simp, by simp, rfl, rfl, by simp, by simp, by simp⟩, ?_⟩
    simp
  have hfirst := (refresh_refines hempty hdata rfl).1
  rw [setTotalBytesLimit, ofStream, hfirst.currentPosition, Nat.zero_max]
  apply Positioned.recompute
  exact ⟨rfl, hfirst.currentLimit, hfirst.legitimate, hfirst.overflow, hfirst.pos_le_limit,
    Nat.zero_le _, hfirst.pos_le_length, hfirst.rest, hfirst.totalBytesRead, hfirst.limit_le_top,
    hfirst.flat, by simp⟩

theorem ofArray_refines (data : List UInt8) (totalBytesLimit : ℤ) :
    Refines data totalBytesLimit.toNat data.length
      ((ofArray data).setTotalBytesLimit totalBytesLimit) ⟨0, data.length, false⟩ := by
  have hposition : (ofArray data).currentPosition = 0 := by
    simp [currentPosition, ofArray, bufferSize]
  rw [setTotalBytesLimit, hposition, Nat.zero_max]
  apply Positioned.recompute
  refine ⟨rfl, rfl, rfl, rfl, by simp, by simp, by simp, ?_, ?_, by simp, by simp, by simp⟩
  · simp [behind, ofArray]
  · simp [ofArray]

def runStream (chunks : List (List UInt8)) (totalBytesLimit : ℤ) (ops : List Op) : List Outcome :=
  run CodedInputStream.perform currentPosition
    ⟨(ofStream ⟨chunks, 0⟩).setTotalBytesLimit totalBytesLimit, []⟩ ops

def runArray (data : List UInt8) (totalBytesLimit : ℤ) (ops : List Op) : List Outcome :=
  run CodedInputStream.perform currentPosition
    ⟨(ofArray data).setTotalBytesLimit totalBytesLimit, []⟩ ops

/-- **Chunks.**  However a stream cuts its bytes, the calls have the outcomes they have
over the flat array, up to the first one that fails. -/
theorem chunks_agree (chunks : List (List UInt8)) (totalBytesLimit : ℤ) (ops : List Op)
    (hdata : chunks.flatten.length ≤ INT_MAX) :
    Agree ops totalBytesLimit.toNat chunks.flatten.length (runStream chunks totalBytesLimit ops)
      (runArray chunks.flatten totalBytesLimit ops) := by
  have hstream : CallerRefines chunks.flatten totalBytesLimit.toNat INT_MAX
      ⟨(ofStream ⟨chunks, 0⟩).setTotalBytesLimit totalBytesLimit, []⟩
      ⟨⟨0, INT_MAX, false⟩, []⟩ :=
    ⟨ofStream_refines hdata totalBytesLimit, rfl, by simp, by simp⟩
  have harray : CallerRefines chunks.flatten totalBytesLimit.toNat chunks.flatten.length
      ⟨(ofArray chunks.flatten).setTotalBytesLimit totalBytesLimit, []⟩
      (Caller.cap chunks.flatten.length ⟨⟨0, INT_MAX, false⟩, []⟩) := by
    have hcap : cap chunks.flatten.length ⟨0, INT_MAX, false⟩ =
        ⟨0, chunks.flatten.length, false⟩ := by
      rw [cap, min_eq_right hdata]
    refine ⟨?_, rfl, by simp [Caller.cap], by simp [Caller.cap]⟩
    rw [Caller.cap, hcap]
    exact ofArray_refines chunks.flatten totalBytesLimit
  rw [runStream, runArray, run_refines hstream hdata, run_refines harray hdata]
  exact run_cap hstream hdata ops

theorem chunks_agree_threeChunks : Agree [.readTag, .readVarint64, .readTag] 3 3
      (runStream [[0x08], [], [0x96, 0x01]] 3 [.readTag, .readVarint64, .readTag])
      (runArray [0x08, 0x96, 0x01] 3 [.readTag, .readVarint64, .readTag]) :=
  chunks_agree [[0x08], [], [0x96, 0x01]] 3 [.readTag, .readVarint64, .readTag] (by decide)

/-- A second tag is asked for at the end of one byte, under a total bytes limit of one. -/
theorem chunks_differ : ¬ ∀ chunks totalBytesLimit ops, chunks.flatten.length ≤ INT_MAX →
      runStream chunks totalBytesLimit ops = runArray chunks.flatten totalBytesLimit ops := by
  intro h
  have hsame := h [[0x08]] 1 [.readTag, .readTag, .consumedEntireMessage] (by decide)
  exact absurd hsame (by decide)

end Protoc.Io
