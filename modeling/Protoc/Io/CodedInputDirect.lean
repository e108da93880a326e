import Protoc.Io.CodedInputLimitStack

/-!
# The buffer of a coded input stream

`GetDirectBufferPointer` promises a buffer that is not empty, or false.  `Refresh` stops at a
pushed limit but not at the total bytes limit: there it takes one more chunk, and hides all
of it.
-/

namespace Protoc.Io

open Protoc.Lib CodedInputStream

/-- The contract of `GetDirectBufferPointer`: it fails, or points to bytes. -/
def KeepsContract (s : CodedInputStream) : Prop := s.getDirectBufferPointer.1 = false ∨
    ∃ bytes, s.getDirectBufferPointer.2.1 = some bytes ∧ 0 < bytes.length

/-- The buffer is used up at the total bytes limit, below the pushed limit, and the stream has
more bytes. -/
def AtTotalLimit (s : CodedInputStream) : Prop :=
  s.bufferSize = 0 ∧ s.totalBytesRead = s.totalBytesLimit ∧ s.totalBytesLimit < s.currentLimit ∧
    s.behind ≠ []

variable {data : List UInt8} {top last : ℕ} {s : CodedInputStream} {calls : List Call}
  {c : Caller CodedInputStream}

/-- A refill succeeds before the pushed limit, while the stream has bytes. -/
theorem refresh_fst (h : Stands data top last s) : s.refresh.1 = true ↔
      s.totalBytesRead < s.currentLimit ∧ s.totalBytesRead ≤ s.totalBytesLimit ∧ s.behind ≠ [] := by
  have hafter := h.after
  have hclosest := h.closest_le
  have hcut := h.overflow
  have hlimit := le_trans h.limit_le_top h.top_le
  rw [closestLimit] at hafter hclosest
  by_cases hhit : 0 < s.bufferSizeAfterLimit ∨ 0 < s.overflowBytes ∨
      s.totalBytesRead = s.currentLimit
  · rw [CodedInputStream.refresh, if_pos hhit]
    refine iff_of_false (by simp) ?_
    rintro ⟨hbelow, htotal, -⟩
    omega
  · rw [CodedInputStream.refresh, if_neg hhit]
    have hbelow : s.totalBytesRead < s.currentLimit ∧ s.totalBytesRead ≤ s.totalBytesLimit := by omega
    cases hinput : s.input with
    | none =>
      have hflat := h.flat hinput
      have htop := h.limit_le_top
      omega
    | some input =>
      have hbehind : s.behind = input.remaining := by
        rw [behind, hinput]
        rfl
      rw [hbehind]
      dsimp only
      have hnext := input.nextNonEmpty_spec
      generalize input.nextNonEmpty = next at hnext
      obtain ⟨found, input'⟩ := next
      rcases hnext with ⟨rfl, hnone, -⟩ | ⟨chunk, rfl, hne, hmore, -⟩
      · rw [hnone]
        exact iff_of_false (by simp) (by simp)
      · refine iff_of_true rfl ⟨hbelow.1, hbelow.2, ?_⟩
        rw [hmore]
        simp [hne]

theorem refresh_read (h : Stands data top last s)
    (hok : s.refresh.1 = true) : s.totalBytesRead < s.refresh.2.totalBytesRead := by
  have hbelow := ((refresh_fst h).mp hok).1
  have hlimit := le_trans h.limit_le_top h.top_le
  rw [CodedInputStream.refresh] at hok ⊢
  split at hok
  · cases hok
  · next hhit =>
    rw [if_neg hhit]
    cases hinput : s.input with
    | none => simp [hinput] at hok
    | some input =>
      rw [hinput] at hok
      dsimp only at hok ⊢
      have hnext := input.nextNonEmpty_spec
      generalize input.nextNonEmpty = next at hnext hok
      obtain ⟨found, input'⟩ := next
      rcases hnext with ⟨rfl, -, -⟩ | ⟨chunk, rfl, hne, -, -⟩
      · cases hok
      · have hpos : 0 < chunk.length := List.length_pos_iff.mpr hne
        simp only [setBuffer]
        split
        · rw [recomputeBufferLimits_eq]
          dsimp only
          omega
        · rw [recomputeBufferLimits_eq]
          dsimp only
          omega

/-- **The contract** is kept in a state where the stream stands in its data, but for the total
bytes limit. -/
theorem Stands.keeps_iff (h : Stands data top last s) : KeepsContract s ↔ ¬ AtTotalLimit s := by
  rw [KeepsContract, getDirectBufferPointer, AtTotalLimit]
  by_cases hempty : s.bufferSize = 0
  · obtain ⟨hstands, hposition, hcurrent, htotal, -⟩ := h.refresh hempty
    have hfst := refresh_fst h
    have hread := refresh_read h
    rw [if_pos hempty]
    generalize s.refresh = refilled at hstands hposition hcurrent htotal hfst hread
    obtain ⟨ok, s'⟩ := refilled
    dsimp only at hstands hposition hcurrent htotal hfst hread
    cases ok with
    | false =>
      refine iff_of_true (.inl rfl) ?_
      rintro ⟨-, hat, hbelow, hmore⟩
      exact absurd (hfst.mpr ⟨by omega, by omega, hmore⟩) (by decide)
    | true =>
      obtain ⟨hbelow, hle, hmore⟩ := hfst.mp rfl
      -- the new buffer is visible from the old end to the closest limit
      have hold := h.sizes.2.2.2
      have hnew := hstands.sizes.2.2.2
      have hlonger := hread rfl
      rw [closestLimit] at hold hnew
      rw [hcurrent, htotal] at hnew
      simp only [Bool.true_eq_false, false_or, Option.some.injEq, exists_eq_left', hstands.length_visible]
      constructor
      · rintro hpos ⟨-, hat, -, -⟩
        omega
      · intro hnot
        have hne : s.totalBytesRead ≠ s.totalBytesLimit := fun hat =>
          hnot ⟨hempty, hat, by omega, hmore⟩
        omega
  · rw [if_neg hempty]
    refine iff_of_true (.inr ⟨_, rfl, ?_⟩) fun hat => hempty hat.1
    rw [h.length_visible]
    exact Nat.pos_of_ne_zero hempty

/-- **The contract of `GetDirectBufferPointer`.**  In every state of a run it is kept, unless the
buffer is used up at the total bytes limit. -/
theorem keepsContract_iff (h : Opened data s) (run : Runs callStep InStep ⟨s, []⟩ calls c) :
    KeepsContract c.stream ↔ ¬ AtTotalLimit c.stream := by
  obtain ⟨top, last, hstart⟩ := h.stands
  exact (runs_stands hstart run).1.stream.keeps_iff

/-- Two bytes are left before the pushed limit. -/
theorem keepsContract_iff_pushed :
    ∃ c, exec callStep ⟨ofStream ⟨[[1], [2, 3, 4]], 0⟩, []⟩ [.op (.pushLimit 3), .op (.skip 1)] = some c ∧
      (KeepsContract c.stream ↔ ¬ AtTotalLimit c.stream) := by
  refine ⟨_, rfl, ?_⟩
  have hrun : Runs callStep InStep ⟨ofStream ⟨[[1], [2, 3, 4]], 0⟩, []⟩
      [.op (.pushLimit 3), .op (.skip 1)] _ := runs_of_execOk rfl
  exact keepsContract_iff (.stream ⟨[[1], [2, 3, 4]], 0⟩ (by decide)) hrun

/-- One of two bytes is read under a total bytes limit of one: the second chunk is hidden, and the
pointer is to no byte. -/
theorem not_keepsContract_totalLimit :
    ¬ ∀ data s calls c, Opened data s → Runs callStep InStep ⟨s, []⟩ calls c →
      KeepsContract c.stream := by
  intro h
  have hrun : Runs callStep InStep ⟨ofStream ⟨[[1], [2]], 0⟩, []⟩
      [.setTotalBytesLimit 1, .op (.skip 1)] _ := runs_of_execOk rfl
  rcases h _ _ _ _ (.stream ⟨[[1], [2]], 0⟩ (by decide)) hrun with hfail | ⟨bytes, hsome, hpos⟩
  · exact absurd hfail (by decide)
  · obtain rfl := Option.some.inj hsome
    exact absurd hpos (by decide)

end Protoc.Io
