import Mathlib.Data.List.Basic

/-!
# Decoders that look only at what they take

A decoder reads a value from the head of a list and says how many entries it took.  A
local one looks at no others, so it does the same on every list that starts with them.
Two lists that agree as far as both go then decode to the same value, or the one that
goes further decodes past the end of the other.
-/

namespace Protoc.Lib

open List

variable {α β : Type}

/-! ## Lists that agree -/

def Agree (xs ys : List β) : Prop := xs.take ys.length = ys.take xs.length

variable {xs ys zs : List β}

theorem Agree.symm (h : Agree xs ys) : Agree ys xs := Eq.symm h

theorem Agree.take_eq (h : Agree xs ys) {k : ℕ} (hx : k ≤ xs.length) (hy : k ≤ ys.length) :
    xs.take k = ys.take k := by
  have htake := congrArg (List.take k) h
  rwa [take_take, take_take, Nat.min_eq_left hy, Nat.min_eq_left hx] at htake

theorem Agree.drop (h : Agree xs ys) (k : ℕ) : Agree (xs.drop k) (ys.drop k) := by
  have hdrop := congrArg (List.drop k) h
  rw [drop_take, drop_take] at hdrop
  rwa [Agree, length_drop, length_drop]

theorem Agree.take (h : Agree xs ys) (k : ℕ) : Agree (xs.take k) ys := by
  have htake := congrArg (List.take k) h
  rw [take_take, take_take] at htake
  rw [Agree, take_take, length_take, Nat.min_comm, htake]

theorem agree_append (xs zs : List β) : Agree xs (xs ++ zs) := by
  rw [Agree, take_left, take_of_length_le (by simp)]

theorem Agree.take_right (h : Agree xs ys) (k : ℕ) : Agree xs (ys.take k) := (h.symm.take k).symm

/-- A list may be gone on with at will behind the end of the other one, and before it with
what goes on there. -/
theorem Agree.append (h : Agree xs ys) (hmore : Agree zs (ys.drop xs.length)) : Agree (xs ++ zs) ys := by
  by_cases hle : xs.length ≤ ys.length
  · have hxs : xs = ys.take xs.length := by
      rw [← h.take_eq (Nat.le_refl _) hle, take_length]
    rw [Agree, length_drop] at hmore
    rw [Agree, take_append, take_of_length_le hle, hmore, length_append, take_add, ← hxs]
  · have hle : ys.length ≤ xs.length := Nat.le_of_not_le hle
    rw [Agree, take_append_of_le_length hle, h, take_of_length_le hle, take_of_length_le (by simp; omega)]

theorem agree_nil (xs : List β) : Agree xs [] := by simp [Agree]

theorem getElem?_of_take_eq {k i : ℕ} (h : xs.take k = ys.take k) (hi : i < k) : xs[i]? = ys[i]? := by
  rw [← List.getElem?_take_of_lt hi, h, List.getElem?_take_of_lt hi]

/-! ## Decoders -/

/-- A value at the head of the list, and the number of entries it takes. -/
abbrev Decoder (β α : Type) := List β → Option (ℕ × α)

/-- What is decoded takes more than `i` entries and `n` at most, and depends on them
alone. -/
def Decoder.Looks (i n : ℕ) (D : Decoder β α) : Prop :=
  ∀ ⦃xs : List β⦄ ⦃len : ℕ⦄ ⦃a : α⦄, D xs = some (len, a) → i < len ∧ len ≤ n ∧ len ≤ xs.length ∧
      ∀ ys : List β, ys.take len = xs.take len → D ys = some (len, a)

/-- What is decoded takes one entry at least and `n` at most. -/
abbrev Decoder.Local (n : ℕ) (D : Decoder β α) : Prop := D.Looks 0 n

theorem Decoder.looks_none (i n : ℕ) : Decoder.Looks i n (fun _ : List β => (none : Option (ℕ × α))) := by
  intro xs len a h
  cases h

theorem Decoder.Looks.step {c : β → Prop} [DecidablePred c] {f : β → α} {D : β → Decoder β α}
    {i n : ℕ} (hn : i < n) (hD : ∀ b, (D b).Looks (i + 1) n) :
    Decoder.Looks i n fun xs : List β =>
      xs[i]?.bind fun b => if c b then some (i + 1, f b) else D b xs := by
  intro xs len a h
  obtain ⟨b, hb, hthen⟩ := Option.bind_eq_some_iff.mp h
  have hlength : i < xs.length := (List.getElem?_eq_some_iff.mp hb).1
  have hread : ∀ ys : List β, ys.take len = xs.take len → i < len → ys[i]? = some b := by
    intro ys hys hlt
    rw [getElem?_of_take_eq hys hlt, hb]
  by_cases hend : c b
  · rw [if_pos hend] at hthen
    cases hthen
    refine ⟨by omega, by omega, by omega, ?_⟩
    intro ys hys
    simp only [hread ys hys (by omega), Option.bind_some, if_pos hend]
  · rw [if_neg hend] at hthen
    obtain ⟨hlt, hle, hlen, hdet⟩ := hD b hthen
    refine ⟨by omega, hle, hlen, ?_⟩
    intro ys hys
    simp only [hread ys hys (by omega), Option.bind_some, if_neg hend]
    exact hdet ys hys

namespace Decoder.Local

variable {D : Decoder β α} {n len : ℕ} {a : α}

theorem of_agree (hD : D.Local n) (h : Agree xs ys) (hroom : n ≤ xs.length)
    (hys : D ys = some (len, a)) : D xs = some (len, a) := by
  obtain ⟨-, hn, hlen, hdet⟩ := hD hys
  exact hdet xs (h.take_eq (Nat.le_trans hn hroom) hlen)

theorem overrun (hD : D.Local n) (h : Agree xs ys) (hys : D ys = none)
    (hxs : D xs = some (len, a)) : ys.length < len := by
  obtain ⟨-, -, hlen, hdet⟩ := hD hxs
  by_contra hle
  have hsome := hdet ys (h.take_eq hlen (Nat.le_of_not_lt hle)).symm
  simp [hys] at hsome

theorem take_eq (hD : D.Local n) {m : ℕ} (hm : n ≤ m) (xs : List β) : D (xs.take m) = D xs := by
  cases hxs : D xs with
  | some v =>
    obtain ⟨len, a⟩ := v
    obtain ⟨-, hn, -, hdet⟩ := hD hxs
    apply hdet
    rw [take_take, Nat.min_eq_left (Nat.le_trans hn hm)]
  | none =>
    cases htake : D (xs.take m) with
    | none => rfl
    | some v =>
      obtain ⟨len, a⟩ := v
      obtain ⟨-, hn, -, hdet⟩ := hD htake
      have hsome := hdet xs (by rw [take_take, Nat.min_eq_left (Nat.le_trans hn hm)])
      simp [hxs] at hsome

end Decoder.Local

end Protoc.Lib
