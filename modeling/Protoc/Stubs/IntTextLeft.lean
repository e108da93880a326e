import Protoc.Stubs.IntTextPrint

/-!
# The printers at the start of the buffer

These printers write two digits at a time and jump into shared code, so that a label stands for
a field of fixed width.
-/

namespace Protoc.Stubs

open Protoc.Lib
open List Option

variable {m u : ℕ} {text : List UInt8} {f : Cursor → Option Cursor}

/-- The text and a zero, which is where the pointer ends. -/
def Puts (f : Cursor → Option Cursor) (text : List UInt8) : Prop :=
  ∀ front room back, room.length = text.length + 1 →
    f (.at front (room ++ back)) = some (.at (front ++ text) (0 :: back))

/-! ## Digits -/

theorem puts_done : Puts done [] := by
  intro front room back hroom
  obtain ⟨r, rfl⟩ := List.length_eq_one_iff.mp hroom
  rw [done, singleton_append, Cursor.poke_at, append_nil, ofInt_zero]

theorem puts_one (d : ℕ) (hf : Puts f text) :
    Puts (fun k => do f (← k.put (48 + (d : ℤ)))) (digitByte d :: text) := by
  intro front room back hroom
  cases room with
  | nil => exact absurd hroom (by simp)
  | cons r room =>
    change (Cursor.at front (r :: (room ++ back))).put (48 + (d : ℤ)) >>= f = _
    rw [Cursor.put_at, ofInt_digitByte, bind_eq_bind, bind_some,
      hf _ room back (Nat.succ.inj hroom), append_assoc, singleton_append]

theorem twoASCIIDigits_get : ∀ d < 100, ∃ c, twoASCIIDigits[d]? = some c ∧
    padded 2 d = [UInt8.ofInt c.1, UInt8.ofInt c.2] := by
  decide +kernel

theorem puts_two {d : ℕ} (hd : d < 100) (hf : Puts f text) :
    Puts (fun k => do f (← putTwo d k)) (padded 2 d ++ text) := by
  intro front room back hroom
  obtain ⟨c, hget, hpadded⟩ := twoASCIIDigits_get d hd
  match room with
  | [] | [_] => simp [hpadded] at hroom
  | r₁ :: r₂ :: room =>
    rw [hpadded] at hroom ⊢
    have hput : putTwo d (.at front (r₁ :: r₂ :: room ++ back)) =
        some (.at (front ++ [UInt8.ofInt c.1] ++ [UInt8.ofInt c.2]) (room ++ back)) := by
      rw [putTwo, if_pos (Int.natCast_nonneg d), Int.toNat_natCast, hget]
      simp only [bind_eq_bind, bind_some, cons_append, Cursor.put_at]
    change putTwo d _ >>= f = _
    rw [hput, bind_eq_bind, bind_some, hf _ room back (by simpa using hroom)]
    simp

/-! ## Labels -/

theorem subDigits_eq {t : IntType} (ht : 2 ^ 31 - 1 ≤ t.max) (hmin : t.min ≤ 0)
    (hu : u < 2 ^ 31 ∨ u < 2 ^ 32 ∧ t = .uint32) (n : ℕ) :
    subDigits t u ((u : ℤ).tdiv n) n = some ((u % n : ℕ) : ℤ) := by
  have hmul : u / n * n ≤ u := Nat.div_mul_le_self u n
  have hmod : u % n = u - u / n * n := by
    rw [Nat.mod_eq_sub_mul_div, mul_comm]
  have hproduct : (u : ℤ).tdiv n * n = (u / n * n : ℕ) := by
    rw [← Int.ofNat_tdiv, Nat.cast_mul]
  have hle : ((u / n * n : ℕ) : ℤ) ≤ t.max := by
    rcases hu with hu | ⟨hu, rfl⟩
    · omega
    · simp only [IntType.uint32]
      omega
  have hrest : (u : ℤ) - (u / n * n : ℕ) = (u % n : ℕ) := by omega
  rw [subDigits, hproduct, check_eq ⟨by omega, hle⟩, bind_eq_bind, bind_some, hrest, check_eq]
  have := Nat.mod_le u n
  simp only [IntType.uint32]
  omega

variable {n : ℕ}

theorem puts_sub {lt : ℤ → Cursor → Option Cursor} (hn : n = 10 ^ m)
    (hlt : ∀ v : ℕ, v < n → Puts (lt v) (padded m v)) (hu : u < 2 ^ 32) :
    Puts (fun k => do lt (← subDigits .uint32 u ((u : ℤ).tdiv n) n) k) (padded m u) := by
  have hpos : 0 < n := hn ▸ Nat.pow_pos (by decide)
  have hput := hlt (u % n) (Nat.mod_lt u hpos)
  rw [hn, padded_mod, ← hn] at hput
  rw [subDigits_eq (by decide) (by decide) (.inr ⟨hu, rfl⟩)]
  exact hput

theorem puts_lt {sub : ℤ → ℤ → Cursor → Option Cursor} (hn : n = 10 ^ m)
    (hsub : Puts (sub ((u : ℤ).tdiv n) u) (padded m u)) (hu : u < 100 * n) :
    Puts (fun k => do sub ((u : ℤ).tdiv n) u (← putTwo ((u : ℤ).tdiv n) k)) (padded (2 + m) u) := by
  have hd : u / n < 100 := Nat.div_lt_of_lt_mul (mul_comm 100 n ▸ hu)
  rw [← Int.ofNat_tdiv] at hsub ⊢
  rw [padded_append, ← hn]
  exact puts_two hd hsub

theorem puts_lt100 (hu : u < 100) : Puts (lt100 u) (padded 2 u) := by
  have h := puts_two hu puts_done
  rwa [append_nil] at h

theorem puts_sublt100 (hu : u < 2 ^ 32) : Puts (sublt100 ((u : ℤ).tdiv 100) u) (padded 2 u) :=
  puts_sub (n := 100) rfl (fun _ => puts_lt100) hu

theorem puts_lt10000 (hu : u < 10000) : Puts (lt10000 u) (padded 4 u) :=
  puts_lt (n := 100) rfl (puts_sublt100 (by omega)) hu

theorem puts_sublt10000 (hu : u < 2 ^ 32) : Puts (sublt10000 ((u : ℤ).tdiv 10000) u) (padded 4 u) :=
  puts_sub (n := 10000) rfl (fun _ => puts_lt10000) hu

theorem puts_lt1000000 (hu : u < 1000000) : Puts (lt1000000 u) (padded 6 u) :=
  puts_lt (n := 10000) rfl (puts_sublt10000 (by omega)) hu

theorem puts_sublt1000000 (hu : u < 2 ^ 32) : Puts (sublt1000000 ((u : ℤ).tdiv 1000000) u) (padded 6 u) :=
  puts_sub (n := 1000000) rfl (fun _ => puts_lt1000000) hu

theorem puts_lt100000000 (hu : u < 100000000) : Puts (lt100000000 u) (padded 8 u) :=
  puts_lt (n := 1000000) rfl (puts_sublt1000000 (by omega)) hu

theorem puts_sublt100000000 (hu : u < 2 ^ 32) : Puts (sublt100000000 ((u : ℤ).tdiv 100000000) u) (padded 8 u) :=
  puts_sub (n := 100000000) rfl (fun _ => puts_lt100000000) hu

/-! ## Printers -/

theorem puts_odd {sub : ℤ → ℤ → Cursor → Option Cursor} (hn : n = 10 ^ m)
    (hsub : Puts (sub ((u : ℤ).tdiv n) u) (padded m u)) (hle : n ≤ u) (hlt : u < 10 * n) :
    Puts (fun k => do sub ((u : ℤ).tdiv n) u (← k.put (48 + (u : ℤ).tdiv n))) (decimal u) := by
  have hd : u / n < 10 := Nat.div_lt_of_lt_mul (mul_comm 10 n ▸ hlt)
  rw [← Int.ofNat_tdiv] at hsub ⊢
  rw [decimal_append (hn ▸ hle), ← hn, decimal_of_lt hd]
  exact puts_one (u / n) hsub

theorem puts_putUInt32 (hu : u < 2 ^ 32) : Puts (putUInt32 u) (decimal u) := by
  have hsub2 := puts_sublt100 hu
  have hsub4 := puts_sublt10000 hu
  have hsub6 := puts_sublt1000000 hu
  have hsub8 := puts_sublt100000000 hu
  unfold putUInt32
  split_ifs with h10 h2 h1 h4 h3 h6 h5 h8 h7
  · rw [decimal_eq_padded (m := 9) (by omega) (by omega)]
    exact puts_lt (n := 100000000) rfl hsub8 (by omega)
  · rw [decimal_eq_padded (m := 1) (by omega) (by omega)]
    exact puts_lt100 (by omega)
  · rw [decimal_of_lt (by omega)]
    exact puts_one u puts_done
  · rw [decimal_eq_padded (m := 3) (by omega) (by omega)]
    exact puts_lt10000 (by omega)
  · exact puts_odd (n := 100) rfl hsub2 (by omega) (by omega)
  · rw [decimal_eq_padded (m := 5) (by omega) (by omega)]
    exact puts_lt1000000 (by omega)
  · exact puts_odd (n := 10000) rfl hsub4 (by omega) (by omega)
  · rw [decimal_eq_padded (m := 7) (by omega) (by omega)]
    exact puts_lt100000000 (by omega)
  · exact puts_odd (n := 1000000) rfl hsub6 (by omega) (by omega)
  · exact puts_odd (n := 100000000) rfl hsub8 (by omega) (by omega)

theorem puts_append {g : Cursor → Option Cursor} {text' : List UInt8} (hf : Puts f text)
    (hg : Puts g text') : Puts (fun k => do g (← f k)) (text ++ text') := by
  intro front room back hroom
  rw [length_append] at hroom
  have htake : (room.take (text.length + 1)).length = text.length + 1 :=
    length_take_of_le (by omega)
  have hdrop : (0 :: room.drop (text.length + 1)).length = text'.length + 1 := by
    rw [length_cons, length_drop]
    omega
  have hfirst := hf front (room.take (text.length + 1)) (room.drop (text.length + 1) ++ back) htake
  have hsecond := hg (front ++ text) (0 :: room.drop (text.length + 1)) back hdrop
  rw [← append_assoc, take_append_drop] at hfirst
  change f _ >>= g = _
  rw [hfirst, bind_eq_bind, bind_some, ← cons_append, hsecond, append_assoc]

theorem puts_two_sub {lt : ℤ → Cursor → Option Cursor} (hn : n = 10 ^ m)
    (hlt : ∀ v : ℕ, v < n → Puts (lt v) (padded m v)) (hu : u < 100 * n) (hbound : u < 2 ^ 31) :
    Puts (fun k => do
        let k ← putTwo ((u : ℤ).tdiv n) k
        let u ← subDigits .int32 u ((u : ℤ).tdiv n) n
        lt u k) (padded (2 + m) u) := by
  have hpos : 0 < n := hn ▸ Nat.pow_pos (by decide)
  have hput := hlt (u % n) (Nat.mod_lt u hpos)
  rw [hn, padded_mod, ← hn] at hput
  rw [subDigits_eq (by decide) (by decide) (.inl hbound)]
  have hd : u / n < 100 := Nat.div_lt_of_lt_mul (mul_comm 100 n ▸ hu)
  rw [← Int.ofNat_tdiv, padded_append, ← hn]
  exact puts_two hd hput

theorem puts_nine (hu : u < 1000000000) : Puts (fun k => do
        let k ← putTwo ((u : ℤ).tdiv 10000000) k
        let u ← subDigits .int32 u ((u : ℤ).tdiv 10000000) 10000000
        let k ← putTwo (u.tdiv 100000) k
        let u ← subDigits .int32 u (u.tdiv 100000) 100000
        let k ← putTwo (u.tdiv 1000) k
        let u ← subDigits .int32 u (u.tdiv 1000) 1000
        let k ← putTwo (u.tdiv 10) k
        let digits ← subDigits .int32 u (u.tdiv 10) 10
        let k ← k.put (48 + digits)
        k.poke 0) (padded 9 u) := by
  refine puts_two_sub (n := 10000000) (m := 7) rfl (fun v hv => ?_) (by omega) (by omega)
  refine puts_two_sub (n := 100000) (m := 5) rfl (fun v hv => ?_) (by omega) (by omega)
  refine puts_two_sub (n := 1000) (m := 3) rfl (fun v hv => ?_) (by omega) (by omega)
  refine puts_two_sub (n := 10) (m := 1) rfl (fun v hv => ?_) (by omega) (by omega)
  have hone : padded 1 v = [digitByte v] := by
    rw [padded, padded, Nat.mod_eq_of_lt hv, nil_append]
  rw [hone]
  exact puts_one v puts_done

theorem puts_check {t : IntType} {n : ℤ} {put : ℤ → Cursor → Option Cursor}
    (h : t.min ≤ n ∧ n ≤ t.max) (hput : Puts (put n) text) :
    Puts (fun k => do put (← t.check n) k) text := by
  rw [check_eq h]
  exact hput

theorem puts_putUInt64 (hu : u < 2 ^ 64) : Puts (putUInt64 u) (decimal u) := by
  induction u using Nat.strongRecOn with
  | ind u ih =>
    have hneg : ¬ (u : ℤ) < 0 := not_lt.mpr (Int.natCast_nonneg u)
    conv => arg 1; ext k; rw [putUInt64, if_neg hneg]
    by_cases hsmall : u < 2 ^ 32
    · have hmod : (u : ℤ) % 2 ^ 32 = u := Int.emod_eq_of_lt (Int.natCast_nonneg u) (by omega)
      simp only [hmod]
      exact puts_putUInt32 hsmall
    · have hmod : (u : ℤ) % 2 ^ 32 ≠ u := by omega
      have htop : (u : ℤ).tdiv 1000000000 = (u / 1000000000 : ℕ) := Int.tdiv_eq_ediv_of_nonneg
        (Int.natCast_nonneg u)
      have hrest : (u : ℤ) - (u / 1000000000 : ℕ) * 1000000000 = (u % 1000000000 : ℕ) := by omega
      have hbound : u % 1000000000 < 1000000000 := by omega
      have hlast : ((u % 1000000000 : ℕ) : ℤ) % 2 ^ 32 = (u % 1000000000 : ℕ) := by omega
      have hpow : 10 ^ 9 = 1000000000 := rfl
      have hpadded := padded_mod 9 u
      have hsplit := decimal_append (m := 9) (v := u) (by omega)
      rw [hpow] at hpadded hsplit
      rw [hsplit]
      simp only [if_neg hmod, htop]
      refine puts_append (ih (u / 1000000000) (by omega) (by omega)) ?_
      refine puts_check (by simp only [IntType.uint64]; omega) ?_
      refine puts_check (by simp only [IntType.uint64]; omega) ?_
      rw [hrest, hlast, ← hpadded]
      exact puts_nine hbound

theorem puts_putSigned (size : ℕ) {put : ℤ → Cursor → Option Cursor} {i : ℤ}
    (hi : i.natAbs < size) (hput : Puts (put i.natAbs) (decimal i.natAbs)) :
    Puts (putSigned size put i) (decimalInt i) := by
  unfold putSigned
  rw [decimalInt]
  split_ifs with hneg
  · have hmod : (0 - i) % size = i.natAbs := by
      rw [Int.emod_eq_of_lt (by omega) (by omega)]
      omega
    rw [hmod]
    intro front room back hroom
    cases room with
    | nil => exact absurd hroom (by simp)
    | cons r room =>
      change (Cursor.at front (r :: (room ++ back))).put 45 >>= put i.natAbs = _
      rw [Cursor.put_at, ofInt_minus, bind_eq_bind, bind_some,
        hput _ room back (Nat.succ.inj hroom), append_assoc, singleton_append]
  · have hmod : i % size = i.natAbs := by
      rw [Int.emod_eq_of_lt (by omega) (by omega)]
      omega
    rw [hmod]
    exact hput

theorem toBufferLeft_eq {put : Cursor → Option Cursor} {buffer : List UInt8} (hput : Puts put text)
    (hbuffer : text.length < buffer.length) : toBufferLeft put buffer =
      some (text ++ 0 :: buffer.drop (text.length + 1), (text.length : ℤ)) := by
  have htake : (buffer.take (text.length + 1)).length = text.length + 1 :=
    length_take_of_le hbuffer
  have h := hput [] (buffer.take (text.length + 1)) (buffer.drop (text.length + 1)) htake
  rw [take_append_drop, nil_append] at h
  rw [toBufferLeft]
  change Option.map _ (put (.at [] buffer)) = _
  rw [h]
  rfl

end Protoc.Stubs
