import Protoc.Lib.Decimal
import Protoc.Stubs.Base64RoundTrip

/-!
# What the base 64 decoder means

The source is data characters with white space between them, up to a stop.  The loop over four
characters, its way back to one character at a time and the loop that cleans up read the same
data from it, as long as none of them meets a NUL on the way.
-/

namespace Protoc.Stubs

open Protoc.Lib
open List Option

namespace Unescape

/-! ## The meaning -/

/-- A table of the values of characters. -/
structure Table (unbase64 : List ℤ) : Prop where
  value : ∀ c, unbase64At unbase64 c < 0 ∧ unbase64At unbase64 c = -1 ∨
    ∃ v < 64, unbase64At unbase64 c = (v : ℕ)
  space : ∀ c, asciiIsspace c = true → unbase64At unbase64 c < 0
  pad : ∀ c, isPad64 c = true → unbase64At unbase64 c < 0
  nul : unbase64At unbase64 0 < 0

section
variable (unbase64 : List ℤ)

/-- The data of a source, and what is behind it: the first character that is neither data nor
white space, and the rest. -/
def scan : List UInt8 → List ℕ × List UInt8
  | [] => ([], [])
  | c :: src =>
    if 0 ≤ unbase64At unbase64 c then
      ((unbase64At unbase64 c).toNat :: (scan src).1, (scan src).2)
    else if asciiIsspace c then scan src
    else ([], c :: src)

end

/-- The bytes of values of six bits. -/
def packed : List ℕ → List UInt8
  | i :: j :: k :: l :: values => [UInt8.ofNat (numeral 64 0 [i, j, k, l] / 2 ^ 16),
      UInt8.ofNat (numeral 64 0 [i, j, k, l] / 2 ^ 8),
      UInt8.ofNat (numeral 64 0 [i, j, k, l])] ++ packed values
  | [i, j, k] =>
    [UInt8.ofNat (numeral 64 0 [i, j, k] / 2 ^ 10), UInt8.ofNat (numeral 64 0 [i, j, k] / 2 ^ 2)]
  | [i, j] => [UInt8.ofNat (numeral 64 0 [i, j] / 2 ^ 4)]
  | [_] | [] => []

/-- The outcome for the data and what is behind it. -/
def outcome (dest : Option (List UInt8)) (szdest : ℕ) (values : List ℕ) (rest : List UInt8) :
    Option (Option (List UInt8) × ℕ) :=
  if values.length % 4 = 1 ∨ dest.isSome ∧ szdest < (packed values).length then none
  else do
    let equals ← countEquals 0 rest
    if equals = 0 ∨ equals = (4 - values.length % 4) % 4 then
      some (dest.map fun dest => Ring.blit dest 0 (packed values), (packed values).length)
    else none

def meaning (unbase64 : List ℤ) (src : List UInt8) (dest : Option (List UInt8)) (szdest : ℕ) :
    Option (Option (List UInt8) × ℕ) :=
  outcome dest szdest (scan unbase64 src).1 (scan unbase64 src).2

example : meaning kUnBase64 [84, 87, 10, 70, 117] (some [0, 0, 0, 9]) 3 =
    some (some [77, 97, 110, 9], 3) := by decide +kernel

/-! ## Bytes of data -/

theorem packed_append {values : List ℕ} (h : values.length % 4 = 0) (values' : List ℕ) :
    packed (values ++ values') = packed values ++ packed values' := by
  induction values using packed.induct with
  | case1 i j k l values ih =>
    have hlength : values.length % 4 = 0 := by
      simp only [length_cons] at h
      omega
    simp only [cons_append, packed, ih hlength, append_assoc]
  | case2 => simp at h
  | case3 => simp at h
  | case4 => simp at h
  | case5 => rfl

theorem le_length_packed {values : List ℕ} (h : values.length % 4 = 0) (i j k l : ℕ) (values' : List ℕ) :
    (packed values).length + 3 ≤ (packed (values ++ i :: j :: k :: l :: values')).length := by
  rw [packed_append h, packed, length_append, length_append]
  simp only [length_cons, length_nil]
  omega

variable {unbase64 : List ℤ} {szdest : ℕ} {d : Unescape} {dest : Option (List UInt8)}
  {groups pending : List ℕ} {src : List UInt8}

theorem scan_length (unbase64 : List ℤ) (src : List UInt8) : (scan unbase64 src).2.length ≤ src.length := by
  induction src with
  | nil => exact Nat.le_refl 0
  | cons c src ih =>
    rw [scan]
    split_ifs
    · exact Nat.le_succ_of_le ih
    · exact Nat.le_succ_of_le ih
    · exact le_rfl

/-! ## The variables -/

/-- The variables behind whole groups of data. -/
structure Written (szdest : ℕ) (dest : Option (List UInt8)) (d : Unescape) (groups : List ℕ) :
    Prop where
  whole : groups.length % 4 = 0
  destidx_eq : d.destidx = (packed groups).length
  dest_eq : d.dest = dest.map fun dest => Ring.blit dest 0 (packed groups)
  fits : dest.isSome = true → d.destidx ≤ szdest

/-- The variables with pending values in `temp`. -/
structure Reading (szdest : ℕ) (dest : Option (List UInt8)) (d : Unescape)
    (groups pending : List ℕ) : Prop extends Written szdest dest d groups where
  temp_eq : dest.isSome = true → d.temp.toNat % 64 ^ pending.length = numeral 64 0 pending

/-- The variables in front of the clean-up. -/
structure Holds (szdest : ℕ) (dest : Option (List UInt8)) (d : Unescape)
    (groups pending : List ℕ) : Prop extends Reading szdest dest d groups pending where
  few : pending.length < 4
  state_eq : d.state = pending.length

theorem shiftIn_mod {temp : UInt32} {n v k : ℕ} (hk : k < 4) (hv : v < 64) (htemp : temp.toNat % 64 ^ k = n) :
    (temp <<< 6 ||| bitsOf v).toNat % 64 ^ (k + 1) = n * 64 + v := by
  have hshift : (temp <<< 6).toNat = temp.toNat % 2 ^ 26 * 2 ^ 6 := by
    rw [UInt32.toNat_shiftLeft, Nat.shiftLeft_eq]
    change temp.toNat * 2 ^ 6 % 2 ^ 32 = _
    omega
  have hor : (temp <<< 6 ||| bitsOf v).toNat = temp.toNat % 2 ^ 26 * 2 ^ 6 + v := by
    rw [toNat_or_of_dvd (n := 6) (by rw [hshift]; exact Dvd.intro_left _ rfl)
      (by rw [toNat_bitsOf (by omega)]; omega), hshift, toNat_bitsOf (by omega)]
  rw [hor, ← htemp]
  match k, hk with
  | 0, _ | 1, _ | 2, _ | 3, _ => norm_num; omega

theorem bytes_of_temp {temp : UInt32} {i j k l : ℕ} (htemp : temp.toNat % 64 ^ 4 = numeral 64 0 [i, j, k, l]) :
    [(temp >>> 16).toUInt8, (temp >>> 8).toUInt8, temp.toUInt8] = packed [i, j, k, l] := by
  have hpow : 64 ^ 4 = 2 ^ 24 := by decide
  rw [hpow] at htemp
  have h₁ : (temp >>> 16).toUInt8 = UInt8.ofNat (numeral 64 0 [i, j, k, l] / 2 ^ 16) :=
    toUInt8_of_toNat (by
      rw [toNat_shiftRight_of (n := 16) rfl, UInt8.toNat_ofNat', ← htemp]
      omega)
  have h₂ : (temp >>> 8).toUInt8 = UInt8.ofNat (numeral 64 0 [i, j, k, l] / 2 ^ 8) :=
    toUInt8_of_toNat (by
      rw [toNat_shiftRight_of (n := 8) rfl, UInt8.toNat_ofNat', ← htemp]
      omega)
  have h₃ : temp.toUInt8 = UInt8.ofNat (numeral 64 0 [i, j, k, l]) := toUInt8_of_toNat (by
      rw [UInt8.toNat_ofNat', ← htemp]
      omega)
  rw [h₁, h₂, h₃]
  rfl

theorem blit_append (buf xs ys : List UInt8) :
    Ring.blit (Ring.blit buf 0 xs) xs.length ys = Ring.blit buf 0 (xs ++ ys) := by
  simp [Ring.blit, drop_append, append_assoc]

variable {d' : Unescape}

theorem Written.of_eq (h : Written szdest dest d groups) (hdest : d'.dest = d.dest)
    (hdestidx : d'.destidx = d.destidx) : Written szdest dest d' groups :=
  ⟨h.whole, hdestidx.trans h.destidx_eq, hdest.trans h.dest_eq, fun hsome => hdestidx ▸ h.fits hsome⟩

theorem Reading.of_eq (h : Reading szdest dest d groups pending)
    (hdest : d'.dest = d.dest) (hdestidx : d'.destidx = d.destidx) (htemp : d'.temp = d.temp) :
    Reading szdest dest d' groups pending :=
  ⟨h.toWritten.of_eq hdest hdestidx, fun hsome => htemp ▸ h.temp_eq hsome⟩

theorem Holds.of_eq (h : Holds szdest dest d groups pending)
    (hdest : d'.dest = d.dest) (hdestidx : d'.destidx = d.destidx) (htemp : d'.temp = d.temp)
    (hstate : d'.state = d.state) : Holds szdest dest d' groups pending :=
  ⟨h.toReading.of_eq hdest hdestidx htemp, h.few, hstate.trans h.state_eq⟩

theorem Written.isSome (h : Written szdest dest d groups) : d.dest.isSome = dest.isSome := by
  rw [h.dest_eq, isSome_map]

variable {v : ℕ}

theorem Reading.shiftIn (h : Reading szdest dest d groups pending) (hlength : pending.length < 4) (hv : v < 64) (hdecode : d.decode = v) :
    Reading szdest dest d.shiftIn groups (pending ++ [v]) where
  toWritten := h.toWritten.of_eq rfl rfl
  temp_eq hsome := by
    have hmod := shiftIn_mod hlength hv (h.temp_eq hsome)
    rw [length_append, length_singleton, numeral_append, Unescape.shiftIn, hdecode]
    exact hmod

theorem Reading.writeThree {i j k l : ℕ} (h : Reading szdest dest d groups [i, j, k, l]) :
    (dest.isSome = true ∧ szdest < d.destidx + 3 ∧ d.writeThree szdest = none) ∨
      ∃ d', d.writeThree szdest = some d' ∧ Written szdest dest d' (groups ++ [i, j, k, l]) ∧
        d'.src = d.src ∧ d'.ch = d.ch ∧ d'.decode = d.decode ∧ d'.state = d.state := by
  have hwhole : (groups ++ [i, j, k, l]).length % 4 = 0 := by
    have hmod := h.whole
    simp only [length_append, length_cons, length_nil]
    omega
  have hlength : (packed (groups ++ [i, j, k, l])).length = d.destidx + 3 := by
    rw [packed_append h.whole, length_append, ← h.destidx_eq]
    rfl
  rw [Unescape.writeThree]
  cases dest with
  | none =>
    have hnone : d.dest = none := h.dest_eq
    rw [hnone]
    exact .inr ⟨_, rfl, ⟨hwhole, hlength.symm, rfl, fun hsome => absurd hsome (by simp)⟩, rfl, rfl,
      rfl, rfl⟩
  | some buf =>
    have hsome : d.dest = some (Ring.blit buf 0 (packed groups)) := h.dest_eq
    have hbytes := bytes_of_temp (h.temp_eq rfl)
    rw [hsome]
    by_cases hfull : szdest < d.destidx + 3
    · exact .inl ⟨rfl, hfull, if_pos hfull⟩
    · refine .inr ⟨_, if_neg hfull, ⟨hwhole, hlength.symm, ?_, fun _ => not_lt.mp hfull⟩, rfl,
        rfl, rfl, rfl⟩
      rw [hbytes, h.destidx_eq, blit_append, ← packed_append h.whole]
      rfl

/-! ## The clean-up -/

def ending (szdest : ℕ) (d : Unescape) : Option (Option (List UInt8) × ℕ) := do
  let (d, expectedEquals) ← d.leftover szdest
  let equals ← countEquals 0 d.src
  if equals = 0 ∨ equals = expectedEquals then some (d.dest, d.destidx) else none

theorem finish_eq (d : Unescape) : finish szdest unbase64 d =
    if d.decode < 0 ∧ d.ch ≠ 0 ∧ ¬ isPad64 d.ch ∧ ¬ asciiIsspace d.ch then none
    else (if isPad64 d.ch then some { d with src := d.ch :: d.src }
        else oneLoop unbase64 szdest d.src d).bind (ending szdest) := by
  rw [finish]
  split
  · rfl
  · split <;> rfl

theorem byte_of_temp {x : UInt32} {n k v : ℕ} (hx : x.toNat = n / 2 ^ k)
    (hmod : n / 2 ^ k % 2 ^ 8 = v / 2 ^ k % 2 ^ 8) : x.toUInt8 = UInt8.ofNat (v / 2 ^ k) :=
  toUInt8_of_toNat (by rw [hx, UInt8.toNat_ofNat', hmod])

/-- The bytes of the pending values are written where they fit. -/
theorem Holds.leftover (h : Holds szdest dest d groups pending) :
    ((pending.length = 1 ∨ dest.isSome = true ∧ szdest < (packed (groups ++ pending)).length) ∧
        d.leftover szdest = none) ∨
      ¬ (pending.length = 1 ∨ dest.isSome = true ∧ szdest < (packed (groups ++ pending)).length) ∧
        ∃ d', d.leftover szdest = some (d', (4 - pending.length) % 4) ∧ d'.src = d.src ∧
          d'.dest = dest.map (fun dest => Ring.blit dest 0 (packed (groups ++ pending))) ∧
          d'.destidx = (packed (groups ++ pending)).length := by
  have hstate := h.state_eq
  have htemp := h.temp_eq
  have hfits := h.fits
  have hdest := h.dest_eq
  have hdestidx := h.destidx_eq
  rw [packed_append h.whole pending, length_append, ← hdestidx]
  unfold Unescape.leftover
  match pending, h.few with
  | [], _ =>
    rw [hstate]
    refine .inr ⟨?_, d, rfl, rfl, ?_, rfl⟩
    · rintro (hone | ⟨hsome, hfull⟩)
      · simp at hone
      · have hle := hfits hsome
        simp only [packed, length_nil] at hfull
        omega
    · rw [hdest, packed, append_nil]
  | [i], _ =>
    rw [hstate]
    exact .inl ⟨.inl rfl, rfl⟩
  | [i, j], _ =>
    rw [hstate]
    cases dest with
    | none =>
      rw [show d.dest = none from hdest]
      exact .inr ⟨by simp, _, rfl, rfl, rfl, rfl⟩
    | some buf =>
      rw [show d.dest = some (Ring.blit buf 0 (packed groups)) from hdest]
      have hvalue : d.temp.toNat % 64 ^ 2 = numeral 64 0 [i, j] := htemp rfl
      have hbyte : (d.temp >>> 4).toUInt8 = UInt8.ofNat (numeral 64 0 [i, j] / 2 ^ 4) :=
        byte_of_temp (toNat_shiftRight_of (n := 4) rfl) (by omega)
      by_cases hfull : szdest < d.destidx + 1
      · exact .inl ⟨.inr ⟨rfl, hfull⟩, if_pos hfull⟩
      · refine .inr ⟨by simpa [packed] using hfull, _, if_neg hfull, rfl, ?_, rfl⟩
        rw [hbyte, hdestidx, blit_append]
        rfl
  | [i, j, k], _ =>
    rw [hstate]
    cases dest with
    | none =>
      rw [show d.dest = none from hdest]
      exact .inr ⟨by simp, _, rfl, rfl, rfl, rfl⟩
    | some buf =>
      rw [show d.dest = some (Ring.blit buf 0 (packed groups)) from hdest]
      have hvalue : d.temp.toNat % 64 ^ 3 = numeral 64 0 [i, j, k] := htemp rfl
      have hfirst : (d.temp >>> 2 >>> 8).toUInt8 = UInt8.ofNat (numeral 64 0 [i, j, k] / 2 ^ 10) :=
        byte_of_temp (n := d.temp.toNat)
          (by rw [toNat_shiftRight_of (n := 8) rfl, toNat_shiftRight_of (n := 2) rfl]; omega)
          (by omega)
      have hsecond : (d.temp >>> 2).toUInt8 = UInt8.ofNat (numeral 64 0 [i, j, k] / 2 ^ 2) :=
        byte_of_temp (toNat_shiftRight_of (n := 2) rfl) (by omega)
      by_cases hfull : szdest < d.destidx + 2
      · exact .inl ⟨.inr ⟨rfl, hfull⟩, if_pos hfull⟩
      · refine .inr ⟨by simpa [packed] using hfull, _, if_neg hfull, rfl, ?_, rfl⟩
        rw [hfirst, hsecond, hdestidx, blit_append]
        rfl

theorem Holds.ending (h : Holds szdest dest d groups pending) :
    d.ending szdest = outcome dest szdest (groups ++ pending) d.src := by
  have hmod : (groups ++ pending).length % 4 = pending.length := by
    rw [length_append, Nat.add_mod, h.whole, zero_add, Nat.mod_mod, Nat.mod_eq_of_lt h.few]
  rw [Unescape.ending, outcome, hmod]
  obtain ⟨hnone, hleft⟩ | ⟨hsome, d', hleft, hsrc, hdest, hdestidx⟩ := h.leftover
  · rw [hleft, if_pos hnone]
    rfl
  · rw [hleft, if_neg hsome]
    simp only [bind_eq_bind, bind_some]
    rw [hsrc, hdest, hdestidx]

theorem outcome_of_full {values : List ℕ} {rest : List UInt8} (hsome : dest.isSome = true)
    (hfull : szdest < (packed values).length) : outcome dest szdest values rest = none :=
  if_pos (.inr ⟨hsome, hfull⟩)

variable {c : UInt8}

theorem outcome_of_illegal {values : List ℕ} {rest : List UInt8} (hnul : c ≠ 0)
    (hpad : isPad64 c = false) (hspace : asciiIsspace c = false) :
    outcome dest szdest values (c :: rest) = none := by
  rw [outcome, countEquals]
  simp [hnul, hpad, hspace]

theorem not_isPad64_of_isspace (c : UInt8) (h : asciiIsspace c = true) : isPad64 c = false :=
  forall_byte (P := fun c => asciiIsspace c = true → isPad64 c = false) (by decide +kernel) c h

theorem scan_data (hvalue : unbase64At unbase64 c = v) (src : List UInt8) :
    scan unbase64 (c :: src) = (v :: (scan unbase64 src).1, (scan unbase64 src).2) := by
  rw [scan, hvalue, if_pos (Int.natCast_nonneg v), Int.toNat_natCast]

theorem scan_space (hneg : unbase64At unbase64 c < 0) (hspace : asciiIsspace c = true)
    (src : List UInt8) : scan unbase64 (c :: src) = scan unbase64 src := by
  rw [scan, if_neg (not_le.mpr hneg), if_pos hspace]

theorem scan_stop (hneg : unbase64At unbase64 c < 0) (hspace : asciiIsspace c = false)
    (src : List UInt8) : scan unbase64 (c :: src) = ([], c :: src) := by
  rw [scan, if_neg (not_le.mpr hneg), if_neg (Bool.eq_false_iff.mp hspace)]

/-- **The loop over one character** and what follows it, where the stop is not a NUL. -/
theorem Holds.oneLoop (table : Table unbase64) (h : Holds szdest dest d groups pending)
    (src : List UInt8) (hstop : ∀ r, (scan unbase64 src).2 ≠ 0 :: r) :
    (Unescape.oneLoop unbase64 szdest src d).bind (Unescape.ending szdest) =
      outcome dest szdest (groups ++ pending ++ (scan unbase64 src).1) (scan unbase64 src).2 := by
  induction src generalizing d groups pending with
  | nil =>
    have hend := Holds.ending (d := { d with src := [] }) (h.of_eq rfl rfl rfl rfl)
    rw [scan, append_nil]
    exact hend
  | cons c src ih =>
    rw [Unescape.oneLoop]
    obtain ⟨hneg, -⟩ | ⟨v, hv, hvalue⟩ := table.value c
    · simp only [if_pos hneg]
      by_cases hspace : asciiIsspace c = true
      · rw [scan_space hneg hspace] at hstop ⊢
        rw [if_pos hspace]
        exact ih (h.of_eq rfl rfl rfl rfl) hstop
      · rw [Bool.not_eq_true] at hspace
        rw [scan_stop hneg hspace] at hstop ⊢
        have hnul : c ≠ 0 := fun hc => hstop src (by rw [hc])
        rw [if_neg (Bool.eq_false_iff.mp hspace), if_neg hnul]
        cases hpad : isPad64 c with
        | true =>
          have hend := Holds.ending
            (d := { d with src := c :: src, ch := c, decode := unbase64At unbase64 c })
            (h.of_eq rfl rfl rfl rfl)
          rw [append_nil]
          exact hend
        | false =>
          rw [outcome_of_illegal hnul hpad hspace]
          rfl
    · have hdata : ¬ unbase64At unbase64 c < 0 := by omega
      rw [scan_data hvalue] at hstop ⊢
      simp only [if_neg hdata]
      have hread : Reading szdest dest { d with ch := c, decode := unbase64At unbase64 c } groups
          pending := h.toReading.of_eq rfl rfl rfl
      have hshift := hread.shiftIn h.few hv hvalue
      have hstate := h.state_eq
      by_cases hfour : d.state + 1 = 4
      · rw [if_pos hfour]
        obtain ⟨i, j, k, rfl⟩ : ∃ i j k, pending = [i, j, k] := List.length_eq_three.mp (by omega)
        obtain ⟨hsome, hfull, hwrite⟩ | ⟨d', hwrite, hwritten, -, -, -, -⟩ :=
          Reading.writeThree (d := { d with
            ch := c
            decode := unbase64At unbase64 c
            temp := d.temp <<< 6 ||| bitsOf (unbase64At unbase64 c)
            state := d.state + 1 }) (i := i) (j := j) (k := k) (l := v) (hshift.of_eq rfl rfl rfl)
        · rw [outcome_of_full hsome]
          · erw [hwrite]
            rfl
          · have hle := le_length_packed h.whole i j k v (scan unbase64 src).1
            rw [← h.destidx_eq] at hle
            rw [append_assoc]
            exact lt_of_lt_of_le hfull hle
        · have hnext : Holds szdest dest { d' with state := 0, temp := 0 }
              (groups ++ [i, j, k, v]) [] :=
            ⟨⟨hwritten.of_eq rfl rfl, fun _ => rfl⟩, by decide, rfl⟩
          have hrest := ih hnext hstop
          rw [append_nil, append_assoc] at hrest
          erw [hwrite]
          rw [append_assoc]
          exact hrest
      · rw [if_neg hfour]
        have hnext : Holds szdest dest { d with
            ch := c
            decode := unbase64At unbase64 c
            temp := d.temp <<< 6 ||| bitsOf (unbase64At unbase64 c)
            state := d.state + 1 } groups (pending ++ [v]) :=
          ⟨hshift.of_eq rfl rfl rfl, by
            have hfew := h.few
            rw [length_append, length_singleton]
            omega, by rw [length_append, hstate]; rfl⟩
        have hrest := ih hnext hstop
        rw [← append_assoc, append_assoc _ [v]] at hrest
        exact hrest

/-! ## The loop over four characters -/

/-- What the decoder reads from a source that the loop over four characters starts on: up to the
stop, or past it when it is a NUL with enough behind it. -/
def Past (unbase64 : List ℤ) (src : List UInt8) (values : List ℕ) (rest : List UInt8) : Prop :=
  (∀ r, rest ≠ 0 :: r) ∧ (scan unbase64 src = (values, rest) ∨
      ∃ front tail, scan unbase64 src = (front, 0 :: tail) ∧ 3 ≤ tail.length ∧
        values = front ++ (scan unbase64 tail).1 ∧ rest = (scan unbase64 tail).2)

variable {values : List ℕ} {rest : List UInt8}

theorem Past.of_scan {src' : List UInt8} (h : Past unbase64 src values rest)
    (hscan : scan unbase64 src' = scan unbase64 src) : Past unbase64 src' values rest := by
  rw [Past, hscan]
  exact h

theorem Past.data (h : Past unbase64 (c :: src) values rest) (hvalue : unbase64At unbase64 c = v) :
    ∃ values', values = v :: values' ∧ Past unbase64 src values' rest := by
  obtain ⟨hstop, hscan | ⟨front, tail, hscan, hlength, rfl, rfl⟩⟩ := h
  · rw [scan_data hvalue] at hscan
    cases hscan
    exact ⟨_, rfl, hstop, .inl rfl⟩
  · rw [scan_data hvalue] at hscan
    obtain ⟨rfl, htail⟩ := Prod.mk.inj hscan
    exact ⟨_, rfl, hstop, .inr ⟨_, tail, by rw [← htail], hlength, rfl, rfl⟩⟩

/-- The end of the loop over four characters, before a character that is not data. -/
theorem Reading.finish (table : Table unbase64) (h : Reading szdest dest d groups pending) (hneg : unbase64At unbase64 c < 0) (hdecode : d.decode < 0) (hch : d.ch = c)
    (hstate : d.state = pending.length) (hfew : pending.length < 4)
    (hpast : Past unbase64 (c :: d.src) values rest) (hlate : asciiIsspace c = true → d.src.length < 4) :
    Unescape.finish szdest unbase64 d = outcome dest szdest (groups ++ pending ++ values) rest := by
  have hholds : Holds szdest dest d groups pending := ⟨h, hfew, hstate⟩
  obtain ⟨hstop, hscan⟩ := hpast
  rw [finish_eq, hch]
  by_cases hspace : asciiIsspace c = true
  · have hpad : isPad64 c = false := not_isPad64_of_isspace c hspace
    rw [if_neg (fun hbad => hbad.2.2.2 hspace), if_neg (Bool.eq_false_iff.mp hpad)]
    rw [scan_space hneg hspace] at hscan
    rcases hscan with hscan | ⟨front, tail, hscan, hlength, -, -⟩
    · have hone := hholds.oneLoop table d.src (by rw [hscan]; exact hstop)
      rw [hscan] at hone
      exact hone
    · have hle := scan_length unbase64 d.src
      rw [hscan, length_cons] at hle
      have hlt := hlate hspace
      omega
  · rw [Bool.not_eq_true] at hspace
    rw [scan_stop hneg hspace] at hscan
    rcases hscan with hscan | ⟨front, tail, hscan, -, rfl, rfl⟩
    · cases hscan
      have hnul : c ≠ 0 := fun hc => hstop d.src (by rw [hc])
      rw [append_nil]
      cases hpad : isPad64 c with
      | true =>
        rw [if_neg (fun hbad => hbad.2.2.1 rfl), if_pos rfl]
        exact Holds.ending (d := { d with src := c :: d.src, ch := c }) (hholds.of_eq rfl rfl rfl rfl)
      | false => rw [if_pos ⟨hdecode, hnul, Bool.false_ne_true, Bool.eq_false_iff.mp hspace⟩,
          outcome_of_illegal hnul hpad hspace]
    · -- the NUL is read, and the clean-up goes on behind it
      obtain ⟨rfl, hnul⟩ := Prod.mk.inj hscan
      cases hnul
      rw [if_neg (fun hbad => hbad.2.1 rfl), if_neg (by decide)]
      exact hholds.oneLoop table _ hstop

/-- A value has been read from `src`, with `remain` characters to be read before. -/
structure Got (unbase64 : List ℤ) (szdest : ℕ) (dest : Option (List UInt8)) (remain : ℕ)
    (src : List UInt8) (d d' : Unescape) (groups pending : List ℕ) (v : ℕ) (values : List ℕ) (rest : List UInt8) :
    Prop where
  reading : Reading szdest dest d' groups pending
  value_lt : v < 64
  past : Past unbase64 d'.src values rest
  decode_eq : d'.decode = v
  ch_eq : isPad64 d'.ch = false
  remain_le : remain ≤ d'.src.length + 1
  length_lt : d'.src.length < src.length
  state_eq : d'.state = d.state

/-- `GET_INPUT`, with `remain` characters still to be read: it leaves the loop, or reads data. -/
theorem Reading.getInput (table : Table unbase64) (h : Reading szdest dest d groups pending)
    (remain : ℕ) (hremain : pending.length + remain = 4) (hpos : 0 < remain)
    (hlength : remain ≤ src.length) (hpast : Past unbase64 src values rest) :
    ((d.getInput unbase64 remain src).1 = false ∧
        Unescape.finish szdest unbase64 (d.getInput unbase64 remain src).2 =
          outcome dest szdest (groups ++ pending ++ values) rest) ∨
      ∃ v values' d', values = v :: values' ∧ d.getInput unbase64 remain src = (true, d') ∧
        Got unbase64 szdest dest remain src d d' groups pending v values' rest := by
  induction src with
  | nil => exact absurd hlength (by simpa using not_le.mpr hpos)
  | cons c src ih =>
    rw [Unescape.getInput]
    obtain ⟨hneg, -⟩ | ⟨v, hv, hvalue⟩ := table.value c
    · simp only [if_pos hneg]
      by_cases hskip : asciiIsspace c = true ∧ remain ≤ src.length
      · rw [if_pos hskip]
        have hscan : scan unbase64 src = scan unbase64 (c :: src) :=
          (scan_space hneg hskip.1 src).symm
        obtain hleft | ⟨v, values', d', hvalues, hread, hgot⟩ := ih hskip.2 (hpast.of_scan hscan)
        · exact .inl hleft
        · exact .inr ⟨v, values', d', hvalues, hread,
            { hgot with length_lt := Nat.lt_succ_of_lt hgot.length_lt }⟩
      · rw [if_neg hskip]
        refine .inl ⟨rfl, ?_⟩
        exact Reading.finish (d := { d with
            src := src
            ch := c
            decode := unbase64At unbase64 c
            state := 4 - remain }) table (h.of_eq rfl rfl rfl) hneg hneg rfl
          (by simp only; omega) (by omega) hpast fun hspace => by
            have hshort := not_and.mp hskip hspace
            simp only
            omega
    · have hdata : ¬ unbase64At unbase64 c < 0 := by omega
      obtain ⟨values', hvalues, hnext⟩ := hpast.data hvalue
      simp only [if_neg hdata]
      exact .inr ⟨v, values', _, hvalues, rfl, {
        reading := h.of_eq rfl rfl rfl
        value_lt := hv
        past := hnext
        decode_eq := hvalue
        ch_eq := Bool.eq_false_iff.mpr fun hpad => hdata (table.pad c hpad)
        remain_le := hlength
        length_lt := lt_add_one _
        state_eq := rfl }⟩

theorem Reading.first (h : Reading szdest dest d groups []) {b : Bool} (hb : b = dest.isSome)
    (hv : v < 64) (hdecode : d.decode = v)
    (hd' : d' = if b then { d with temp := bitsOf d.decode } else d) :
    Reading szdest dest d' groups [v] ∧ d'.src = d.src ∧ d'.state = d.state := by
  have htemp : (bitsOf v).toNat % 64 ^ [v].length = numeral 64 0 [v] := by
    rw [toNat_bitsOf hv]
    simpa using hv
  cases b with
  | true =>
    subst hd'
    exact ⟨⟨h.toWritten.of_eq rfl rfl, fun _ => by simpa [hdecode] using htemp⟩, rfl, rfl⟩
  | false =>
    subst hd'
    exact ⟨⟨h.toWritten, fun hsome => absurd (hb.trans hsome) Bool.false_ne_true⟩, rfl, rfl⟩

theorem Reading.next (h : Reading szdest dest d groups pending) {b : Bool} (hb : b = dest.isSome) (hv : v < 64) (hfew : pending.length < 4) (hdecode : d.decode = v)
    (hd' : d' = if b then d.shiftIn else d) :
    Reading szdest dest d' groups (pending ++ [v]) ∧ d'.src = d.src ∧ d'.state = d.state ∧
      d'.ch = d.ch ∧ d'.decode = d.decode := by
  cases b with
  | true =>
    subst hd'
    exact ⟨h.shiftIn hfew hv hdecode, rfl, rfl, rfl, rfl⟩
  | false =>
    subst hd'
    exact ⟨⟨h.toWritten, fun hsome => absurd (hb.trans hsome) Bool.false_ne_true⟩, rfl, rfl, rfl,
      rfl⟩

/-- Four characters, one at a time. -/
theorem Reading.readFour (table : Table unbase64) (h : Reading szdest dest d groups [])
    (hlength : 4 ≤ d.src.length) (hpast : Past unbase64 d.src values rest) :
    ((d.readFour unbase64).1 = false ∧ Unescape.finish szdest unbase64 (d.readFour unbase64).2 =
          outcome dest szdest (groups ++ values) rest) ∨
      ∃ i j k l values' d', d.readFour unbase64 = (true, d') ∧ values = i :: j :: k :: l :: values' ∧
        Past unbase64 d'.src values' rest ∧ Reading szdest dest d' groups [i, j, k, l] ∧
        isPad64 d'.ch = false ∧ 0 ≤ d'.decode ∧ d'.src.length < d.src.length ∧ d'.state = d.state := by
  rw [Unescape.readFour]
  obtain ⟨hfalse, hfinish⟩ | ⟨i, values₁, e₁, rfl, hread₁, got₁⟩ :=
    h.getInput table 4 rfl (by decide) hlength hpast
  · rw [append_nil] at hfinish
    simp only [hfalse, Bool.not_false, if_true, true_and]
    exact .inl hfinish
  obtain ⟨d₁, hd₁⟩ : ∃ d₁, d₁ = if d.dest.isSome then { e₁ with temp := bitsOf e₁.decode } else e₁ :=
    ⟨_, rfl⟩
  obtain ⟨h₁, hsrc₁, hstate₁⟩ := got₁.reading.first h.isSome got₁.value_lt got₁.decode_eq hd₁
  simp only [hread₁, Bool.not_true, Bool.false_eq_true, if_false, ← hd₁]
  have hpast₁ := got₁.past
  have hle₁ := got₁.remain_le
  rw [← hsrc₁] at hpast₁ hle₁
  obtain ⟨hfalse, hfinish⟩ | ⟨j, values₂, e₂, rfl, hread₂, got₂⟩ :=
    h₁.getInput table 3 rfl (by decide) (by omega) hpast₁
  · rw [append_assoc] at hfinish
    simp only [hfalse, Bool.not_false, if_true, true_and]
    exact .inl hfinish
  obtain ⟨d₂, hd₂⟩ : ∃ d₂, d₂ = if d₁.dest.isSome then e₂.shiftIn else e₂ := ⟨_, rfl⟩
  obtain ⟨h₂, hsrc₂, hstate₂, -, -⟩ :=
    got₂.reading.next h₁.isSome got₂.value_lt (by simp) got₂.decode_eq hd₂
  simp only [hread₂, Bool.not_true, Bool.false_eq_true, if_false, ← hd₂]
  have hpast₂ := got₂.past
  have hle₂ := got₂.remain_le
  rw [← hsrc₂] at hpast₂ hle₂
  obtain ⟨hfalse, hfinish⟩ | ⟨k, values₃, e₃, rfl, hread₃, got₃⟩ :=
    h₂.getInput table 2 rfl (by decide) (by omega) hpast₂
  · rw [append_assoc] at hfinish
    simp only [hfalse, Bool.not_false, if_true, true_and]
    exact .inl hfinish
  obtain ⟨d₃, hd₃⟩ : ∃ d₃, d₃ = if d₂.dest.isSome then e₃.shiftIn else e₃ := ⟨_, rfl⟩
  obtain ⟨h₃, hsrc₃, hstate₃, -, -⟩ :=
    got₃.reading.next h₂.isSome got₃.value_lt (by simp) got₃.decode_eq hd₃
  simp only [hread₃, Bool.not_true, Bool.false_eq_true, if_false, ← hd₃]
  have hpast₃ := got₃.past
  have hle₃ := got₃.remain_le
  rw [← hsrc₃] at hpast₃ hle₃
  obtain ⟨hfalse, hfinish⟩ | ⟨l, values₄, e₄, rfl, hread₄, got₄⟩ :=
    h₃.getInput table 1 rfl (by decide) (by omega) hpast₃
  · rw [append_assoc] at hfinish
    simp only [hfalse, Bool.not_false, if_true, true_and]
    exact .inl hfinish
  obtain ⟨d₄, hd₄⟩ : ∃ d₄, d₄ = if d₃.dest.isSome then e₄.shiftIn else e₄ := ⟨_, rfl⟩
  obtain ⟨h₄, hsrc₄, hstate₄, hch₄, hdecode₄⟩ :=
    got₄.reading.next h₃.isSome got₄.value_lt (by simp) got₄.decode_eq hd₄
  simp only [hread₄, Bool.not_true, Bool.false_eq_true, if_false, ← hd₄]
  have hlt₁ := got₁.length_lt
  have hlt₂ := got₂.length_lt
  have hlt₃ := got₃.length_lt
  have hlt₄ := got₄.length_lt
  refine .inr ⟨i, j, k, l, values₄, d₄, rfl, rfl, ?_, h₄, ?_, ?_, ?_, ?_⟩
  · rw [hsrc₄]
    exact got₄.past
  · rw [hch₄]
    exact got₄.ch_eq
  · rw [hdecode₄, got₄.decode_eq]
    exact Int.natCast_nonneg l
  · rw [hsrc₁] at hlt₂
    rw [hsrc₂] at hlt₃
    rw [hsrc₃] at hlt₄
    rw [hsrc₄]
    omega
  · rw [hstate₄, got₄.state_eq, hstate₃, got₃.state_eq, hstate₂, got₂.state_eq, hstate₁, got₁.state_eq]

theorem four_and_high (table : Table unbase64) {c₀ c₁ c₂ c₃ : UInt8}
    (hgood : (bitsOf (unbase64At unbase64 c₀) <<< 18 ||| bitsOf (unbase64At unbase64 c₁) <<< 12 |||
      bitsOf (unbase64At unbase64 c₂) <<< 6 ||| bitsOf (unbase64At unbase64 c₃)) &&& 0x80000000 = 0) :
    ∃ i < 64, ∃ j < 64, ∃ k < 64, ∃ l < 64, unbase64At unbase64 c₀ = (i : ℕ) ∧
      unbase64At unbase64 c₁ = (j : ℕ) ∧ unbase64At unbase64 c₂ = (k : ℕ) ∧
      unbase64At unbase64 c₃ = (l : ℕ) := by
  rw [and_high_eq_zero_iff, testBit_or, testBit_or, testBit_or] at hgood
  simp only [Bool.or_eq_false_iff] at hgood
  obtain ⟨⟨⟨h₀, h₁⟩, h₂⟩, h₃⟩ := hgood
  have h18 : (bitsOf (-1) <<< 18).toNat.testBit 31 = true := by decide
  have h12 : (bitsOf (-1) <<< 12).toNat.testBit 31 = true := by decide
  have h6 : (bitsOf (-1) <<< 6).toNat.testBit 31 = true := by decide
  have h0 : (bitsOf (-1)).toNat.testBit 31 = true := by decide
  obtain ⟨-, hc₀⟩ | ⟨i, hi, hc₀⟩ := table.value c₀
  · rw [hc₀, h18] at h₀
    exact absurd h₀ (by decide)
  obtain ⟨-, hc₁⟩ | ⟨j, hj, hc₁⟩ := table.value c₁
  · rw [hc₁, h12] at h₁
    exact absurd h₁ (by decide)
  obtain ⟨-, hc₂⟩ | ⟨k, hk, hc₂⟩ := table.value c₂
  · rw [hc₂, h6] at h₂
    exact absurd h₂ (by decide)
  obtain ⟨-, hc₃⟩ | ⟨l, hl, hc₃⟩ := table.value c₃
  · rw [hc₃, h0] at h₃
    exact absurd h₃ (by decide)
  exact ⟨i, hi, j, hj, k, hk, l, hl, hc₀, hc₁, hc₂, hc₃⟩

/-- **The loop over four characters** and what follows it. -/
theorem Holds.fourLoop (table : Table unbase64) (h : Holds szdest dest d groups []) {fuel : ℕ}
    (hfuel : d.src.length < fuel) (hpad : isPad64 d.ch = false) (hgood : 0 ≤ d.decode ∨ d.ch = 0)
    (hpast : Past unbase64 d.src values rest) :
    (Unescape.fourLoop unbase64 szdest fuel d).bind (Unescape.finish szdest unbase64) =
      outcome dest szdest (groups ++ values) rest := by
  induction fuel generalizing d groups values with
  | zero => exact absurd hfuel (Nat.not_lt_zero _)
  | succ fuel ih =>
    -- a group has been read, by one of the two ways
    have hgroup : ∀ (d' : Unescape) (i j k l : ℕ) (values' : List ℕ),
        Reading szdest dest d' groups [i, j, k, l] → Past unbase64 d'.src values' rest →
        isPad64 d'.ch = false → (0 ≤ d'.decode ∨ d'.ch = 0) → d'.src.length < fuel →
        d'.state = 0 →
        ((d'.writeThree szdest).bind (Unescape.fourLoop unbase64 szdest fuel)).bind
            (Unescape.finish szdest unbase64) =
          outcome dest szdest (groups ++ i :: j :: k :: l :: values') rest := by
      intro d' i j k l values' hread hpast' hpad' hgood' hlt hstate
      obtain ⟨hsome, hfull, hwrite⟩ | ⟨d'', hwrite, hwritten, hsrc, hch, hdecode, hstate'⟩ :=
        hread.writeThree
      · have hle := le_length_packed h.whole i j k l values'
        rw [← hread.destidx_eq] at hle
        rw [hwrite, outcome_of_full hsome (lt_of_lt_of_le hfull hle)]
        rfl
      · rw [hwrite, bind_some]
        have hnext : Holds szdest dest d'' (groups ++ [i, j, k, l]) [] :=
          ⟨⟨hwritten, fun _ => Nat.mod_one _⟩, by decide, hstate'.trans hstate⟩
        have hrest := ih hnext (by rw [hsrc]; exact hlt) (by rw [hch]; exact hpad')
          (by rw [hdecode, hch]; exact hgood') (by rw [hsrc]; exact hpast')
        rw [append_assoc] at hrest
        exact hrest
    rw [Unescape.fourLoop]
    split
    · next c₀ c₁ c₂ c₃ src hsrc =>
      generalize hfour : bitsOf (unbase64At unbase64 c₀) <<< 18 |||
        bitsOf (unbase64At unbase64 c₁) <<< 12 ||| bitsOf (unbase64At unbase64 c₂) <<< 6 |||
        bitsOf (unbase64At unbase64 c₃) = four
      obtain ⟨d₀, hd₀⟩ : ∃ d₀, d₀ =
          if decide (c₀ = 0 ∨ c₁ = 0 ∨ c₂ = 0) = true then d else { d with temp := four } :=
        ⟨_, rfl⟩
      have hlength : d.src.length = src.length + 4 := by rw [hsrc]; rfl
      simp only [← hd₀]
      have hkeep : d₀.src = d.src ∧ d₀.dest = d.dest ∧ d₀.destidx = d.destidx ∧
          d₀.state = d.state := by
        rw [hd₀]
        split <;> exact ⟨rfl, rfl, rfl, rfl⟩
      obtain ⟨hsrc₀, hdest₀, hdestidx₀, hstate₀⟩ := hkeep
      have hread₀ : Reading szdest dest d₀ groups [] :=
        ⟨h.toWritten.of_eq hdest₀ hdestidx₀, fun _ => Nat.mod_one _⟩
      by_cases hbad : decide (c₀ = 0 ∨ c₁ = 0 ∨ c₂ = 0) = true ∨ four &&& 0x80000000 ≠ 0
      · rw [if_pos hbad]
        obtain ⟨hfalse, hfinish⟩ | ⟨i, j, k, l, values', d', hread, rfl, hpast', hreading, hpad',
            hnonneg, hlt, hstate'⟩ :=
          hread₀.readFour table (by rw [hsrc₀]; omega) (by rw [hsrc₀]; exact hpast)
        · rw [if_neg (by rw [hfalse]; exact Bool.false_ne_true), bind_some]
          exact hfinish
        · rw [hread, if_pos rfl]
          rw [hsrc₀] at hlt
          exact hgroup d' i j k l values' hreading hpast' hpad' (.inl hnonneg) (by omega)
            (hstate'.trans (hstate₀.trans h.state_eq))
      · rw [if_neg hbad]
        have hhigh : four &&& 0x80000000 = 0 := not_not.mp (not_or.mp hbad).2
        rw [← hfour] at hhigh
        obtain ⟨i, hi, j, hj, k, hk, l, hl, h₀, h₁, h₂, h₃⟩ := four_and_high table hhigh
        rw [hsrc] at hpast
        obtain ⟨values₁, rfl, hpast₁⟩ := hpast.data h₀
        obtain ⟨values₂, rfl, hpast₂⟩ := hpast₁.data h₁
        obtain ⟨values₃, rfl, hpast₃⟩ := hpast₂.data h₂
        obtain ⟨values₄, rfl, hpast₄⟩ := hpast₃.data h₃
        have htemp : d₀.temp = four := by
          rw [hd₀, if_neg (not_or.mp hbad).1]
        have hvalue := toNat_four (i := i) (j := j) (k := k) (l := l) hi hj hk hl
        rw [← h₀, ← h₁, ← h₂, ← h₃, hfour] at hvalue
        refine hgroup { d₀ with src := src, decode := -1, ch := 0 } i j k l values₄
          ⟨hread₀.toWritten.of_eq rfl rfl, fun _ => ?_⟩ hpast₄ rfl (.inr rfl) (by simp only; omega)
          (hstate₀.trans h.state_eq)
        simp only [htemp, hvalue, length_cons, length_nil, numeral_cons, numeral_nil]
        omega
    · next hshort =>
      have hlength : d.src.length < 4 := by
        rcases hsrc : d.src with _ | ⟨c₀, _ | ⟨c₁, _ | ⟨c₂, _ | ⟨c₃, src⟩⟩⟩⟩
        · exact Nat.zero_lt_succ 3
        · exact Nat.one_lt_succ_succ 2
        · exact Nat.lt_of_sub_eq_succ rfl
        · exact Nat.lt_succ_self 3
        · exact absurd hsrc (hshort c₀ c₁ c₂ c₃ src)
      obtain ⟨hstop, hscan | ⟨front, tail, hscan, htail, -, -⟩⟩ := hpast
      · have hone := h.oneLoop table d.src (by rw [hscan]; exact hstop)
        rw [hscan, append_nil] at hone
        have hclean : ¬ (d.decode < 0 ∧ d.ch ≠ 0 ∧ ¬ isPad64 d.ch ∧ ¬ asciiIsspace d.ch) := by
          rintro ⟨hneg, hnul, -⟩
          rcases hgood with hgood | hgood
          · omega
          · exact hnul hgood
        rw [bind_some, finish_eq, if_neg hclean, if_neg (Bool.eq_false_iff.mp hpad)]
        exact hone
      · have hle := scan_length unbase64 d.src
        rw [hscan, length_cons] at hle
        omega

theorem blit_nil (buf : List UInt8) : Ring.blit buf 0 [] = buf := by
  simp [Ring.blit]

/-- **The decoder**, with a buffer or without. -/
theorem Past.base64UnescapeInternal_eq (table : Table unbase64) (hpast : Past unbase64 src values rest)
    (dest : Option (List UInt8)) (szdest : ℕ) :
    base64UnescapeInternal src dest szdest unbase64 = outcome dest szdest values rest := by
  have hstart : Holds szdest dest ⟨src, dest, 0, 0, 0, 0, 0⟩ [] [] := {
    whole := rfl
    destidx_eq := rfl
    dest_eq := by cases dest <;> simp [packed, blit_nil]
    fits := fun _ => Nat.zero_le _
    temp_eq := fun _ => rfl
    few := by decide
    state_eq := rfl }
  rw [base64UnescapeInternal_eq_finish]
  exact hstart.fourLoop table (lt_add_one _) rfl (.inr rfl) hpast

theorem base64UnescapeInternal_eq_meaning (table : Table unbase64)
    (hstop : ∀ r, (scan unbase64 src).2 ≠ 0 :: r) (dest : Option (List UInt8)) (szdest : ℕ) :
    base64UnescapeInternal src dest szdest unbase64 = meaning unbase64 src dest szdest :=
  Past.base64UnescapeInternal_eq table ⟨hstop, .inl rfl⟩ dest szdest

theorem base64UnescapeInternal_past_nul (table : Table unbase64) {front : List ℕ} {tail : List UInt8}
    (hscan : scan unbase64 src = (front, 0 :: tail)) (hlength : 3 ≤ tail.length)
    (hstop : ∀ r, (scan unbase64 tail).2 ≠ 0 :: r) (dest : Option (List UInt8)) (szdest : ℕ) :
    base64UnescapeInternal src dest szdest unbase64 =
      outcome dest szdest (front ++ (scan unbase64 tail).1) (scan unbase64 tail).2 :=
  Past.base64UnescapeInternal_eq table ⟨hstop, .inr ⟨front, tail, hscan, hlength, rfl, rfl⟩⟩ dest
    szdest

end Unescape

end Protoc.Stubs
