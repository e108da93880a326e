import Protoc.Stubs.Base64Meaning

/-!
# One decoder, with a buffer and without

What `Base64UnescapeInternal` returns depends neither on the buffer, if that is large enough, nor
on white space, nor on anything behind a NUL, as long as the first character that is neither data
nor white space is not a NUL.  If it is, the loop over four characters reads the NUL and the
clean-up goes on behind it.
-/

namespace Protoc.Stubs

open Protoc.Lib
open List Option

namespace Unescape

/-! ## Where bytes are written -/

/-- The bytes from `pos` on, `none` when one of them is not below the size. -/
def store (szdest pos : ℕ) (data dest : List UInt8) : Option (List UInt8) :=
  if ∀ i < data.length, pos + i < szdest then some (Ring.blit dest pos data) else none

/-- `writeThree`, with a check of every index. -/
def writeThreeChecked (szdest : ℕ) (d : Unescape) : Option (Option Unescape) :=
  match d.dest with
  | none => some (some { d with destidx := d.destidx + 3 })
  | some dest =>
    if szdest < d.destidx + 3 then some none
    else do
      let dest ← store szdest d.destidx
        [(d.temp >>> 16).toUInt8, (d.temp >>> 8).toUInt8, d.temp.toUInt8] dest
      return some { d with dest := some dest, temp := d.temp >>> 16, destidx := d.destidx + 3 }

/-- `fourLoop`, with a check of every index. -/
def fourLoopChecked (unbase64 : List ℤ) (szdest : ℕ) : ℕ → Unescape → Option (Option Unescape)
  | 0, d => some (some d)
  | fuel + 1, d =>
    match d.src with
    | c₀ :: c₁ :: c₂ :: c₃ :: src =>
      let nul := decide (c₀ = 0 ∨ c₁ = 0 ∨ c₂ = 0)
      let four := bitsOf (unbase64At unbase64 c₀) <<< 18 |||
        bitsOf (unbase64At unbase64 c₁) <<< 12 |||
        bitsOf (unbase64At unbase64 c₂) <<< 6 ||| bitsOf (unbase64At unbase64 c₃)
      let d := if nul then d else { d with temp := four }
      if nul ∨ four &&& 0x80000000 ≠ 0 then
        let r := d.readFour unbase64
        if r.1 then do
          match ← r.2.writeThreeChecked szdest with
          | none => return none
          | some d => fourLoopChecked unbase64 szdest fuel d
        else some (some r.2)
      else do
        match ← { d with src, decode := -1, ch := 0 }.writeThreeChecked szdest with
        | none => return none
        | some d => fourLoopChecked unbase64 szdest fuel d
    | _ => some (some d)

/-- `oneLoop`, with a check of every index. -/
def oneLoopChecked (unbase64 : List ℤ) (szdest : ℕ) :
    List UInt8 → Unescape → Option (Option Unescape)
  | [], d => some (some { d with src := [] })
  | ch :: src, d =>
    let decode := unbase64At unbase64 ch
    let d := { d with ch, decode }
    if decode < 0 then
      if asciiIsspace ch then oneLoopChecked unbase64 szdest src d
      else if ch = 0 then some (some { d with src })
      else if isPad64 ch then some (some { d with src := ch :: src })
      else some none
    else
      let d : Unescape := { d.shiftIn with state := d.state + 1 }
      if d.state = 4 then do
        match ← d.writeThreeChecked szdest with
        | none => return none
        | some d => oneLoopChecked unbase64 szdest src { d with state := 0, temp := 0 }
      else oneLoopChecked unbase64 szdest src d

/-- `leftover`, with a check of every index. -/
def leftoverChecked (szdest : ℕ) (d : Unescape) : Option (Option (Unescape × ℕ)) :=
  match d.state with
  | 0 => some (some (d, 0))
  | 2 =>
    match d.dest with
    | none => some (some ({ d with destidx := d.destidx + 1 }, 2))
    | some dest =>
      if szdest < d.destidx + 1 then some none
      else do
        let dest ← store szdest d.destidx [(d.temp >>> 4).toUInt8] dest
        return some ({ d with
          dest := some dest
          temp := d.temp >>> 4
          destidx := d.destidx + 1 }, 2)
  | 3 =>
    match d.dest with
    | none => some (some ({ d with destidx := d.destidx + 2 }, 1))
    | some dest =>
      if szdest < d.destidx + 2 then some none
      else do
        let dest ← store szdest d.destidx
          [(d.temp >>> 2 >>> 8).toUInt8, (d.temp >>> 2).toUInt8] dest
        return some ({ d with
          dest := some dest
          temp := d.temp >>> 2 >>> 8
          destidx := d.destidx + 2 }, 1)
  | _ => some none

end Unescape

/-- `base64UnescapeInternal`, with a check of every index that is written. -/
def base64UnescapeInternalChecked (src : List UInt8) (dest : Option (List UInt8)) (szdest : ℕ)
    (unbase64 : List ℤ) : Option (Option (Option (List UInt8) × ℕ)) := do
  match ← Unescape.fourLoopChecked unbase64 szdest (src.length + 1) ⟨src, dest, 0, 0, 0, 0, 0⟩ with
  | none => return none
  | some d =>
    if d.decode < 0 ∧ d.ch ≠ 0 ∧ ¬ isPad64 d.ch ∧ ¬ asciiIsspace d.ch then return none
    else
      match ←
        if isPad64 d.ch then some (some { d with src := d.ch :: d.src })
        else Unescape.oneLoopChecked unbase64 szdest d.src d with
      | none => return none
      | some d =>
        match ← d.leftoverChecked szdest with
        | none => return none
        | some (d, expectedEquals) =>
          match Unescape.countEquals 0 d.src with
          | none => return none
          | some equals =>
            return if equals = 0 ∨ equals = expectedEquals then some (d.dest, d.destidx)
              else none

namespace Unescape

variable {unbase64 : List ℤ} {szdest : ℕ}

theorem store_eq {pos : ℕ} {data : List UInt8} (h : pos + data.length ≤ szdest)
    (dest : List UInt8) : store szdest pos data dest = some (Ring.blit dest pos data) :=
  if_pos fun i hi => by omega

theorem writeThreeChecked_eq (szdest : ℕ) (d : Unescape) :
    d.writeThreeChecked szdest = some (d.writeThree szdest) := by
  rw [writeThreeChecked, writeThree]
  cases d.dest with
  | none => rfl
  | some dest =>
    dsimp only
    split
    · rfl
    · next hroom =>
      rw [store_eq (by simpa using hroom)]
      rfl

theorem fourLoopChecked_eq (unbase64 : List ℤ) (szdest fuel : ℕ) (d : Unescape) :
    fourLoopChecked unbase64 szdest fuel d = some (fourLoop unbase64 szdest fuel d) := by
  induction fuel generalizing d with
  | zero => rfl
  | succ fuel ih =>
    have hwrite : ∀ d' : Unescape,
        (do
          match ← d'.writeThreeChecked szdest with
          | none => return none
          | some d'' => fourLoopChecked unbase64 szdest fuel d'') =
        some ((d'.writeThree szdest).bind (fourLoop unbase64 szdest fuel)) := by
      intro d'
      rw [writeThreeChecked_eq, bind_eq_bind, bind_some]
      cases d'.writeThree szdest with
      | none => rfl
      | some d'' => exact ih d''
    rw [fourLoopChecked, fourLoop]
    rcases hsrc : d.src with _ | ⟨c₀, _ | ⟨c₁, _ | ⟨c₂, _ | ⟨c₃, src⟩⟩⟩⟩
    · rfl
    · rfl
    · rfl
    · rfl
    · dsimp only
      generalize (if decide (c₀ = 0 ∨ c₁ = 0 ∨ c₂ = 0) = true then d else _) = d₀
      split
      · split
        · exact hwrite _
        · rfl
      · exact hwrite _

theorem oneLoopChecked_eq (unbase64 : List ℤ) (szdest : ℕ) (src : List UInt8) (d : Unescape) :
    oneLoopChecked unbase64 szdest src d = some (oneLoop unbase64 szdest src d) := by
  induction src generalizing d with
  | nil => rfl
  | cons ch src ih =>
    rw [oneLoopChecked, oneLoop]
    dsimp only
    split
    · split
      · exact ih _
      · split
        · rfl
        · split <;> rfl
    · split
      · rw [writeThreeChecked_eq, bind_eq_bind, bind_some]
        generalize writeThree szdest _ = r
        cases r with
        | none => rfl
        | some d => exact ih _
      · exact ih _

theorem leftoverChecked_eq (szdest : ℕ) (d : Unescape) :
    d.leftoverChecked szdest = some (d.leftover szdest) := by
  unfold leftoverChecked leftover
  generalize d.state = state
  match state with
  | 0 => rfl
  | 1 => rfl
  | 2 =>
    cases d.dest with
    | none => rfl
    | some dest =>
      by_cases hfull : szdest < d.destidx + 1
      · exact (if_pos hfull).trans (congrArg some (if_pos hfull).symm)
      · refine (if_neg hfull).trans (Eq.trans ?_ (congrArg some (if_neg hfull).symm))
        rw [store_eq (by simpa using hfull)]
        rfl
  | 3 =>
    cases d.dest with
    | none => rfl
    | some dest =>
      by_cases hfull : szdest < d.destidx + 2
      · exact (if_pos hfull).trans (congrArg some (if_pos hfull).symm)
      · refine (if_neg hfull).trans (Eq.trans ?_ (congrArg some (if_neg hfull).symm))
        rw [store_eq (by simpa using hfull)]
        rfl
  | _ + 4 => rfl

end Unescape

/-- **No byte is written behind the size.** -/
theorem base64UnescapeInternalChecked_eq (src : List UInt8) (dest : Option (List UInt8)) (szdest : ℕ)
    (unbase64 : List ℤ) : base64UnescapeInternalChecked src dest szdest unbase64 =
      some (base64UnescapeInternal src dest szdest unbase64) := by
  rw [base64UnescapeInternalChecked, Unescape.base64UnescapeInternal_eq_finish, Unescape.fourLoopChecked_eq]
  cases Unescape.fourLoop unbase64 szdest (src.length + 1) ⟨src, dest, 0, 0, 0, 0, 0⟩ with
  | none => rfl
  | some d =>
    have hend : ∀ d' : Unescape, (do
          match ← d'.leftoverChecked szdest with
          | none => return none
          | some (d, expectedEquals) =>
            match Unescape.countEquals 0 d.src with
            | none => return none
            | some equals =>
              return if equals = 0 ∨ equals = expectedEquals then some (d.dest, d.destidx)
                else none) = some (d'.ending szdest) := by
      intro d'
      rw [Unescape.ending, Unescape.leftoverChecked_eq]
      cases d'.leftover szdest with
      | none => rfl
      | some r =>
        simp only [bind_eq_bind, bind_some]
        cases Unescape.countEquals 0 r.1.src <;> rfl
    rw [bind_some, Unescape.finish_eq]
    simp only [bind_eq_bind, bind_some]
    split
    · rfl
    · split
      · exact hend _
      · rw [Unescape.oneLoopChecked_eq]
        cases Unescape.oneLoop unbase64 szdest d.src d with
        | none => rfl
        | some d' => exact hend d'

/-! ## What is promised -/

namespace Unescape

/-- The first character that is neither data nor white space. -/
def firstStop (unbase64 : List ℤ) (src : List UInt8) : Option UInt8 :=
  src.find? fun c => decide (unbase64At unbase64 c < 0) && !asciiIsspace c

def beforeNul (src : List UInt8) : List UInt8 := src.takeWhile (· ≠ 0)

/-- **What is promised of a source**: nothing behind a NUL is read, white space may be anywhere, the
check without a buffer agrees with the decoder, and no byte is written behind the buffer. -/
structure OneMeaning (unbase64 : List ℤ) (src : List UInt8) : Prop where
  nul : 0 ∈ src → ∀ src', beforeNul src' = beforeNul src → ∀ dest szdest,
    base64UnescapeInternal src' dest szdest unbase64 =
      base64UnescapeInternal src dest szdest unbase64
  space : ∀ front spaces back, front ++ back = src → (∀ c ∈ spaces, asciiIsspace c = true) →
    ∀ dest szdest, base64UnescapeInternal (front ++ spaces ++ back) dest szdest unbase64 =
      base64UnescapeInternal src dest szdest unbase64
  noDest : ∀ dest szdest szdest',
    (∀ r, base64UnescapeInternal src none szdest' unbase64 = some r → r.2 ≤ szdest) →
    (base64UnescapeInternal src (some dest) szdest unbase64).map Prod.snd =
      (base64UnescapeInternal src none szdest' unbase64).map Prod.snd
  bounded : ∀ dest szdest, base64UnescapeInternalChecked src dest szdest unbase64 =
    some (base64UnescapeInternal src dest szdest unbase64)

theorem table_kUnBase64 : Table kUnBase64 where
  value := forall_byte (by decide +kernel)
  space := forall_byte (by decide +kernel)
  pad := forall_byte (by decide +kernel)
  nul := by decide

theorem table_kUnWebSafeBase64 : Table kUnWebSafeBase64 where
  value := forall_byte (by decide +kernel)
  space := forall_byte (by decide +kernel)
  pad := forall_byte (by decide +kernel)
  nul := by decide

section
variable {unbase64 : List ℤ} {src : List UInt8} {dest : Option (List UInt8)} {szdest : ℕ}

theorem firstStop_eq (unbase64 : List ℤ) (src : List UInt8) :
    firstStop unbase64 src = (scan unbase64 src).2.head? := by
  induction src with
  | nil => rfl
  | cons c src ih =>
    rw [firstStop] at ih ⊢
    rw [List.find?_cons, scan]
    split_ifs with hdata hspace
    · rw [decide_eq_false (not_lt.mpr hdata)]
      exact ih
    · rw [hspace, Bool.not_true, Bool.and_false]
      exact ih
    · rw [decide_eq_true (not_le.mp hdata), Bool.not_eq_true] at *
      rw [hspace]
      rfl

theorem countEquals_beforeNul (n : ℕ) (src : List UInt8) :
    countEquals n (beforeNul src) = countEquals n src := by
  induction src generalizing n with
  | nil => rfl
  | cons c src ih =>
    rw [beforeNul] at ih ⊢
    by_cases hnul : c = 0
    · rw [takeWhile_cons_of_neg (by simpa using hnul), countEquals, countEquals, if_pos hnul]
    · rw [takeWhile_cons_of_pos (by simpa using hnul), countEquals, countEquals, ih, ih]

theorem countEquals_space (n : ℕ) (front back : List UInt8) {spaces : List UInt8}
    (hspaces : ∀ c ∈ spaces, asciiIsspace c = true) :
    countEquals n (front ++ spaces ++ back) = countEquals n (front ++ back) := by
  induction front generalizing n with
  | nil =>
    induction spaces with
    | nil => rfl
    | cons c spaces ih =>
      have hspace := hspaces c mem_cons_self
      have hnul : c ≠ 0 := by
        rintro rfl
        exact absurd hspace (by decide)
      have hrest := ih fun d hd => hspaces d (mem_cons_of_mem c hd)
      rw [nil_append] at hrest ⊢
      rw [cons_append, countEquals, if_neg hnul,
        if_neg (Bool.eq_false_iff.mp (not_isPad64_of_isspace c hspace)), if_pos hspace]
      exact hrest
  | cons c front ih =>
    simp only [cons_append, countEquals]
    rw [ih, ih]

theorem meaning_space (table : Table unbase64) (front back : List UInt8) {spaces : List UInt8}
    (hspaces : ∀ c ∈ spaces, asciiIsspace c = true) :
    (scan unbase64 (front ++ spaces ++ back)).1 = (scan unbase64 (front ++ back)).1 ∧
      (scan unbase64 (front ++ spaces ++ back)).2.head? = (scan unbase64 (front ++ back)).2.head? ∧
      ∀ n, countEquals n (scan unbase64 (front ++ spaces ++ back)).2 =
        countEquals n (scan unbase64 (front ++ back)).2 := by
  induction front with
  | nil =>
    have hscan : scan unbase64 (spaces ++ back) = scan unbase64 back := by
      induction spaces with
      | nil => rfl
      | cons c spaces ih =>
        have hspace := hspaces c mem_cons_self
        rw [cons_append, scan_space (table.space c hspace) hspace]
        exact ih fun d hd => hspaces d (mem_cons_of_mem c hd)
    rw [nil_append, nil_append, hscan]
    exact ⟨rfl, rfl, fun _ => rfl⟩
  | cons c front ih =>
    simp only [cons_append, scan]
    split_ifs
    · exact ⟨congrArg (_ :: ·) ih.1, ih.2⟩
    · exact ih
    · exact ⟨rfl, rfl, fun n => countEquals_space n (c :: front) back hspaces⟩

theorem beforeNul_cons {c : UInt8} (hnul : c ≠ 0) (src : List UInt8) :
    beforeNul (c :: src) = c :: beforeNul src :=
  takeWhile_cons_of_pos (by simpa using hnul)

theorem beforeNul_nul (src : List UInt8) : beforeNul (0 :: src) = [] :=
  takeWhile_cons_of_neg (by simp)

theorem scan_of_beforeNul (table : Table unbase64) {src' : List UInt8} {c : UInt8} {r : List UInt8}
    (hbefore : beforeNul src' = beforeNul src) (hscan : (scan unbase64 src).2 = c :: r) (hnul : c ≠ 0) :
    (scan unbase64 src').1 = (scan unbase64 src).1 ∧
      ∃ r', (scan unbase64 src').2 = c :: r' ∧ beforeNul r' = beforeNul r := by
  induction src generalizing src' with
  | nil => exact absurd hscan (by simp [scan])
  | cons a src ih =>
    by_cases ha : a = 0
    · rw [ha, scan_stop table.nul rfl] at hscan
      exact absurd (List.cons.inj hscan).1.symm hnul
    · rw [beforeNul_cons ha] at hbefore
      cases src' with
      | nil => exact absurd hbefore (by simp [beforeNul])
      | cons a' src' =>
        by_cases ha' : a' = 0
        · rw [ha', beforeNul_nul] at hbefore
          exact absurd hbefore (by simp)
        · rw [beforeNul_cons ha'] at hbefore
          obtain ⟨rfl, hbehind⟩ := List.cons.inj hbefore
          rw [scan] at hscan ⊢
          rw [scan]
          split_ifs at hscan ⊢ with hdata hspace
          · obtain ⟨hvalues, hrest⟩ := ih hbehind hscan
            exact ⟨congrArg (_ :: ·) hvalues, hrest⟩
          · exact ih hbehind hscan
          · cases hscan
            exact ⟨rfl, src', rfl, hbehind⟩

theorem mem_of_scan_nil (table : Table unbase64) (hscan : (scan unbase64 src).2 = []) : 0 ∉ src := by
  intro hmem
  have hstop := firstStop_eq unbase64 src
  rw [hscan, firstStop, List.head?_nil, List.find?_eq_none] at hstop
  refine hstop 0 hmem ?_
  rw [decide_eq_true table.nul]
  rfl

theorem outcome_congr {values : List ℕ} {rest rest' : List UInt8}
    (h : countEquals 0 rest' = countEquals 0 rest) :
    outcome dest szdest values rest' = outcome dest szdest values rest := by
  rw [outcome, outcome, h]

theorem outcome_noDest {values : List ℕ} {rest : List UInt8} {buf : List UInt8} {szdest' : ℕ}
    (hfits : ∀ r, outcome none szdest' values rest = some r → r.2 ≤ szdest) :
    (outcome (some buf) szdest values rest).map Prod.snd = (outcome none szdest' values rest).map Prod.snd := by
  by_cases hodd : values.length % 4 = 1
  · rw [outcome, outcome, if_pos (.inl hodd), if_pos (.inl hodd)]
  have hnone : ¬ (values.length % 4 = 1 ∨
      (none : Option (List UInt8)).isSome = true ∧ szdest' < (packed values).length) := by
    simpa using hodd
  rw [outcome, if_neg hnone] at hfits
  rw [outcome, outcome, if_neg hnone]
  cases hcount : countEquals 0 rest with
  | none => split <;> rfl
  | some equals =>
    rw [hcount] at hfits
    simp only [bind_eq_bind, bind_some] at hfits ⊢
    by_cases hequals : equals = 0 ∨ equals = (4 - values.length % 4) % 4
    · rw [if_pos hequals] at hfits
      have hle := hfits _ rfl
      have hroom : ¬ (values.length % 4 = 1 ∨
          (some buf).isSome = true ∧ szdest < (packed values).length) := by
        rintro (h | ⟨-, h⟩)
        · exact hodd h
        · exact absurd h (not_lt.mpr hle)
      rw [if_neg hroom, if_pos hequals, if_pos hequals]
      rfl
    · rw [if_neg hequals, if_neg hequals]
      split <;> rfl

theorem not_nul_of_head {rest : List UInt8} (h : rest.head? ≠ some 0) (r : List UInt8) : rest ≠ 0 :: r := by
  rintro rfl
  exact h rfl

/-- A stop that is not a NUL keeps the promise. -/
theorem oneMeaning_of_firstStop (table : Table unbase64) (h : firstStop unbase64 src ≠ some 0) :
    OneMeaning unbase64 src where
  nul hmem src' hbefore dest szdest := by
    rw [firstStop_eq] at h
    cases hscan : (scan unbase64 src).2 with
    | nil => exact absurd hmem (mem_of_scan_nil table hscan)
    | cons c r =>
      have hnul : c ≠ 0 := by
        rintro rfl
        exact h (by rw [hscan]; rfl)
      obtain ⟨hvalues, r', hscan', hrest⟩ := scan_of_beforeNul table hbefore hscan hnul
      have hcount : countEquals 0 (c :: r') = countEquals 0 (c :: r) := by
        rw [← countEquals_beforeNul, beforeNul_cons hnul, hrest, ← beforeNul_cons hnul, countEquals_beforeNul]
      rw [base64UnescapeInternal_eq_meaning table (not_nul_of_head h), base64UnescapeInternal_eq_meaning table
          (not_nul_of_head (by rw [hscan']; simpa using hnul)),
        meaning, meaning, hvalues, hscan, hscan']
      exact outcome_congr hcount
  space front spaces back hsrc hspaces dest szdest := by
    subst hsrc
    rw [firstStop_eq] at h
    obtain ⟨hvalues, hhead, hcount⟩ := meaning_space table front back hspaces
    rw [base64UnescapeInternal_eq_meaning table (not_nul_of_head h),
      base64UnescapeInternal_eq_meaning table (not_nul_of_head (by rw [hhead]; exact h)), meaning,
      meaning, hvalues]
    exact outcome_congr (hcount 0)
  noDest dest szdest szdest' hfits := by
    rw [firstStop_eq] at h
    rw [base64UnescapeInternal_eq_meaning table (not_nul_of_head h)] at hfits ⊢
    rw [base64UnescapeInternal_eq_meaning table (not_nul_of_head h)]
    exact outcome_noDest hfits
  bounded dest szdest := base64UnescapeInternalChecked_eq src dest szdest unbase64

theorem scan_beforeNul (table : Table unbase64) {tail : List UInt8}
    (hscan : (scan unbase64 src).2 = 0 :: tail) : scan unbase64 (beforeNul src) = ((scan unbase64 src).1, []) ∧
      ∀ t, scan unbase64 (beforeNul src ++ 0 :: t) = ((scan unbase64 src).1, 0 :: t) := by
  induction src with
  | nil => exact absurd hscan (by simp [scan])
  | cons c src ih =>
    by_cases hnul : c = 0
    · subst hnul
      rw [beforeNul_nul, scan_stop table.nul rfl]
      exact ⟨rfl, fun t => scan_stop table.nul rfl t⟩
    · rw [beforeNul_cons hnul]
      simp only [cons_append, scan] at hscan ⊢
      split_ifs at hscan ⊢ with hdata hspace
      · obtain ⟨hfirst, hsecond⟩ := ih hscan
        exact ⟨by rw [hfirst], fun t => by rw [hsecond]⟩
      · exact ih hscan
      · exact absurd (List.cons.inj hscan).1 hnul

theorem beforeNul_append (src t : List UInt8) : beforeNul (beforeNul src ++ 0 :: t) = beforeNul src := by
  induction src with
  | nil => exact beforeNul_nul t
  | cons c src ih =>
    by_cases hnul : c = 0
    · rw [hnul, beforeNul_nul]
      exact beforeNul_nul t
    · rw [beforeNul_cons hnul, cons_append, beforeNul_cons hnul, ih]

/-- A NUL that stops the data is read past. -/
theorem firstStop_of_oneMeaning (table : Table unbase64) (hillegal : unbase64At unbase64 33 < 0)
    (hdata : unbase64At unbase64 65 = 0) (h : OneMeaning unbase64 src) : firstStop unbase64 src ≠ some 0 := by
  intro hstop
  have hmem : 0 ∈ src := List.mem_of_find?_eq_some hstop
  rw [firstStop_eq] at hstop
  obtain ⟨tail, htail⟩ : ∃ tail, (scan unbase64 src).2 = 0 :: tail := by
    cases hscan : (scan unbase64 src).2 with
    | nil => rw [hscan] at hstop; exact absurd hstop (by simp)
    | cons c r =>
      rw [hscan] at hstop
      exact ⟨r, by rw [Option.some.inj hstop]⟩
  obtain ⟨hbefore, hpast⟩ := scan_beforeNul table htail
  -- an illegal character behind the NUL is an error
  have hscan₁ : scan unbase64 [33, 33, 33] = ([], [33, 33, 33]) := scan_stop hillegal rfl _
  have hnone := base64UnescapeInternal_past_nul table
    (hpast [33, 33, 33]) (by decide) (by rw [hscan₁]; simp) none 0
  rw [hscan₁, outcome_of_illegal (by decide) rfl rfl,
    h.nul hmem _ (beforeNul_append src _) none 0] at hnone
  by_cases hodd : (scan unbase64 src).1.length % 4 = 1
  · -- a data character behind it makes a byte of a single character
    have hscan₂ : scan unbase64 [65, 32, 32, 32] = ([0], []) := by
      rw [scan_data (v := 0) hdata, scan_space (table.space 32 rfl) rfl,
        scan_space (table.space 32 rfl) rfl, scan_space (table.space 32 rfl) rfl]
      rfl
    have hsome := base64UnescapeInternal_past_nul table
      (hpast [65, 32, 32, 32]) (by decide) (by rw [hscan₂]; simp) none 0
    have hlength : ¬ (((scan unbase64 src).1 ++ [0]).length % 4 = 1 ∨
        (none : Option (List UInt8)).isSome = true ∧
          0 < (packed ((scan unbase64 src).1 ++ [0])).length) := by
      rw [length_append, length_singleton]
      rintro (hone | ⟨hfalse, -⟩)
      · omega
      · exact absurd hfalse (by simp)
    rw [hscan₂, outcome, if_neg hlength, h.nul hmem _ (beforeNul_append src _) none 0, hnone] at hsome
    simp [countEquals] at hsome
  · -- the source up to the NUL is none
    have hsome := base64UnescapeInternal_eq_meaning table
      (show ∀ r, (scan unbase64 (beforeNul src)).2 ≠ 0 :: r by rw [hbefore]; simp) none 0
    have hlength : ¬ ((scan unbase64 src).1.length % 4 = 1 ∨
        (none : Option (List UInt8)).isSome = true ∧ 0 < (packed (scan unbase64 src).1).length) := by
      simpa using hodd
    have hagain : beforeNul (beforeNul src) = beforeNul src := takeWhile_idem
    rw [meaning, hbefore, outcome, if_neg hlength, h.nul hmem _ hagain none 0, hnone] at hsome
    simp [countEquals] at hsome

end

/-- **The sources that keep the promise**: the first character that is neither data nor white space
is not a NUL. -/
theorem oneMeaning_iff (unbase64 : List ℤ)
    (htable : unbase64 = kUnBase64 ∨ unbase64 = kUnWebSafeBase64) (src : List UInt8) :
    OneMeaning unbase64 src ↔ firstStop unbase64 src ≠ some 0 := by
  rcases htable with rfl | rfl
  · exact ⟨firstStop_of_oneMeaning table_kUnBase64 (by decide) (by decide),
      oneMeaning_of_firstStop table_kUnBase64⟩
  · exact ⟨firstStop_of_oneMeaning table_kUnWebSafeBase64 (by decide) (by decide),
      oneMeaning_of_firstStop table_kUnWebSafeBase64⟩

/-- A NUL behind a pad character, and a digit behind that. -/
theorem oneMeaning_iff_pad : OneMeaning kUnBase64 [65, 65, 61, 0, 65] :=
  (oneMeaning_iff kUnBase64 (.inl rfl) [65, 65, 61, 0, 65]).mpr (by decide)

/-- Three digits, a NUL and an exclamation mark are an error, although the NUL ends the string. -/
theorem not_oneMeaning_nul : ¬ OneMeaning kUnBase64 [65, 65, 65, 0, 33] := by
  intro h
  have hsame := h.nul (by decide) [65, 65, 65, 0] (by decide) none 0
  revert hsame
  decide +kernel

end Unescape

end Protoc.Stubs
