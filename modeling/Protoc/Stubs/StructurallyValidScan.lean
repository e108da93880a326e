import Mathlib.Tactic.IntervalCases
import Protoc.Stubs.StructurallyValidStates

/-!
# The UTF-8 scan

The scans stop at the end of the longest prefix that is well formed, whatever the alignment, and
read only the string.
-/

namespace Protoc.Stubs

open Protoc.Lib
open List Option
open Protoc.Lib.Scanner
open Protoc.Lib.Utf8 (Continuation Character WellFormed)

/-! ## ASCII -/

/-- The bytes before a position are in the string and are ASCII. -/
def AsciiBefore (str : List UInt8) (src : ℕ) : Prop :=
  ∀ i < src, ∃ c, str[i]? = some c ∧ c.toNat < 0x80

variable {str : List UInt8} {src limit : ℕ}

theorem asciiBefore_zero : AsciiBefore str 0 := fun _ h => absurd h (Nat.not_lt_zero _)

variable {c : UInt8}

theorem AsciiBefore.succ (h : AsciiBefore str src) (hc : str[src]? = some c)
    (hascii : c.toNat < 0x80) : AsciiBefore str (src + 1) := by
  intro i hi
  rcases Nat.lt_succ_iff_lt_or_eq.mp hi with hi | rfl
  · exact h i hi
  · exact ⟨c, hc, hascii⟩

theorem AsciiBefore.le_length (h : AsciiBefore str src) : src ≤ str.length := by
  cases src with
  | zero => exact Nat.zero_le _
  | succ src =>
    obtain ⟨c, hc, -⟩ := h src (Nat.lt_succ_self src)
    exact (List.getElem?_eq_some_iff.mp hc).1

theorem nextState_ascii (hc : c.toNat < 0x80) : nextState 0 c = some 0 := by
  rw [nextState_zero, leadState, if_pos hc]

theorem AsciiBefore.run (h : AsciiBefore str src) : (str.take src).foldlM nextState 0 = some 0 := by
  induction src with
  | zero => rfl
  | succ src ih =>
    obtain ⟨c, hc, hascii⟩ := h src (Nat.lt_succ_self src)
    have hbefore : AsciiBefore str src := fun i hi => h i (Nat.lt_succ_of_lt hi)
    rw [take_add_one, hc, foldlM_append, ih hbefore]
    simp [nextState_ascii hascii]

theorem fastState_eq_zero_iff : utf8acceptnonsurrogatesFast c.toNat = 0 ↔ c.toNat < 0x80 := by
  have hc : c.toNat < 256 := c.toNat_lt
  rw [utf8acceptnonsurrogatesFast, entry, entry]
  by_cases hlow : c.toNat < 128
  · simp [hlow]
  · rw [if_neg hlow, if_pos (by omega)]
    simp [hlow]

/-! ## Words -/

theorem toNat_lt_of_getLsbD (h : c.toBitVec.getLsbD 7 = false) : c.toNat < 0x80 := by
  have hmsb : c.toBitVec.msb = false := by
    rw [BitVec.msb_eq_getLsbD_last]
    exact h
  have hlt := BitVec.toNat_lt_of_msb_false hmsb
  exact hlt

theorem getLsbD_eq_false {w : BitVec 32} (hw : w &&& highBits = 0) {k : ℕ}
    (hk : highBits.getLsbD k = true) : w.getLsbD k = false := by
  have hbit : (w &&& highBits).getLsbD k = false := by simp [hw]
  rwa [BitVec.getLsbD_and, hk, Bool.and_true] at hbit

theorem or_and_highBits {v w : BitVec 32} (h : (v ||| w) &&& highBits = 0) :
    v &&& highBits = 0 ∧ w &&& highBits = 0 := by
  rw [BitVec.and_or_distrib_right] at h
  exact BitVec.or_eq_zero_iff.mp h

theorem AsciiBefore.word {w : BitVec 32} (hbefore : AsciiBefore str src)
    (h : loadWord str src = some w) (hw : w &&& highBits = 0) : AsciiBefore str (src + 4) := by
  simp only [loadWord, bind_eq_bind, bind_eq_some_iff, some.injEq] at h
  obtain ⟨b0, h0, b1, h1, b2, h2, b3, h3, rfl⟩ := h
  have bit7 := getLsbD_eq_false hw (k := 7) rfl
  have bit15 := getLsbD_eq_false hw (k := 15) rfl
  have bit23 := getLsbD_eq_false hw (k := 23) rfl
  have bit31 := getLsbD_eq_false hw (k := 31) rfl
  simp only [BitVec.getLsbD_append, Nat.reduceLT, Nat.reduceSub, ↓reduceIte] at bit7 bit15 bit23 bit31
  exact (((hbefore.succ h0 (toNat_lt_of_getLsbD bit7)).succ h1 (toNat_lt_of_getLsbD bit15)).succ h2
    (toNat_lt_of_getLsbD bit23)).succ h3 (toNat_lt_of_getLsbD bit31)

theorem AsciiBefore.fastState4 (hbefore : AsciiBefore str src)
    (h : fastState4 utf8acceptnonsurrogatesObj str src = some 0) : AsciiBefore str (src + 4) := by
  simp only [Stubs.fastState4, bind_eq_bind, bind_eq_some_iff, some.injEq, Nat.or_eq_zero_iff] at h
  obtain ⟨c0, h0, c1, h1, c2, h2, c3, h3, ⟨e0, e1⟩, e2, e3⟩ := h
  exact (((hbefore.succ h0 (fastState_eq_zero_iff.mp e0)).succ h1 (fastState_eq_zero_iff.mp e1)).succ h2
    (fastState_eq_zero_iff.mp e2)).succ h3 (fastState_eq_zero_iff.mp e3)

theorem exists_getElem? {i : ℕ} (h : i < str.length) : ∃ c, str[i]? = some c :=
  ⟨str[i], List.getElem?_eq_getElem h⟩

theorem exists_loadWord (h : src + 4 ≤ str.length) : ∃ w, loadWord str src = some w := by
  obtain ⟨b0, h0⟩ := exists_getElem? (by omega : src < str.length)
  obtain ⟨b1, h1⟩ := exists_getElem? (by omega : src + 1 < str.length)
  obtain ⟨b2, h2⟩ := exists_getElem? (by omega : src + 2 < str.length)
  obtain ⟨b3, h3⟩ := exists_getElem? (by omega : src + 3 < str.length)
  simp [loadWord, h0, h1, h2, h3]

theorem exists_fastState4 (st : UTF8ScanObj) (h : src + 4 ≤ str.length) :
    ∃ e, Stubs.fastState4 st str src = some e := by
  obtain ⟨c0, h0⟩ := exists_getElem? (by omega : src < str.length)
  obtain ⟨c1, h1⟩ := exists_getElem? (by omega : src + 1 < str.length)
  obtain ⟨c2, h2⟩ := exists_getElem? (by omega : src + 2 < str.length)
  obtain ⟨c3, h3⟩ := exists_getElem? (by omega : src + 3 < str.length)
  simp [Stubs.fastState4, h0, h1, h2, h3]

/-! ## The fast paths -/

theorem skipUnaligned_spec (addr : ℕ) {identity : UInt8 → Bool}
    (hidentity : ∀ c, identity c = true → c.toNat < 0x80) {count : ℕ} (hcount : src + count ≤ str.length)
    (hbefore : AsciiBefore str src) :
    ∃ src', skipUnaligned addr str identity count src = some src' ∧ AsciiBefore str src' := by
  induction count generalizing src with
  | zero => exact ⟨src, rfl, hbefore⟩
  | succ count ih =>
    have hc : str[src]? = some str[src] := List.getElem?_eq_getElem (by omega)
    rw [skipUnaligned, hc, bind_eq_bind, bind_some]
    split_ifs with haligned hskip
    · exact ⟨src, rfl, hbefore⟩
    · exact ih (by omega) (hbefore.succ hc (hidentity _ hskip))
    · exact ⟨src, rfl, hbefore⟩

theorem skipBytes_spec {identity : UInt8 → Bool}
    (hidentity : ∀ c, identity c = true → c.toNat < 0x80) {count : ℕ} (hcount : src + count ≤ str.length)
    (hbefore : AsciiBefore str src) :
    ∃ src', skipBytes str identity count src = some src' ∧ AsciiBefore str src' := by
  induction count generalizing src with
  | zero => exact ⟨src, rfl, hbefore⟩
  | succ count ih =>
    have hc : str[src]? = some str[src] := List.getElem?_eq_getElem (by omega)
    rw [skipBytes, hc, bind_eq_bind, bind_some]
    split_ifs with hskip
    · exact ih (by omega) (hbefore.succ hc (hidentity _ hskip))
    · exact ⟨src, rfl, hbefore⟩

theorem skipAsciiGroups_spec {rounds : ℕ} (hlimit : limit = 0 ∨ limit + 7 ≤ str.length)
    (hbefore : AsciiBefore str src) :
    ∃ src', skipAsciiGroups str limit rounds src = some src' ∧ AsciiBefore str src' := by
  induction rounds generalizing src with
  | zero => exact ⟨src, rfl, hbefore⟩
  | succ rounds ih =>
    rw [skipAsciiGroups]
    split_ifs with hsrc
    · obtain ⟨s0123, h0123⟩ := exists_loadWord (by omega : src + 4 ≤ str.length)
      obtain ⟨s4567, h4567⟩ := exists_loadWord (by omega : src + 4 + 4 ≤ str.length)
      simp only [h0123, h4567, bind_eq_bind, bind_some]
      split_ifs with hascii
      · obtain ⟨hfirst, hsecond⟩ := or_and_highBits hascii
        exact ih ((hbefore.word h0123 hfirst).word h4567 hsecond)
      · exact ⟨src, rfl, hbefore⟩
    · exact ⟨src, rfl, hbefore⟩

theorem skipGroups_spec {rounds : ℕ} (hlimit : limit = 0 ∨ limit + 7 ≤ str.length)
    (hbefore : AsciiBefore str src) :
    ∃ src', skipGroups utf8acceptnonsurrogatesObj str limit rounds src = some src' ∧ AsciiBefore str src' := by
  induction rounds generalizing src with
  | zero => exact ⟨src, rfl, hbefore⟩
  | succ rounds ih =>
    rw [skipGroups]
    split_ifs with hsrc
    · obtain ⟨s0123, h0123⟩ := exists_loadWord (by omega : src + 4 ≤ str.length)
      obtain ⟨s4567, h4567⟩ := exists_loadWord (by omega : src + 4 + 4 ≤ str.length)
      obtain ⟨e0123, he0123⟩ :=
        exists_fastState4 utf8acceptnonsurrogatesObj (by omega : src + 4 ≤ str.length)
      obtain ⟨e4567, he4567⟩ :=
        exists_fastState4 utf8acceptnonsurrogatesObj (by omega : src + 4 + 4 ≤ str.length)
      simp only [h0123, h4567, he0123, he4567, bind_eq_bind, bind_some]
      split_ifs with hhigh hfirst hsecond
      · exact ⟨src, rfl, hbefore⟩
      · rw [not_not] at hfirst
        exact ⟨src + 4, rfl, hbefore.fastState4 (hfirst ▸ he0123)⟩
      · rw [not_not] at hfirst hsecond
        exact ih ((hbefore.fastState4 (hfirst ▸ he0123)).fastState4 (hsecond ▸ he4567))
      · -- nothing is added to the words, so their own high bits count
        have hadd : ∀ w : BitVec 32, w + utf8acceptnonsurrogatesObj.hiadd = w := BitVec.add_zero
        rw [not_not, hadd, hadd] at hhigh
        obtain ⟨hrest, hsecond⟩ := or_and_highBits hhigh
        have hfirst := (or_and_highBits (or_and_highBits hrest).1).2
        exact ih ((hbefore.word h0123 hfirst).word h4567 hsecond)
    · exact ⟨src, rfl, hbefore⟩

/-! ## Byte at a time -/

theorem entry_eq_zero_or_mem (runs : List (ℕ × ℕ)) (i : ℕ) :
    entry runs i = 0 ∨ entry runs i ∈ runs.map Prod.snd := by
  induction runs generalizing i with
  | nil => exact Or.inl rfl
  | cons run runs ih =>
    obtain ⟨count, e⟩ := run
    rw [entry]
    split_ifs
    · exact Or.inr mem_cons_self
    · exact (ih _).imp_right (mem_cons_of_mem _)

theorem utf8acceptnonsurrogates_ne (i : ℕ) : utf8acceptnonsurrogates i ≠ kExitDoAgain := by
  rcases entry_eq_zero_or_mem utf8acceptnonsurrogatesStates.flatten i with h | h
  · rw [utf8acceptnonsurrogates, h]
    decide
  · intro he
    rw [utf8acceptnonsurrogates] at he
    rw [he] at h
    exact absurd h (by decide)

/-- How the byte-at-a-time scan ends: at its limit, or with a byte that the state cannot take. -/
theorem scanBytes_spec {count s : ℕ} (e : ℕ) (hcount : src + count ≤ str.length)
    (hrun : (str.take src).foldlM nextState 0 = some s) (he : e < kExitIllegalStructure) :
    ∃ e' t p, (str.take p).foldlM nextState 0 = some t ∧
      ((scanBytes utf8acceptnonsurrogatesObj str count src (256 * s) e = some (e', 256 * t, p) ∧
          e' < kExitIllegalStructure ∧ p = src + count) ∨
        (scanBytes utf8acceptnonsurrogatesObj str count src (256 * s) e = some (e', 256 * t, p + 1) ∧
          kExitIllegalStructure ≤ e' ∧ e' ≠ kExitDoAgain ∧ p < src + count ∧
          Stuck nextState t (str.drop p))) := by
  induction count generalizing src s e with
  | zero => exact ⟨e, s, src, hrun, Or.inl ⟨rfl, he, rfl⟩⟩
  | succ count ih =>
    obtain ⟨c, hc⟩ := exists_getElem? (by omega : src < str.length)
    have htable : utf8acceptnonsurrogatesObj.stateTable
        (utf8acceptnonsurrogatesObj.state0 + 256 * s + c.toNat) =
        utf8acceptnonsurrogates (256 * s + c.toNat) := by
      rw [show utf8acceptnonsurrogatesObj.state0 = 0 from rfl, zero_add]
      rfl
    rw [scanBytes, hc, bind_eq_bind, bind_some, htable]
    generalize hnext : utf8acceptnonsurrogates (256 * s + c.toNat) = next
    by_cases hexit : kExitIllegalStructure ≤ next
    · refine ⟨next, s, src, hrun, Or.inr ⟨if_pos hexit, hexit, ?_, by omega, ?_⟩⟩
      · rw [← hnext]
        exact utf8acceptnonsurrogates_ne _
      · intro b hb
        rw [List.head?_drop, hc] at hb
        obtain rfl : c = b := some.inj hb
        rw [nextState, hnext, afterEntry, if_neg (not_lt.mpr hexit)]
    · have hlt : next < kExitIllegalStructure := not_le.mp hexit
      have hrun' : (str.take (src + 1)).foldlM nextState 0 = some next := by
        rw [take_add_one, hc, foldlM_append, hrun]
        simp [nextState, hnext, afterEntry_of_lt hlt]
      obtain ⟨e', t, p, ht, hp⟩ := ih next (by omega) hrun' hlt
      have hshift : next <<< utf8acceptnonsurrogatesObj.entryShift = 256 * next :=
        (Nat.shiftLeft_eq next 8).trans (mul_comm _ _)
      rw [if_neg hexit, hshift]
      rw [add_right_comm src 1 count] at hp
      exact ⟨e', t, p, ht, hp⟩

/-! ## Where a scan stops -/

/-- The string begins with so many bytes of characters, and then a part of one that the next byte,
or the end, does not let go on. -/
def ScannedTo (str : List UInt8) (n : ℕ) : Prop :=
  ∃ (cs : List (List UInt8)) (part rest : List UInt8) (t : ℕ),
    str = cs.flatten ++ (part ++ rest) ∧ (∀ c ∈ cs, Accepts nextState 0 0 c) ∧
      Leads nextState 0 0 part t ∧ Stuck nextState t rest ∧ cs.flatten.length = n

variable {n : ℕ}

theorem AsciiBefore.scannedTo (hbefore : AsciiBefore str src)
    (h : ScannedTo (str.drop src) n) : ScannedTo str (src + n) := by
  obtain ⟨cs, part, rest, t, hstr, hcs, hpart, hstuck, rfl⟩ := h
  have hlength : (str.take src).length = src := length_take_of_le hbefore.le_length
  have hascii : ((str.take src).map fun c => [c]).flatten = str.take src := by
    rw [← flatMap_def, flatMap_singleton']
  refine ⟨(str.take src).map (fun c => [c]) ++ cs, part, rest, t, ?_, ?_, hpart, hstuck, ?_⟩
  · calc str = str.take src ++ str.drop src := (take_append_drop src str).symm
      _ = _ := by rw [hstr, flatten_append, hascii, append_assoc]
  · intro c hc
    rcases mem_append.mp hc with hc | hc
    · obtain ⟨b, hb, rfl⟩ := List.mem_map.mp hc
      obtain ⟨i, hi, rfl⟩ := mem_iff_getElem.mp hb
      obtain ⟨b, hget, hascii⟩ := hbefore i (hlength ▸ hi)
      have hnext := nextState_ascii hascii
      obtain rfl : (str.take src)[i] = b := by
        rw [getElem_take]
        exact (getElem_eq_iff _).mpr hget
      exact Or.inl ⟨hnext, rfl⟩
    · exact hcs c hc
  · rw [flatten_append, hascii, length_append, hlength]

theorem continuation_iff (c : UInt8) : c &&& 0xc0 = 0x80 ↔ Continuation c.toNat := by
  have hall : ∀ b < 256, b &&& 0xc0 = 0x80 ↔ 0x80 ≤ b ∧ b < 0xC0 := by
    set_option maxRecDepth 8000 in decide
  rw [← UInt8.toNat_inj, UInt8.toNat_and]
  exact hall c.toNat c.toNat_lt

theorem nextState_spec {s t : ℕ} (hs : s ≤ 8) (h : nextState s c = some t) :
    t ≤ 8 ∧ (s ≠ 0 → Continuation c.toNat) := by
  rw [Continuation]
  interval_cases s
  · rw [nextState_zero, leadState] at h
    split_ifs at h <;> simp only [some.injEq] at h <;> omega
  · rw [nextState_one, ite_none_right_eq_some, some.injEq] at h
    omega
  · rw [nextState_two, ite_none_right_eq_some, some.injEq] at h
    omega
  · rw [nextState_three, ite_none_right_eq_some, some.injEq] at h
    omega
  · rw [nextState_four, ite_none_right_eq_some, some.injEq] at h
    omega
  · rw [nextState_five, ite_none_right_eq_some, some.injEq] at h
    omega
  · rw [nextState_six, ite_none_right_eq_some, some.injEq] at h
    omega
  · rw [nextState_seven] at h
    split_ifs at h <;> simp only [some.injEq] at h <;> omega
  · simp [nextState_eight] at h

theorem not_continuation_of_lead {t : ℕ} (h : nextState 0 c = some t) : ¬ Continuation c.toNat := by
  rw [nextState_zero, leadState] at h
  rw [Continuation]
  split_ifs at h <;> simp only [some.injEq] at h <;> omega

theorem continuation_of_leads {part : List UInt8} {s t : ℕ} (hs : s ≤ 8) (hne : s ≠ 0)
    (h : Leads nextState 0 s part t) : ∀ c ∈ part, Continuation c.toNat := by
  induction part generalizing s with
  | nil => exact nofun
  | cons b part ih =>
    obtain ⟨u, hu, hu0, hrest⟩ := h
    obtain ⟨hle, hcont⟩ := nextState_spec hs hu
    exact forall_mem_cons.mpr ⟨hcont hne, ih hle hu0 hrest⟩

theorem backUp_part (before after : List UInt8) {conts : List UInt8} {lead : UInt8}
    (hlead : ¬ Continuation lead.toNat) (hconts : ∀ c ∈ conts, Continuation c.toNat) :
    backUp (before ++ lead :: conts ++ after) (before.length + 1 + conts.length) = some before.length := by
  induction conts using reverseRecOn generalizing after with
  | nil =>
    have hget : (before ++ [lead] ++ after)[before.length]? = some lead := by simp
    rw [length_nil, add_zero, backUp, hget, bind_eq_bind, bind_some,
      if_neg (mt (continuation_iff lead).mp hlead), ite_self]
  | append_singleton conts c ih =>
    have hlength : before.length + 1 + (conts ++ [c]).length =
        before.length + 1 + conts.length + 1 := by simp [add_assoc]
    have hsplit : before ++ lead :: (conts ++ [c]) ++ after =
        before ++ lead :: conts ++ (c :: after) := by simp
    have hget : (before ++ lead :: conts ++ (c :: after))[before.length + 1 + conts.length]? =
        some c := by
      have hpos : before.length + 1 + conts.length = (before ++ lead :: conts).length := by
        simp only [length_append, length_cons]
        omega
      rw [hpos, List.getElem?_append_right le_rfl, Nat.sub_self]
      rfl
    have hc : Continuation c.toNat := hconts c (by simp)
    rw [hlength, hsplit, backUp, if_pos (by omega), hget, bind_eq_bind, bind_some,
      if_pos ((continuation_iff c).mpr hc)]
    exact ih (c :: after) fun b hb => hconts b (mem_append_left _ hb)

theorem exists_scannedTo {p t : ℕ} (hp : p ≤ str.length)
    (hrun : (str.take p).foldlM nextState 0 = some t) (hstuck : Stuck nextState t (str.drop p)) :
    ∃ n, ScannedTo str n ∧ (t = 0 → n = p) ∧ (t ≠ 0 → backUp str p = some n) := by
  obtain ⟨cs, part, htake, hcs, hpart⟩ := exists_characters hrun
  have hstr : str = cs.flatten ++ (part ++ str.drop p) := by
    rw [← append_assoc, ← htake, take_append_drop]
  have hlength : cs.flatten.length + part.length = p := by
    rw [← length_append, ← htake, length_take_of_le hp]
  refine ⟨cs.flatten.length, ⟨cs, part, str.drop p, t, hstr, hcs, hpart, hstuck, rfl⟩, ?_, ?_⟩
  · intro ht
    have hnil : part = [] := by
      by_contra hne
      exact ne_start_of_leads hpart hne ht
    rw [← hlength, hnil, length_nil, add_zero]
  · intro ht
    cases part with
    | nil => exact absurd (show 0 = t from hpart).symm ht
    | cons lead conts =>
      obtain ⟨u, hu, hu0, hconts⟩ := hpart
      have hcont := continuation_of_leads (nextState_spec (Nat.zero_le 8) hu).1 hu0 hconts
      have hback := backUp_part cs.flatten (str.drop p) (not_continuation_of_lead hu) hcont
      rw [append_assoc, ← hstr] at hback
      rw [← hback, ← hlength, length_cons]
      congr 1
      omega

theorem inStateZero_iff (t : ℕ) : inStateZero utf8acceptnonsurrogatesObj (256 * t) = true ↔ t = 0 := by
  rw [inStateZero, decide_eq_true_iff, show utf8acceptnonsurrogatesObj.state0Size = 256 from rfl]
  omega

theorem exitScan_spec (hbefore : AsciiBefore str src) :
    ∃ e tbl p e' n, scanBytes utf8acceptnonsurrogatesObj str (str.length - src) src 0 0 = some (e, tbl, p) ∧
      exitScan utf8acceptnonsurrogatesObj str e tbl p = some (e', n) ∧ e' ≠ kExitDoAgain ∧ ScannedTo str n := by
  have hle := hbefore.le_length
  obtain ⟨e, t, p, hrun, hend⟩ := scanBytes_spec 0 (by omega : src + (str.length - src) ≤ str.length)
    hbefore.run (by decide)
  rw [mul_zero, Nat.add_sub_of_le hle] at hend
  rcases hend with ⟨hscan, he, rfl⟩ | ⟨hscan, he, hagain, hp, hstuck⟩
  · -- the end of the string
    have hstuck : Stuck nextState t (str.drop str.length) := by simp [Stuck]
    obtain ⟨n, hn, hzero, hback⟩ := exists_scannedTo le_rfl hrun hstuck
    have hcode : ¬ kExitIllegalStructure ≤ e := not_le.mpr he
    by_cases ht : t = 0
    · refine ⟨e, 256 * t, str.length, kExitOK, n, hscan, ?_, by decide, hn⟩
      rw [exitScan, if_neg hcode, if_pos ((inStateZero_iff t).mpr ht), hzero ht]
    · refine ⟨e, 256 * t, str.length, kExitIllegalStructure, n, hscan, ?_, by decide, hn⟩
      rw [exitScan, if_neg hcode, if_neg (mt (inStateZero_iff t).mp ht), hback ht]
      rfl
  · -- a byte that is refused
    obtain ⟨n, hn, hzero, hback⟩ := exists_scannedTo (le_of_lt hp) hrun hstuck
    refine ⟨e, 256 * t, p + 1, e, n, hscan, ?_, hagain, hn⟩
    by_cases ht : t = 0
    · rw [exitScan, if_pos he, if_pos ((inStateZero_iff t).mpr ht), hzero ht, Nat.add_sub_cancel]
    · rw [exitScan, if_pos he, if_neg (mt (inStateZero_iff t).mp ht), Nat.add_sub_cancel, hback ht]
      rfl

/-! ## The scans -/

theorem limit8_spec (str : List UInt8) : limit8 str.length = 0 ∨ limit8 str.length + 7 ≤ str.length := by
  rw [limit8]
  split_ifs
  · exact Or.inl rfl
  · right
    omega

theorem utf8GenericScan_spec (addr : ℕ) (str : List UInt8) :
    ∃ e n, utf8GenericScan utf8acceptnonsurrogatesObj addr str str.length = some (e, n) ∧
      e ≠ kExitDoAgain ∧ ScannedTo str n := by
  rcases eq_or_ne str [] with rfl | hne
  · exact ⟨kExitOK, 0, rfl, by decide, [], [], [], 0, rfl, by simp, rfl, by simp [Stuck], rfl⟩
  · have hzero : (str.length : ℤ) ≠ 0 := by simpa using hne
    have hidentity : ∀ c : UInt8, (utf8acceptnonsurrogatesObj.fastState c.toNat == 0) = true →
        c.toNat < 0x80 := fun c hc => fastState_eq_zero_iff.mp (beq_iff_eq.mp hc)
    obtain ⟨src, hsrc, hbefore⟩ := skipUnaligned_spec addr hidentity
      (by omega : 0 + (str.length - 0) ≤ str.length) asciiBefore_zero
    obtain ⟨src', hsrc', hbefore'⟩ : ∃ src', (if (addr + src) % 8 = 0 then
        skipGroups utf8acceptnonsurrogatesObj str (limit8 str.length) (limit8 str.length) src
        else some src) = some src' ∧ AsciiBefore str src' := by
      split_ifs
      · exact skipGroups_spec (limit8_spec str) hbefore
      · exact ⟨src, rfl, hbefore⟩
    obtain ⟨e, tbl, p, e', n, hscan, hexit, hagain, hn⟩ := exitScan_spec hbefore'
    refine ⟨e', n, ?_, hagain, hn⟩
    rw [utf8GenericScan, if_neg hzero, Int.toNat_natCast, scanFrom, hsrc]
    simp only [bind_eq_bind, bind_some, hsrc', hscan, hexit, hagain, ↓reduceIte]

theorem utf8GenericScanFastAscii_spec (addr : ℕ) (str : List UInt8) :
    ∃ e n, utf8GenericScanFastAscii utf8acceptnonsurrogatesObj addr str str.length = some (e, n) ∧
      ScannedTo str n := by
  rcases eq_or_ne str [] with rfl | hne
  · exact ⟨kExitOK, 0, rfl, [], [], [], 0, rfl, by simp, rfl, by simp [Stuck], rfl⟩
  · have hzero : (str.length : ℤ) ≠ 0 := by simpa using hne
    have hidentity : ∀ c : UInt8, isAscii c = true → c.toNat < 0x80 := fun c hc => decide_eq_true_iff.mp hc
    obtain ⟨src, hsrc, hbefore⟩ := skipUnaligned_spec addr hidentity
      (by omega : 0 + (str.length - 0) ≤ str.length) asciiBefore_zero
    obtain ⟨src', hsrc', hbefore'⟩ : ∃ src', (if (addr + src) % 8 = 0 then
        skipAsciiGroups str (limit8 str.length) (limit8 str.length) src
        else some src) = some src' ∧ AsciiBefore str src' := by
      split_ifs
      · exact skipAsciiGroups_spec (limit8_spec str) hbefore
      · exact ⟨src, rfl, hbefore⟩
    have hle := hbefore'.le_length
    obtain ⟨src'', hsrc'', hbefore''⟩ := skipBytes_spec hidentity
      (by omega : src' + (str.length - src') ≤ str.length) hbefore'
    obtain ⟨e, n, hscan, hagain, hn⟩ := utf8GenericScan_spec (addr + src'') (str.drop src'')
    have hrest : ((str.drop src'').length : ℤ) = (str.length : ℤ) - src'' := by
      rw [length_drop, Int.ofNat_sub hbefore''.le_length]
    refine ⟨e, src'' + n, ?_, hbefore''.scannedTo hn⟩
    rw [hrest] at hscan
    rw [utf8GenericScanFastAscii, if_neg hzero, Int.toNat_natCast, scanFastAscii, Int.toNat_natCast, hsrc]
    simp only [bind_eq_bind, bind_some, hsrc', hsrc'', hscan, hagain, ↓reduceIte]

/-! ## What the functions answer -/

/-- The length of the longest prefix that is well formed. -/
def LongestWellFormed (str : List UInt8) (n : ℕ) : Prop :=
  n ≤ str.length ∧ WellFormed (str.take n) ∧ ∀ m ≤ str.length, WellFormed (str.take m) → m ≤ n

theorem wellFormed_iff_accepts :
    WellFormed str ↔ ∃ cs, (∀ c ∈ cs, Accepts nextState 0 0 c) ∧ str = flatten cs := by
  simp only [Utf8.wellFormed_iff, accepts_iff]

theorem ScannedTo.longest (h : ScannedTo str n) : LongestWellFormed str n := by
  obtain ⟨cs, part, rest, t, rfl, hcs, hpart, hstuck, rfl⟩ := h
  refine ⟨by simp, wellFormed_iff_accepts.mpr ⟨cs, hcs, by simp⟩, fun m hm hwell => ?_⟩
  obtain ⟨ds, hds, htake⟩ := wellFormed_iff_accepts.mp hwell
  have hprefix : ds.flatten <+: cs.flatten ++ (part ++ rest) := htake ▸ take_prefix m _
  calc m = ds.flatten.length := by rw [← htake, length_take_of_le hm]
    _ ≤ cs.flatten.length := le_of_stuck hcs hds hpart hstuck hprefix

theorem LongestWellFormed.eq_length_iff (h : LongestWellFormed str n) : n = str.length ↔ WellFormed str := by
  obtain ⟨hle, hwell, hlongest⟩ := h
  constructor
  · intro hn
    rwa [hn, take_length] at hwell
  · intro hstr
    refine le_antisymm hle (hlongest _ le_rfl ?_)
    rwa [take_length]

theorem isStructurallyValidUTF8_spec (addr : ℕ) (str : List UInt8) :
    ∃ valid, isStructurallyValidUTF8 true addr str str.length = some valid ∧
      (valid = true ↔ WellFormed str) := by
  obtain ⟨e, n, hscan, hn⟩ := utf8GenericScanFastAscii_spec addr str
  refine ⟨decide ((n : ℤ) = str.length), ?_, ?_⟩
  · rw [isStructurallyValidUTF8, if_pos rfl, hscan]
    rfl
  · rw [decide_eq_true_iff, Nat.cast_inj, hn.longest.eq_length_iff]

theorem sizeToInt_of_le (h : n ≤ intMax) : sizeToInt n = n := by
  have hlt : n < 2 ^ 31 := lt_of_le_of_lt h (by decide)
  rw [sizeToInt, BitVec.toInt_eq_toNat_of_lt (by simp only [BitVec.toNat_ofNat]; omega),
    BitVec.toNat_ofNat, Nat.mod_eq_of_lt (by omega)]

theorem utf8SpnStructurallyValid_spec (addr : ℕ) (h : str.length ≤ intMax) :
    ∃ n : ℕ, utf8SpnStructurallyValid true addr str = some (n : ℤ) ∧ LongestWellFormed str n := by
  obtain ⟨e, n, hscan, hn⟩ := utf8GenericScanFastAscii_spec addr str
  refine ⟨n, ?_, hn.longest⟩
  rw [utf8SpnStructurallyValid, if_pos rfl, sizeToInt_of_le h, hscan]
  rfl

/-- **Validation is exact** once the module is initialized; before that every string is valid. -/
theorem structurallyValid_exact (moduleInitialized : Bool) (addr : ℕ) (str : List UInt8)
    (h : str.length ≤ intMax) :
    ∃ (valid : Bool) (n : ℕ), isStructurallyValidUTF8 moduleInitialized addr str str.length = some valid ∧
      utf8SpnStructurallyValid moduleInitialized addr str = some (n : ℤ) ∧
      (if moduleInitialized then (valid = true ↔ WellFormed str) ∧ LongestWellFormed str n
        else valid = true ∧ n = str.length) := by
  cases moduleInitialized with
  | false => exact ⟨true, str.length, rfl, congrArg some (sizeToInt_of_le h), rfl, rfl⟩
  | true =>
    obtain ⟨valid, hvalid, hiff⟩ := isStructurallyValidUTF8_spec addr str
    obtain ⟨n, hn, hlongest⟩ := utf8SpnStructurallyValid_spec addr h
    exact ⟨valid, n, hvalid, hn, hiff, hlongest⟩

/-- A truncated character after an aligned group of eight. -/
theorem structurallyValid_exact_truncated :
    [0x61, 0x62, 0x63, 0x64, 0x65, 0x66, 0x67, 0x68, 0xE2, 0x82].length ≤ intMax ∧
    ∃ (valid : Bool) (n : ℕ),
      isStructurallyValidUTF8 true 0 [0x61, 0x62, 0x63, 0x64, 0x65, 0x66, 0x67, 0x68, 0xE2, 0x82] 10 =
        some valid ∧
      utf8SpnStructurallyValid true 0 [0x61, 0x62, 0x63, 0x64, 0x65, 0x66, 0x67, 0x68, 0xE2, 0x82] =
        some (n : ℤ) ∧
      ((valid = true ↔ WellFormed [0x61, 0x62, 0x63, 0x64, 0x65, 0x66, 0x67, 0x68, 0xE2, 0x82]) ∧
        LongestWellFormed [0x61, 0x62, 0x63, 0x64, 0x65, 0x66, 0x67, 0x68, 0xE2, 0x82] n) :=
  ⟨by decide, structurallyValid_exact true 0
    [0x61, 0x62, 0x63, 0x64, 0x65, 0x66, 0x67, 0x68, 0xE2, 0x82] (by decide)⟩

/-- Before the module is initialized a byte that no character has is valid. -/
theorem isStructurallyValidUTF8_uninitialized :
    isStructurallyValidUTF8 false 0 [0xFF] 1 = some true ∧ ¬ WellFormed [0xFF] := by
  obtain ⟨valid, hvalid, hiff⟩ := isStructurallyValidUTF8_spec 0 [0xFF]
  have hfalse : isStructurallyValidUTF8 true 0 [0xFF] [(0xFF : UInt8)].length = some false := by decide
  obtain rfl : valid = false := some.inj (hvalid.symm.trans hfalse)
  exact ⟨rfl, fun hwell => absurd (hiff.mpr hwell) (by decide)⟩

end Protoc.Stubs
