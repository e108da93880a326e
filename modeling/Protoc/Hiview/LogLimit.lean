import Protoc.Hiview.OutputLog
import Protoc.Lib.WrappingCount

/-!
# The limit of the log

`LogIsLimited` counts the calls of a module from the beginning of a period of 60 seconds, and
limits those after the first `maxNum`.  The count is a `uint8` which a limited call increases,
too: after 256 calls it begins again from 0, and calls are let through again.
-/

namespace Protoc.Hiview

open Protoc.Lib List

/-! ## The functions -/

/-- `LOG_LIMIT_CHECK_DURATION`, in seconds. -/
def LOG_LIMIT_CHECK_DURATION : ℤ := 60

def LOG_LIMIT_LEVEL2 : UInt8 := 30
def LOG_LIMIT_LEVEL3 : UInt8 := 60
def LOG_LIMIT_DEFAULT : UInt8 := LOG_LIMIT_LEVEL2

/-- `HiLogLimitRule`. -/
structure HiLogLimitRule where
  maxNum : UInt8
  logNum : UInt8
  baseTime : UInt16
  deriving DecidableEq

abbrev Module := Fin HILOG_MODULE_MAX

def HILOG_MODULE_HIVIEW : Module := ⟨0, by decide⟩
def HILOG_MODULE_APP : Module := ⟨4, by decide⟩

/-- `g_hiviewConfig.outputOption` and `g_hilogLimitList`; `none` is `NULL`. -/
structure LimitState where
  outputOption : ℕ
  g_hilogLimitList : Option (Module → HiLogLimitRule)

/-- `SetLimitThreshold`. -/
def setLimitThreshold (rules : Module → HiLogLimitRule) (module : Module) (v : UInt8) :
    Module → HiLogLimitRule :=
  fun i => if i = module then ⟨v, 0, 0⟩ else rules i

/-- `InitLogLimit`.  `alloc` says whether `HIVIEW_MemAlloc` succeeds. -/
def initLogLimit (s : LimitState) (alloc : Bool) : LimitState :=
  if s.g_hilogLimitList.isNone && !alloc then s
  else
    let rules := setLimitThreshold (fun _ => ⟨LOG_LIMIT_DEFAULT, 0, 0⟩) HILOG_MODULE_HIVIEW
      LOG_LIMIT_LEVEL3
    { s with g_hilogLimitList := some (setLimitThreshold rules HILOG_MODULE_APP LOG_LIMIT_LEVEL2) }

def seconds (time : ℕ) : UInt16 := .ofNat (time / MS_PER_SECOND)

/-- A call, with the two readings of the clock.  The second one is used for a period that has
no base time. -/
structure Call where
  module : UInt8
  time : ℕ
  baseTime : ℕ
  deriving DecidableEq

def HiLogLimitRule.base (rule : HiLogLimitRule) (call : Call) : UInt16 :=
  if rule.baseTime = 0 then seconds call.baseTime else rule.baseTime

def StartsPeriod (rule : HiLogLimitRule) (call : Call) : Prop :=
  seconds call.time < rule.base call ∨
    ((seconds call.time).toNat : ℤ) - (rule.base call).toNat ≥ LOG_LIMIT_CHECK_DURATION

instance (rule : HiLogLimitRule) (call : Call) : Decidable (StartsPeriod rule call) :=
  inferInstanceAs (Decidable (_ ∨ _))

/-- `LogIsLimited` once it has its rule. -/
def checkRule (rule : HiLogLimitRule) (call : Call) : Bool × HiLogLimitRule :=
  let logNum := rule.logNum + 1
  if StartsPeriod rule call then
    (false, { rule with logNum := 0, baseTime := seconds call.time })
  else
    (decide (rule.maxNum < logNum), { rule with logNum := logNum, baseTime := rule.base call })

/-- `LogIsLimited`. -/
def logIsLimited (s : LimitState) (call : Call) : Bool × LimitState :=
  if GETOPTION s.outputOption = OUTPUT_OPTION_DEBUG then (false, s)
  else if h : call.module.toNat < HILOG_MODULE_MAX then
    match s.g_hilogLimitList with
    | none => (false, s)
    | some rules =>
      let module : Module := ⟨call.module.toNat, h⟩
      let r := checkRule (rules module) call
      (r.1, { s with g_hilogLimitList := some fun i => if i = module then r.2 else rules i })
  else (true, s)

/-! ## The calls of a module -/

def Call.Of (call : Call) (module : Module) : Prop := call.module.toNat = module.val

instance (call : Call) (module : Module) : Decidable (call.Of module) :=
  inferInstanceAs (Decidable (_ = _))

/-- How many calls of the module are not limited. -/
def allowed (module : Module) : LimitState → List Call → ℕ
  | _, [] => 0
  | s, call :: calls =>
    let r := logIsLimited s call
    (if call.Of module ∧ r.1 = false then 1 else 0) + allowed module r.2 calls

def callsOf (module : Module) (calls : List Call) : ℕ :=
  calls.countP fun call => decide (call.Of module)

/-- The calls of the module all fall into the period that is open. -/
def StaysIn (module : Module) : LimitState → List Call → Prop
  | _, [] => True
  | s, call :: calls =>
    (call.Of module →
      ∀ rules, s.g_hilogLimitList = some rules → ¬ StartsPeriod (rules module) call) ∧
    StaysIn module (logIsLimited s call).2 calls

def Limiting (s : LimitState) (rules : Module → HiLogLimitRule) : Prop :=
  GETOPTION s.outputOption ≠ OUTPUT_OPTION_DEBUG ∧ s.g_hilogLimitList = some rules

section
variable {s : LimitState} {rules : Module → HiLogLimitRule} {module : Module} {call : Call}
  {calls : List Call}

theorem logIsLimited_eq (h : Limiting s rules) (hcall : call.Of module) :
    (logIsLimited s call).1 = (checkRule (rules module) call).1 ∧
      ∃ rules', Limiting (logIsLimited s call).2 rules' ∧
        rules' module = (checkRule (rules module) call).2 := by
  obtain ⟨hoption, hrules⟩ := h
  have hlt : call.module.toNat < HILOG_MODULE_MAX := lt_of_eq_of_lt hcall module.isLt
  have hmodule : (⟨call.module.toNat, hlt⟩ : Module) = module := Fin.ext hcall
  rw [logIsLimited, if_neg hoption, dif_pos hlt, hrules]
  simp only [hmodule]
  exact ⟨trivial, _, ⟨hoption, rfl⟩, if_pos rfl⟩

theorem logIsLimited_other (h : Limiting s rules) (hcall : ¬ call.Of module) :
    ∃ rules', Limiting (logIsLimited s call).2 rules' ∧ rules' module = rules module := by
  obtain ⟨hoption, hrules⟩ := h
  rw [logIsLimited, if_neg hoption]
  by_cases hlt : call.module.toNat < HILOG_MODULE_MAX
  · rw [dif_pos hlt, hrules]
    have hne : ¬ module = ⟨call.module.toNat, hlt⟩ := fun heq => hcall (congrArg Fin.val heq).symm
    exact ⟨_, ⟨hoption, rfl⟩, if_neg hne⟩
  · rw [dif_neg hlt]
    exact ⟨rules, ⟨hoption, hrules⟩, rfl⟩

theorem checkRule_in {rule : HiLogLimitRule} (h : ¬ StartsPeriod rule call) :
    checkRule rule call = (decide (rule.maxNum < rule.logNum + 1),
      { rule with logNum := rule.logNum + 1, baseTime := rule.base call }) := by
  rw [checkRule, if_neg h]

/-- A call is let through when the count it leaves is small. -/
def Small (maxNum : UInt8) (count : ℕ) : Prop := count % 256 ≤ maxNum.toNat

instance (maxNum : UInt8) (count : ℕ) : Decidable (Small maxNum count) :=
  inferInstanceAs (Decidable (_ ≤ _))

theorem not_lt_iff_small (maxNum logNum : UInt8) :
    decide (maxNum < logNum) = false ↔ Small maxNum logNum.toNat := by
  have hlt := logNum.toNat_lt
  rw [decide_eq_false_iff_not, UInt8.not_lt, UInt8.le_iff_toNat_le, Small, Nat.mod_eq_of_lt hlt]

theorem small_succ (maxNum logNum : UInt8) (k : ℕ) :
    Small maxNum ((logNum + 1).toNat + k) ↔ Small maxNum (logNum.toNat + (k + 1)) := by
  rw [Small, Small, UInt8.toNat_add, Nat.mod_add_mod]
  rw [show (1 : UInt8).toNat = 1 by rfl, add_assoc, add_comm 1 k]

/-- **In one period** the calls count on. -/
theorem allowed_eq_count (h : Limiting s rules) (hstays : StaysIn module s calls) :
    allowed module s calls = Nat.count
      (fun k => Small (rules module).maxNum ((rules module).logNum.toNat + (k + 1)))
      (callsOf module calls) := by
  induction calls generalizing s rules with
  | nil => rfl
  | cons call calls ih =>
    obtain ⟨hfirst, hrest⟩ := hstays
    rw [allowed, callsOf, countP_cons]
    by_cases hcall : call.Of module
    · obtain ⟨hlimited, rules', h', hrule⟩ := logIsLimited_eq h hcall
      rw [checkRule_in (hfirst hcall rules h.2)] at hlimited hrule
      have hsmall : call.Of module ∧ (logIsLimited s call).1 = false ↔
          Small (rules module).maxNum ((rules module).logNum.toNat + (0 + 1)) := by
        rw [hlimited, and_iff_right hcall, not_lt_iff_small, ← small_succ, add_zero]
      have hcount := ih h' hrest
      simp only [hrule, small_succ] at hcount
      rw [hcount, if_congr hsmall rfl rfl, if_pos (decide_eq_true hcall), Nat.count_succ', add_comm]
      rfl
    · obtain ⟨rules', h', hrule⟩ := logIsLimited_other h hcall
      have hcount := ih h' hrest
      rw [hrule] at hcount
      rw [hcount, if_neg (fun hboth => hcall hboth.1), if_neg (by simpa using hcall), zero_add]
      rfl

/-! ## One period -/

/-- The count after the first call of a period, or after a call that falls into one. -/
def firstCount (rule : HiLogLimitRule) (call : Call) : ℕ :=
  if StartsPeriod rule call then 0 else (rule.logNum + 1).toNat

theorem checkRule_count (rule : HiLogLimitRule) (call : Call) :
    ((checkRule rule call).1 = false ↔ Small rule.maxNum (firstCount rule call)) ∧
      (checkRule rule call).2.logNum.toNat = firstCount rule call ∧
      (checkRule rule call).2.maxNum = rule.maxNum := by
  by_cases hstarts : StartsPeriod rule call
  · rw [checkRule, firstCount, if_pos hstarts, if_pos hstarts]
    exact ⟨iff_of_true rfl (Nat.zero_le _), rfl, rfl⟩
  · rw [checkRule_in hstarts, firstCount, if_neg hstarts]
    exact ⟨not_lt_iff_small _ _, rfl, rfl⟩

theorem allowed_period (h : Limiting s rules) (hcall : call.Of module)
    (hstays : StaysIn module (logIsLimited s call).2 calls) : allowed module s (call :: calls) = Nat.count
      (fun k => (firstCount (rules module) call + k) % 256 ≤ (rules module).maxNum.toNat)
      (callsOf module (call :: calls)) := by
  obtain ⟨hlimited, rules', h', hrule⟩ := logIsLimited_eq h hcall
  obtain ⟨hsmall, hcount, hmax⟩ := checkRule_count (rules module) call
  have hrest := allowed_eq_count h' hstays
  have hfirst : call.Of module ∧ (logIsLimited s call).1 = false ↔
      (firstCount (rules module) call + 0) % 256 ≤ (rules module).maxNum.toNat := by
    rw [hlimited, and_iff_right hcall, hsmall]
    rfl
  have hcalls : callsOf module (call :: calls) = callsOf module calls + 1 := by
    rw [callsOf, countP_cons, if_pos (decide_eq_true hcall)]
    rfl
  rw [hrule, hmax, hcount] at hrest
  rw [allowed, hrest, if_congr hfirst rfl rfl, hcalls, Nat.count_succ', add_comm]
  rfl

end

/-- A state after `InitLogLimit`. -/
def limitStart : LimitState := initLogLimit ⟨2, none⟩ true

def appCall : Call := ⟨4, 5000, 5000⟩

theorem staysIn_replicate {s : LimitState} {rules : Module → HiLogLimitRule}
    (h : Limiting s rules) (hbase : (rules HILOG_MODULE_APP).baseTime = 5) (n : ℕ) :
    StaysIn HILOG_MODULE_APP s (replicate n appCall) := by
  induction n generalizing s rules with
  | zero => exact trivial
  | succ n ih =>
    have hin : ¬ StartsPeriod (rules HILOG_MODULE_APP) appCall := by
      rw [StartsPeriod, HiLogLimitRule.base, hbase]
      decide
    obtain ⟨-, rules', h', hrule⟩ := logIsLimited_eq h (show appCall.Of HILOG_MODULE_APP by rfl)
    rw [replicate_succ]
    refine ⟨?_, ih h' ?_⟩
    · intro _ rules₁ hrules₁
      cases h.2.symm.trans hrules₁
      exact hin
    · rw [hrule, checkRule_in hin, HiLogLimitRule.base, hbase]
      rfl

theorem limitStart_limiting : ∃ rules, Limiting limitStart rules ∧ rules HILOG_MODULE_APP = ⟨30, 0, 0⟩ :=
  ⟨_, ⟨by decide, rfl⟩, by decide⟩

theorem staysIn_start (n : ℕ) : StaysIn HILOG_MODULE_APP (logIsLimited limitStart appCall).2
    (replicate n appCall) := by
  obtain ⟨rules, h, hrule⟩ := limitStart_limiting
  obtain ⟨-, rules', h', hrule'⟩ := logIsLimited_eq h (show appCall.Of HILOG_MODULE_APP by rfl)
  refine staysIn_replicate h' ?_ n
  rw [hrule', hrule]
  decide

end Protoc.Hiview
