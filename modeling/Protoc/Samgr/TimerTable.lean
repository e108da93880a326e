import Mathlib.Algebra.Group.Nat.Defs
import Protoc.Lib.Replace
import Protoc.Samgr.Timer

/-!
# The timers of the service

`timerList` as a table: at most one node for each recipient and message, changed by an update at one key only, and by
a tick at the nodes that are due.  `repeatCnt` is not counted down below the least `int32`.
-/

namespace Protoc.Samgr.Timer

open Protoc.Lib
open List

variable {s : ServiceState} {params : SamgrTimerParams} {l : List SamgrTimerNode} {now : ℕ}

/-! ## The loop -/

def due (now : ℕ) (item : SamgrTimerNode) : Bool := decide (item.expire_time ≤ now)

/-- The node's request is sent at this tick, and once more later. -/
def firesAgain (now : ℕ) (item : SamgrTimerNode) : Bool :=
  due now item && decide (countDown item.params.repeatCnt ≠ 0)

theorem fireLoop_eq (wrap : Bool) (now : ℕ) (l : List SamgrTimerNode) : fireLoop wrap now l =
      { timerList := (l.map (seen wrap)).filter fun item => !due now item
        fired_list := (((l.map (seen wrap)).filter (firesAgain now)).map (rearm now)).reverse
        requests := ((l.map (seen wrap)).filter (due now)).map SamgrTimerNode.key } := by
  induction l with
  | nil => rfl
  | cons item rest ih =>
    rw [fireLoop, map_cons, ih, filter_cons, filter_cons, filter_cons]
    by_cases hdue : unwrap wrap item.expire_time ≤ now
    · have hdue' : due now (seen wrap item) = true := decide_eq_true hdue
      by_cases hzero : countDown item.params.repeatCnt = 0
      · have hagain : firesAgain now (seen wrap item) = false := by
          rw [firesAgain, hdue', Bool.true_and, decide_eq_false_iff_not, not_not]
          exact hzero
        simp only [hdue, hzero, hdue', hagain, if_true, Bool.not_true, Bool.false_eq_true, if_false, map_cons]
        rfl
      · have hagain : firesAgain now (seen wrap item) = true := by
          rw [firesAgain, hdue', Bool.true_and, decide_eq_true_eq]
          exact hzero
        simp only [hdue, hzero, hdue', hagain, if_true, Bool.not_true, Bool.false_eq_true, if_false, map_cons,
          reverse_cons]
        rfl
    · have hdue' : due now (seen wrap item) = false := decide_eq_false hdue
      have hagain : firesAgain now (seen wrap item) = false := by rw [firesAgain, hdue', Bool.false_and]
      simp only [hdue, hdue', hagain, if_true, Bool.not_false, Bool.false_eq_true, if_false]
      rfl

/-! ## What is meant -/

/-- The nodes after `SamgrTimer_UpdateTimer`: those of other keys, and the new one, if it is armed. -/
def afterUpdate (now : ℕ) (params : SamgrTimerParams) (l : List SamgrTimerNode) : List SamgrTimerNode :=
  (if params.arms then [⟨params, now + params.interval⟩] else []) ++ l.filter fun n => decide (n.key ≠ params.key)

/-- A node after `SamgrTimer_FireTimers`: one that is due is counted down, unless it repeats for ever, and is dropped
at zero; else it expires one interval later, or one interval from now, if that has passed too. -/
def afterTick (now : ℕ) (n : SamgrTimerNode) : Option SamgrTimerNode :=
  if n.expire_time ≤ now then
    if n.params.repeatCnt ≠ SAMGR_TIMER_REPEAT_INFINITE ∧ n.params.repeatCnt = 1 then none
    else
      some
        { params := { n.params with repeatCnt := countDown n.params.repeatCnt }
          expire_time :=
            if n.expire_time + n.params.interval < now then now + n.params.interval
            else n.expire_time + n.params.interval }
  else some n

/-- The clock has not wrapped since the last tick, and `now + interval` is a `uint32`. -/
def NoOverflow (s : ServiceState) : Action → Prop
  | .advance _ => True
  | .update params => params.arms → masked s.clock + params.interval < 0x100000000
  | .tick => s.lastTick ≤ masked s.clock ∧
      ∀ n ∈ s.timerList, n.expire_time ≤ masked s.clock → masked s.clock + n.params.interval < 0x100000000

instance (s : ServiceState) (a : Action) : Decidable (NoOverflow s a) :=
  match a with
  | .advance _ => inferInstanceAs (Decidable True)
  | .update params =>
    inferInstanceAs (Decidable (params.arms → masked s.clock + params.interval < 0x100000000))
  | .tick => inferInstanceAs (Decidable (_ ∧ ∀ n ∈ s.timerList, _ → _))

/-! ## Updates -/

/-- **An update changes the node of its key, and no other.** -/
theorem updateTimer_perm (h : (s.timerList.map SamgrTimerNode.key).Nodup) (hok : NoOverflow s (.update params)) :
    (updateTimer s params).timerList.Perm (afterUpdate (masked s.clock) params s.timerList) := by
  have hu32 : params.arms → u32 (masked s.clock + params.interval) = masked s.clock + params.interval :=
    fun harms => Nat.mod_eq_of_lt (hok harms)
  rw [updateTimer, afterUpdate]
  cases hfind : s.timerList.find? fun n => decide (n.key = params.key) with
  | some item =>
    simp only
    split_ifs with harms
    · rw [hu32 harms, ← eraseP_eq_filter h]
      exact insertNodeOrdered_perm _ _
    · simp only [eraseP_eq_filter h, nil_append]
      exact .refl _
  | none =>
    have hother : ∀ n ∈ s.timerList, decide (n.key ≠ params.key) = true := fun n hn => by
      simpa using List.find?_eq_none.mp hfind n hn
    rw [filter_eq_self.mpr hother]
    simp only
    split_ifs with harms
    · rw [hu32 harms]
      exact insertNodeOrdered_perm _ _
    · exact .refl _

/-! ## Ticks -/

theorem countDown_eq_zero_iff {repeatCnt : ℤ} :
    countDown repeatCnt = 0 ↔ repeatCnt ≠ SAMGR_TIMER_REPEAT_INFINITE ∧ repeatCnt = 1 := by
  rw [countDown, SAMGR_TIMER_REPEAT_INFINITE]
  split_ifs <;> omega

theorem rearm_eq {item : SamgrTimerNode} (hdue : item.expire_time ≤ now)
    (hlt : now + item.params.interval < 0x100000000) (hzero : countDown item.params.repeatCnt ≠ 0) :
    afterTick now item = some (rearm now item) := by
  rw [afterTick, if_pos hdue, if_neg (countDown_eq_zero_iff.not.mp hzero), rearm, u32, u32,
    Nat.mod_eq_of_lt (by omega), Nat.mod_eq_of_lt hlt]

theorem perm_filterMap_afterTick (hlt : ∀ n ∈ l, n.expire_time ≤ now → now + n.params.interval < 0x100000000) :
    ((l.filter (firesAgain now)).map (rearm now) ++ l.filter fun item => !due now item).Perm
      (l.filterMap (afterTick now)) := by
  induction l with
  | nil => exact .refl _
  | cons item rest ih =>
    obtain ⟨hitem, hrest⟩ := forall_mem_cons.mp hlt
    rw [filter_cons, filter_cons, filterMap_cons]
    by_cases hdue : item.expire_time ≤ now
    · have hdue' : due now item = true := decide_eq_true hdue
      by_cases hzero : countDown item.params.repeatCnt = 0
      · have hnone : afterTick now item = none := by
          rw [afterTick, if_pos hdue, if_pos (countDown_eq_zero_iff.mp hzero)]
        simpa [firesAgain, hdue', hzero, hnone] using ih hrest
      · simpa [firesAgain, hdue', hzero, rearm_eq hdue (hitem hdue) hzero] using (ih hrest).cons (rearm now item)
    · have hdue' : due now item = false := decide_eq_false hdue
      have hsome : afterTick now item = some item := by rw [afterTick, if_neg hdue]
      simpa [firesAgain, hdue', hsome] using perm_middle.trans ((ih hrest).cons item)

theorem fireTimers_log (s : ServiceState) : (fireTimers s).log = .ticked s.clock ::
      (((s.timerList.map (seen (decide (masked s.clock < s.lastTick)))).filter (due (masked s.clock))).map fun n =>
        Event.sent n.key s.clock).reverse ++ s.log := by
  rw [fireTimers]
  by_cases hnil : s.timerList = []
  · simp only [hnil, if_true, map_nil, filter_nil, reverse_nil, singleton_append]
  · simp only [hnil, if_false, fireLoop_eq, map_map]
    rfl

/-- **A tick sends the requests that are due**, each once and no other, and changes their nodes, and no other. -/
theorem fireTimers_perm (hok : NoOverflow s .tick) :
    (fireTimers s).timerList.Perm (s.timerList.filterMap (afterTick (masked s.clock))) ∧
      (fireTimers s).log = .ticked s.clock ::
        ((s.timerList.filter (due (masked s.clock))).map fun n => Event.sent n.key s.clock).reverse ++ s.log := by
  have hwrap : decide (masked s.clock < s.lastTick) = false := decide_eq_false (Nat.not_lt.mpr hok.1)
  have hseen : s.timerList.map (seen false) = s.timerList := map_id _
  refine ⟨?_, by rw [fireTimers_log, hwrap, hseen]⟩
  rw [fireTimers]
  by_cases hnil : s.timerList = []
  · simp only [hnil, if_true, filterMap_nil]
    exact .refl _
  · simp only [hnil, if_false, hwrap, fireLoop_eq, hseen]
    refine (foldl_insertNodeOrdered_perm _ _).trans ?_
    exact ((reverse_perm _).append_right _).trans (perm_filterMap_afterTick hok.2)

/-! ## Runs -/

theorem key_afterTick {n m : SamgrTimerNode} (h : afterTick now n = some m) : m.key = n.key := by
  rw [afterTick] at h
  split_ifs at h <;> cases h <;> rfl

/-- Every step keeps the keys distinct. -/
theorem nodup_step {s' : ServiceState} {a : Action} (h : (s.timerList.map SamgrTimerNode.key).Nodup)
    (hok : NoOverflow s a) (hstep : step s a = some s') : (s'.timerList.map SamgrTimerNode.key).Nodup := by
  cases a with
  | advance ms =>
    cases hstep
    exact h
  | update params =>
    cases hstep
    refine (((updateTimer_perm h hok).map _).nodup_iff).mpr ?_
    have hrest : ((s.timerList.filter fun n => decide (n.key ≠ params.key)).map SamgrTimerNode.key).Nodup :=
      h.sublist (filter_sublist.map _)
    rw [afterUpdate]
    split_ifs
    · rw [singleton_append, map_cons, nodup_cons]
      refine ⟨fun hmem => ?_, hrest⟩
      obtain ⟨n, hn, hkey⟩ := mem_map.mp hmem
      exact of_decide_eq_true (mem_filter.mp hn).2 hkey
    · exact hrest
  | tick =>
    cases hstep
    refine (((fireTimers_perm hok).1.map _).nodup_iff).mpr ?_
    have hsub : ((s.timerList.filterMap (afterTick (masked s.clock))).map SamgrTimerNode.key).Sublist
        (s.timerList.map SamgrTimerNode.key) := by
      clear hok h
      induction s.timerList with
      | nil => exact .refl _
      | cons n rest ih =>
        rw [filterMap_cons, map_cons]
        cases hn : afterTick (masked s.clock) n with
        | none => exact ih.cons _
        | some m =>
          rw [← key_afterTick hn]
          exact ih.cons_cons _
    exact h.sublist hsub

/-- **The table of timers.**  In every state of a run without a wrap of the clock or an overflow, no two nodes have
the same recipient and message; an update leaves what is meant, and so does a tick, which sends the requests of the
nodes that are due, in the order of the list, and no other. -/
theorem timer_table {clock : ℕ} {as : List Action} (run : Runs step NoOverflow (init clock) as s) :
    (s.timerList.map SamgrTimerNode.key).Nodup ∧ (∀ params, NoOverflow s (.update params) →
        (updateTimer s params).timerList.Perm (afterUpdate (masked s.clock) params s.timerList)) ∧
      (NoOverflow s .tick →
        (fireTimers s).timerList.Perm (s.timerList.filterMap (afterTick (masked s.clock))) ∧
          (fireTimers s).log = .ticked s.clock ::
            ((s.timerList.filter (due (masked s.clock))).map fun n => Event.sent n.key s.clock).reverse ++ s.log) := by
  have hnodup : (s.timerList.map SamgrTimerNode.key).Nodup :=
    run.invariant (P := fun s => (s.timerList.map SamgrTimerNode.key).Nodup)
      (fun _ _ _ h hok hstep => nodup_step h hok hstep) nodup_nil
  exact ⟨hnodup, fun _ => updateTimer_perm hnodup, fireTimers_perm⟩

/-- Two timers, of which one fires twice, and the other once more after it. -/
def twoTimers : List Action :=
  [.update ⟨⟨1, 0, 0⟩, 7, 10, 2⟩, .update ⟨⟨2, 0, 0⟩, 7, 30, -1⟩, .advance 10, .tick, .advance 20, .tick]

/-- The table after `twoTimers`. -/
theorem timer_table_twoTimers :
    ∃ s, Runs step NoOverflow (init 0) twoTimers s ∧ (s.timerList.map SamgrTimerNode.key).Nodup ∧
      s.timerList = [⟨⟨⟨2, 0, 0⟩, 7, 30, -1⟩, 60⟩] := by
  obtain ⟨s, hs⟩ : ∃ s, execOk step NoOverflow (init 0) twoTimers = some s := Option.isSome_iff_exists.mp (by decide)
  have hlist : (execOk step NoOverflow (init 0) twoTimers).map (·.timerList) = some [⟨⟨⟨2, 0, 0⟩, 7, 30, -1⟩, 60⟩] := by
    decide
  rw [hs] at hlist
  exact ⟨s, runs_of_execOk hs, (timer_table (runs_of_execOk hs)).1, Option.some.inj hlist⟩

end Protoc.Samgr.Timer
