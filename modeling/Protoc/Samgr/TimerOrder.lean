import Protoc.Samgr.TimerTable

/-!
# The order of the timers

`SamgrTimer_InsertNodeOrdered` keeps the list in order of expiry, except that a node which expires after all others is
linked at the front: the branch that is to add it to the tail calls `UtilsListAdd`.
-/

namespace Protoc.Samgr.Timer

open Protoc.Lib
open List

variable {s : ServiceState} {l l' nodes : List SamgrTimerNode} {node : SamgrTimerNode}

def Ordered (l : List SamgrTimerNode) : Prop := l.Pairwise fun m n => m.expire_time ≤ n.expire_time

instance (l : List SamgrTimerNode) : Decidable (Ordered l) := inferInstanceAs (Decidable (l.Pairwise _))

/-! ## Insertion -/

/-- Some node expires later than the one inserted, or none expires earlier. -/
def InPlace (l : List SamgrTimerNode) (node : SamgrTimerNode) : Prop :=
  (∃ m ∈ l, node.expire_time < m.expire_time) ∨ ∀ m ∈ l, node.expire_time ≤ m.expire_time

theorem insertBefore_eq_none_iff : insertBefore node l = none ↔ ∀ m ∈ l, m.expire_time ≤ node.expire_time := by
  induction l with
  | nil => simp [insertBefore]
  | cons item rest ih =>
    rw [insertBefore, forall_mem_cons]
    split_ifs with hlater
    · simp [Nat.not_le.mpr hlater]
    · rw [Option.map_eq_none_iff, ih]
      simp [Nat.not_lt.mp hlater]

theorem ordered_insertBefore (hl : Ordered l) (h : insertBefore node l = some l') : Ordered l' := by
  induction l generalizing l' with
  | nil => exact absurd h (by simp [insertBefore])
  | cons item rest ih =>
    obtain ⟨hitem, hrest⟩ := pairwise_cons.mp hl
    rw [insertBefore] at h
    split_ifs at h with hlater
    · cases h
      refine pairwise_cons.mpr ⟨?_, hl⟩
      rw [forall_mem_cons]
      exact ⟨Nat.le_of_lt hlater, fun m hm => Nat.le_trans (Nat.le_of_lt hlater) (hitem m hm)⟩
    · obtain ⟨r, hr, rfl⟩ := Option.map_eq_some_iff.mp h
      refine pairwise_cons.mpr ⟨fun m hm => ?_, ih hrest hr⟩
      rcases mem_cons.mp ((insertBefore_perm hr).mem_iff.mp hm) with rfl | hm
      · exact Nat.not_lt.mp hlater
      · exact hitem m hm

theorem sublist_insertBefore (h : insertBefore node l = some l') : l.Sublist l' := by
  induction l generalizing l' with
  | nil => exact nil_sublist _
  | cons item rest ih =>
    rw [insertBefore] at h
    split_ifs at h
    · cases h
      exact sublist_cons_self _ _
    · obtain ⟨r, hr, rfl⟩ := Option.map_eq_some_iff.mp h
      exact (ih hr).cons_cons item

/-- **An insertion keeps the order exactly when the node is in place.** -/
theorem ordered_insertNodeOrdered_iff : Ordered (insertNodeOrdered l node) ↔ Ordered l ∧ InPlace l node := by
  rw [insertNodeOrdered]
  cases hbefore : insertBefore node l with
  | some l' =>
    have hlater : ∃ m ∈ l, node.expire_time < m.expire_time := by
      by_contra hnone
      simp only [not_exists, not_and, Nat.not_lt] at hnone
      rw [insertBefore_eq_none_iff.mpr hnone] at hbefore
      exact absurd hbefore (by simp)
    exact ⟨fun h => ⟨h.sublist (sublist_insertBefore hbefore), .inl hlater⟩,
      fun h => ordered_insertBefore h.1 hbefore⟩
  | none =>
    have hall := insertBefore_eq_none_iff.mp hbefore
    simp only [Ordered, pairwise_cons]
    refine ⟨fun h => ⟨h.2, .inr h.1⟩, fun h => ⟨?_, h.1⟩⟩
    rcases h.2 with ⟨m, hm, hlt⟩ | hle
    · exact absurd (hall m hm) (Nat.not_le.mpr hlt)
    · exact hle

/-- Each node is in place among those before it and the list. -/
def AllInPlace (l nodes : List SamgrTimerNode) : Prop :=
  ∀ before n after, nodes = before ++ n :: after → InPlace (before ++ l) n

theorem inPlace_congr (h : ∀ m, m ∈ l ↔ m ∈ l') : InPlace l node ↔ InPlace l' node := by
  simp only [InPlace, h]

theorem allInPlace_cons :
    AllInPlace l (node :: nodes) ↔ InPlace l node ∧ AllInPlace (insertNodeOrdered l node) nodes := by
  have hmem : ∀ before m, m ∈ (node :: before) ++ l ↔ m ∈ before ++ insertNodeOrdered l node := by
    intro before m
    rw [mem_append, mem_append, (insertNodeOrdered_perm l node).mem_iff, mem_cons, mem_cons]
    tauto
  constructor
  · intro h
    refine ⟨h [] node nodes rfl, fun before n after heq => ?_⟩
    exact (inPlace_congr (hmem before)).mp (h (node :: before) n after (by rw [heq]; rfl))
  · rintro ⟨hnode, hnodes⟩ before n after heq
    cases before with
    | nil =>
      obtain ⟨rfl, -⟩ := cons_eq_cons.mp heq
      exact hnode
    | cons b before =>
      obtain ⟨rfl, hrest⟩ := cons_eq_cons.mp heq
      exact (inPlace_congr (hmem before)).mpr (hnodes before n after hrest)

theorem ordered_foldl_insertNodeOrdered_iff :
    Ordered (nodes.foldl insertNodeOrdered l) ↔ Ordered l ∧ AllInPlace l nodes := by
  induction nodes generalizing l with
  | nil => exact ⟨fun h => ⟨h, fun before n after heq => by simp at heq⟩, fun h => h.1⟩
  | cons node nodes ih =>
    rw [foldl_cons, ih, ordered_insertNodeOrdered_iff, allInPlace_cons, and_assoc]

/-! ## Steps -/

def wraps (s : ServiceState) : Bool := decide (masked s.clock < s.lastTick)

def stay (s : ServiceState) : List SamgrTimerNode :=
  (s.timerList.map (seen (wraps s))).filter fun item => !due (masked s.clock) item

/-- The nodes that a tick inserts again; the one that fired last comes first. -/
def again (s : ServiceState) : List SamgrTimerNode :=
  (((s.timerList.map (seen (wraps s))).filter (firesAgain (masked s.clock))).map (rearm (masked s.clock))).reverse

/-- All nodes that a step inserts are in place. -/
def InOrder (s : ServiceState) : Action → Prop
  | .advance _ => True
  | .update params => params.arms →
      InPlace (s.timerList.eraseP fun n => decide (n.key = params.key))
        ⟨params, u32 (masked s.clock + params.interval)⟩
  | .tick => AllInPlace (stay s) (again s)

theorem unwrap_mono (wrap : Bool) {x y : ℕ} (h : x ≤ y) : unwrap wrap x ≤ unwrap wrap y := by
  unfold unwrap
  split_ifs <;> omega

theorem ordered_seen (h : Ordered l) (wrap : Bool) : Ordered (l.map (seen wrap)) :=
  pairwise_map.mpr (h.imp fun hle => unwrap_mono wrap hle)

/-- **A step keeps the order exactly when all nodes it inserts are in place.** -/
theorem ordered_step_iff {s' : ServiceState} {a : Action} (h : Ordered s.timerList) (hstep : step s a = some s') :
    Ordered s'.timerList ↔ InOrder s a := by
  cases a with
  | advance ms =>
    cases hstep
    exact iff_of_true h trivial
  | update params =>
    cases hstep
    have herase : Ordered (s.timerList.eraseP fun n => decide (n.key = params.key)) := h.sublist eraseP_sublist
    rw [updateTimer, InOrder]
    cases hfind : s.timerList.find? fun n => decide (n.key = params.key) with
    | some item =>
      simp only
      split_ifs with harms
      · rw [ordered_insertNodeOrdered_iff, and_iff_right herase, forall_prop_of_true harms]
      · exact iff_of_true herase fun harms' => absurd harms' harms
    | none =>
      have hsame : s.timerList.eraseP (fun n => decide (n.key = params.key)) = s.timerList :=
        eraseP_of_forall_not fun n hn => List.find?_eq_none.mp hfind n hn
      simp only
      split_ifs with harms
      · rw [ordered_insertNodeOrdered_iff, and_iff_right h, hsame, forall_prop_of_true harms]
      · exact iff_of_true h fun harms' => absurd harms' harms
  | tick =>
    cases hstep
    rw [fireTimers, InOrder]
    by_cases hnil : s.timerList = []
    · have hagain : again s = [] := by rw [again, hnil]; rfl
      simp only [hnil, if_true]
      refine iff_of_true List.Pairwise.nil fun before n after heq => ?_
      rw [hagain] at heq
      simp at heq
    · have hstay : Ordered (stay s) := (ordered_seen h _).sublist filter_sublist
      simp only [hnil, if_false, fireLoop_eq]
      exact ordered_foldl_insertNodeOrdered_iff.trans (and_iff_right hstay)

/-! ## Runs -/

/-- The requests of a tick are sent in order of expiry. -/
def FiresInOrder (s : ServiceState) : Prop :=
  ∃ fired : List SamgrTimerNode, fired.Sublist s.timerList ∧ Ordered fired ∧
    (fireTimers s).log = .ticked s.clock :: (fired.map fun n => Event.sent n.key s.clock).reverse ++ s.log

theorem firesInOrder_of_ordered (h : Ordered s.timerList) : FiresInOrder s := by
  refine ⟨s.timerList.filter (due (masked s.clock) ∘ seen (wraps s)), filter_sublist,
    h.sublist filter_sublist, ?_⟩
  rw [fireTimers_log, filter_map, map_map]
  rfl

/-- **The order of the timers.**  The list is in order of expiry in every state of a run, and so are the requests of
its ticks, if and only if all nodes that its steps insert are in place. -/
theorem ordered_iff (clock : ℕ) (as : List Action) :
    Throughout step (fun s => Ordered s.timerList ∧ FiresInOrder s) (init clock) as ↔
      EachStep step InOrder (init clock) as := by
  have hinit : Ordered (init clock).timerList := List.Pairwise.nil
  refine throughout_iff_eachStep (fun s a s' h hstep => ?_) ⟨hinit, firesInOrder_of_ordered hinit⟩ as
  rw [← ordered_step_iff h.1 hstep]
  exact ⟨fun h' => h'.1, fun h' => ⟨h', firesInOrder_of_ordered h'⟩⟩

def laterTimer : List Action := [.update ⟨⟨1, 0, 0⟩, 7, 10, 1⟩, .update ⟨⟨2, 0, 0⟩, 7, 20, 1⟩]

/-- The later timer is in front. -/
theorem not_ordered_laterTimer :
    (exec step (init 0) laterTimer).map (·.timerList.map (·.expire_time)) = some [20, 10] ∧
      ¬ Throughout step (fun s => Ordered s.timerList ∧ FiresInOrder s) (init 0) laterTimer := by
  refine ⟨by decide, fun h => ?_⟩
  have hlast := ((h.2 _ rfl).2 _ rfl).1
  exact absurd hlast (by decide)

end Protoc.Samgr.Timer
