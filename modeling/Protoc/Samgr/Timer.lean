import Protoc.Lib.Run
import Mathlib.Data.Int.Notation
import Mathlib.Data.List.Perm.Basic

/-!
# The timer service

`SamgrTimer_UpdateTimer` creates, re-arms or removes a timer;
`SamgrTimer_FireTimers` runs at every tick, sends the requests of the timers whose
expiry has passed and re-inserts the repeating ones.  Expiry times are `uint32`
values on a clock masked to 28 bits.  When a tick sees the masked clock below
`lastTick` the clock has wrapped, and every stored expiry is taken back by one wrap.

A timer armed after the wrap but before the tick that notices it is taken back as
well, although its expiry was already on the new side: it fires at once
(`early_fire`).  When no timer is armed in that window nothing fires early
(`no_early_fire`).

The state carries a log of what happened at which clock time, in which the promise
to the callers is stated: `lastArmed` finds the `UpdateTimer` a request answers to.
-/

namespace Protoc.Samgr.Timer

open Protoc.Lib
open List

/-- `SAMGR_TIMER_TIME_MAX`, the mask of the clock. -/
def SAMGR_TIMER_TIME_MAX : ℕ := 0x0FFFFFFF

/-- The clock as the service sees it: `SAMGR_GetProcessTime() & SAMGR_TIMER_TIME_MAX`. -/
def masked (clock : ℕ) : ℕ := clock % 0x10000000

/-- Truncation to `uint32`. -/
def u32 (n : ℕ) : ℕ := n % 0x100000000

/-- `SAMGR_TIMER_REPEAT_INFINITE`. -/
def SAMGR_TIMER_REPEAT_INFINITE : ℤ := -1

/-- The identity of a service or feature. -/
structure Identity where
  serviceId : ℤ
  featureId : ℤ
  queueId : ℕ
  deriving DecidableEq

/-- The parameters of a timer. -/
structure SamgrTimerParams where
  identity : Identity
  msgId : ℕ
  interval : ℕ
  repeatCnt : ℤ
  deriving DecidableEq

/-- What tells one timer from another: whom to send to, and which message. -/
abbrev Key := Identity × ℕ

def SamgrTimerParams.key (p : SamgrTimerParams) : Key := (p.identity, p.msgId)

/-- The parameters ask for a timer; otherwise they remove one. -/
def SamgrTimerParams.arms (p : SamgrTimerParams) : Prop := 0 < p.interval ∧ p.repeatCnt ≠ 0

instance (p : SamgrTimerParams) : Decidable p.arms := inferInstanceAs (Decidable (_ ∧ _))

/-- A node of the timer list. -/
structure SamgrTimerNode where
  params : SamgrTimerParams
  expire_time : ℕ
  deriving DecidableEq

def SamgrTimerNode.key (n : SamgrTimerNode) : Key := n.params.key

/-! ## The timer list -/

/-- The position before which `SamgrTimer_InsertNodeOrdered` inserts: in front of the
first node that expires later. -/
def insertBefore (node : SamgrTimerNode) : List SamgrTimerNode → Option (List SamgrTimerNode)
  | [] => none
  | item :: rest =>
    if item.expire_time > node.expire_time then some (node :: item :: rest)
    else (insertBefore node rest).map (item :: ·)

/-- `SamgrTimer_InsertNodeOrdered`.  `UtilsListAdd` links the node behind the list
head, so a node that expires last goes to the front. -/
def insertNodeOrdered (timerList : List SamgrTimerNode) (node : SamgrTimerNode) : List SamgrTimerNode :=
  match insertBefore node timerList with
  | some l => l
  | none => node :: timerList

theorem insertBefore_perm {node : SamgrTimerNode} {l l' : List SamgrTimerNode}
    (h : insertBefore node l = some l') : l'.Perm (node :: l) := by
  induction l generalizing l' with
  | nil => simp [insertBefore] at h
  | cons item rest ih =>
    unfold insertBefore at h
    split at h
    · cases h
      exact .refl _
    · obtain ⟨r, hr, rfl⟩ := Option.map_eq_some_iff.mp h
      exact ((ih hr).cons item).trans (.swap node item rest)

theorem insertNodeOrdered_perm (l : List SamgrTimerNode) (node : SamgrTimerNode) :
    (insertNodeOrdered l node).Perm (node :: l) := by
  unfold insertNodeOrdered
  split
  · exact insertBefore_perm ‹_›
  · exact .refl _

theorem foldl_insertNodeOrdered_perm (nodes l : List SamgrTimerNode) :
    (nodes.foldl insertNodeOrdered l).Perm (nodes ++ l) := by
  induction nodes generalizing l with
  | nil => exact .refl _
  | cons n nodes ih =>
    refine (ih (insertNodeOrdered l n)).trans ?_
    refine ((insertNodeOrdered_perm l n).append_left nodes).trans ?_
    simp

/-! ## `SamgrTimer_FireTimers` -/

/-- The rewriting of a stored expiry when a wrap has been noticed. -/
def unwrap (wrap : Bool) (expire_time : ℕ) : ℕ :=
  if wrap then
    if expire_time > SAMGR_TIMER_TIME_MAX then expire_time - SAMGR_TIMER_TIME_MAX else 0
  else expire_time

/-- `repeatCnt` after a firing. -/
def countDown (repeatCnt : ℤ) : ℤ :=
  if repeatCnt ≠ SAMGR_TIMER_REPEAT_INFINITE then repeatCnt - 1 else repeatCnt

/-- A fired node set up for its next firing. -/
def rearm (now : ℕ) (item : SamgrTimerNode) : SamgrTimerNode where
  params := { item.params with repeatCnt := countDown item.params.repeatCnt }
  expire_time :=
    if u32 (item.expire_time + item.params.interval) < now then
      -- too late, catch up
      u32 (now + item.params.interval)
    else u32 (item.expire_time + item.params.interval)

/-- What the loop of `SamgrTimer_FireTimers` leaves: the nodes still linked in the
timer list, the fired list, and the timers a request was sent for. -/
structure Fired where
  timerList : List SamgrTimerNode
  fired_list : List SamgrTimerNode
  requests : List Key

/-- The loop over the timer list.  Fired nodes are linked behind the head of the
fired list, so the last one fired comes first. -/
def fireLoop (wrap : Bool) (now : ℕ) : List SamgrTimerNode → Fired
  | [] => ⟨[], [], []⟩
  | item :: rest =>
    let item := { item with expire_time := unwrap wrap item.expire_time }
    let out := fireLoop wrap now rest
    if item.expire_time ≤ now then
      if countDown item.params.repeatCnt = 0 then
        { out with requests := item.key :: out.requests }
      else
        { out with fired_list := out.fired_list ++ [rearm now item]
                   requests := item.key :: out.requests }
    else { out with timerList := item :: out.timerList }

/-- What the service and its observer know: the service's fields, the clock in
milliseconds, and the log, newest event first. -/
inductive Event
  /-- `UpdateTimer` created or re-armed the timer at `clock` with `interval`. -/
  | armed (key : Key) (clock interval : ℕ)
  /-- `FireTimers` sent the timer's request at `clock`. -/
  | sent (key : Key) (clock : ℕ)
  /-- A tick was handled at `clock`. -/
  | ticked (clock : ℕ)
  deriving DecidableEq

/-- The service under its clock. -/
structure ServiceState where
  timerList : List SamgrTimerNode
  tickCntRd : UInt8
  lastTick : ℕ
  clock : ℕ
  log : List Event
  deriving DecidableEq

/-- `SamgrTimer_FireTimers`. -/
def fireTimers (s : ServiceState) : ServiceState :=
  let now := masked s.clock
  if s.timerList = [] then
    { s with tickCntRd := s.tickCntRd + 1, lastTick := now, log := .ticked s.clock :: s.log }
  else
    let out := fireLoop (decide (now < s.lastTick)) now s.timerList
    { s with
      timerList := out.fired_list.foldl insertNodeOrdered out.timerList
      tickCntRd := s.tickCntRd + 1
      lastTick := now
      log := .ticked s.clock :: (out.requests.map (Event.sent · s.clock)).reverse ++ s.log }

/-- `SamgrTimer_UpdateTimer`. -/
def updateTimer (s : ServiceState) (params : SamgrTimerParams) : ServiceState :=
  let now := masked s.clock
  let log := if params.arms then .armed params.key s.clock params.interval :: s.log else s.log
  match s.timerList.find? (·.key = params.key) with
  | some _ =>
    let rest := s.timerList.eraseP (·.key = params.key)
    if params.arms then
      { s with timerList := insertNodeOrdered rest ⟨params, u32 (now + params.interval)⟩
               log := log }
    else { s with timerList := rest, log := log }
  | none =>
    if params.arms then
      { s with timerList := insertNodeOrdered s.timerList ⟨params, u32 (now + params.interval)⟩
               log := log }
    else { s with log := log }

/-- What can happen to the service. -/
inductive Action
  /-- The clock advances. -/
  | advance (ms : ℕ)
  /-- `SAMGR_TIMER_MSG_UPDATE_TIMER` is handled. -/
  | update (params : SamgrTimerParams)
  /-- `SAMGR_TIMER_MSG_TICK` is handled. -/
  | tick
  deriving DecidableEq

def step (s : ServiceState) : Action → Option ServiceState
  | .advance ms => some { s with clock := s.clock + ms }
  | .update params => some (updateTimer s params)
  | .tick => some (fireTimers s)

/-- The service as `SamgrTimerInit` leaves it, at an arbitrary clock time. -/
def init (clock : ℕ) : ServiceState := ⟨[], 0, 0, clock, []⟩

/-! ## The promise to the callers -/

/-- The latest arming of a timer in a log: clock time and interval. -/
def lastArmed (key : Key) : List Event → Option (ℕ × ℕ)
  | [] => none
  | .armed k clock interval :: log =>
    if k = key then some (clock, interval) else lastArmed key log
  | _ :: log => lastArmed key log

/-- No request in the log comes before the time its timer was last armed for. -/
def NoEarlyFire : List Event → Prop
  | [] => True
  | .sent key clock :: log =>
    (∀ t i, lastArmed key log = some (t, i) → t + i ≤ clock) ∧ NoEarlyFire log
  | _ :: log => NoEarlyFire log

def lastTicked : List Event → ℕ
  | [] => 0
  | .ticked clock :: _ => clock
  | _ :: log => lastTicked log

/-- What the service is promised: intervals below `2^28`, and less than one clock wrap
between two ticks. -/
def Promised (s : ServiceState) : Action → Prop
  | .advance ms => s.clock + ms < lastTicked s.log + 0x10000000
  | .update params => params.interval < 0x10000000
  | .tick => True

instance (s : ServiceState) (a : Action) : Decidable (Promised s a) := by
  cases a <;> unfold Promised <;> infer_instance

/-- A timer is armed only while no wrap of the clock waits for the tick that notices
it. -/
def WrapNoticed (s : ServiceState) : Action → Prop
  | .update params => params.arms → s.lastTick ≤ masked s.clock
  | _ => True

instance (s : ServiceState) (a : Action) : Decidable (WrapNoticed s a) := by
  cases a <;> unfold WrapNoticed <;> infer_instance

/-- Intervals below `2^28`, armed only while no wrap is pending. -/
def ArmsInEpoch (s : ServiceState) (a : Action) : Prop :=
  (∀ params, a = .update params → params.interval < 0x10000000) ∧ WrapNoticed s a

instance (s : ServiceState) (a : Action) : Decidable (ArmsInEpoch s a) := by
  cases a with
  | update params =>
    exact decidable_of_iff (params.interval < 0x10000000 ∧ WrapNoticed s (.update params))
      (by simp [ArmsInEpoch])
  | advance ms => exact .isTrue ⟨by simp, trivial⟩
  | tick => exact .isTrue ⟨by simp, trivial⟩

/-! ## Stored expiries against the real clock

A stored expiry is read in the epoch of the last tick.  While a wrap is pending it
stands for a time one epoch back, so it must cover the deadline by one epoch more. -/

/-- The stored `expire_time` does not let a request out before `deadline`. -/
def Covers (clock lastTick expire_time deadline : ℕ) : Prop :=
  deadline ≤ clock ∨
    if masked clock < lastTick then
      deadline + 0x10000000 ≤ expire_time + clock / 0x10000000 * 0x10000000
    else deadline ≤ expire_time + clock / 0x10000000 * 0x10000000

theorem Covers.advance {clock lastTick expire_time deadline : ℕ} (ms : ℕ)
    (h : Covers clock lastTick expire_time deadline) (hl : lastTick < 0x10000000) :
    Covers (clock + ms) lastTick expire_time deadline := by
  unfold Covers masked at *
  split at h <;> split <;> omega

theorem covers_armed {clock lastTick interval : ℕ} (h : lastTick ≤ masked clock) (hi : interval < 0x10000000) :
    Covers clock lastTick (u32 (masked clock + interval)) (clock + interval) := by
  unfold Covers masked u32 at *
  split <;> omega

theorem Covers.unwrap {clock lastTick expire_time deadline : ℕ}
    (h : Covers clock lastTick expire_time deadline) : Covers clock (masked clock)
      (unwrap (decide (masked clock < lastTick)) expire_time) deadline := by
  unfold Covers Timer.unwrap masked SAMGR_TIMER_TIME_MAX at *
  by_cases hw : clock % 0x10000000 < lastTick
  · simp only [hw, if_true, decide_true, Nat.lt_irrefl, if_false] at *
    split <;> omega
  · simp only [hw, if_false, decide_false, Nat.lt_irrefl, Bool.false_eq_true] at *
    exact h

theorem Covers.due {clock expire_time deadline : ℕ}
    (h : Covers clock (masked clock) expire_time deadline) (hx : expire_time ≤ masked clock) :
    deadline ≤ clock := by
  unfold Covers masked at *
  simp only [Nat.lt_irrefl, if_false] at h
  omega

theorem unwrap_lt {wrap : Bool} {expire_time : ℕ} (h : expire_time < 0x20000000) :
    unwrap wrap expire_time < 0x20000000 := by
  unfold unwrap
  split
  · split <;> omega
  · exact h

theorem masked_lt (clock : ℕ) : masked clock < 0x10000000 := by
  unfold masked
  omega

/-! ## The loop -/

@[simp] theorem rearm_key (now : ℕ) (item : SamgrTimerNode) : (rearm now item).key = item.key := rfl
@[simp] theorem rearm_interval (now : ℕ) (item : SamgrTimerNode) :
    (rearm now item).params.interval = item.params.interval := rfl

theorem rearm_expire_lt {now : ℕ} {item : SamgrTimerNode} (hx : item.expire_time ≤ now)
    (hn : now < 0x10000000) (hi : item.params.interval < 0x10000000) :
    (rearm now item).expire_time < 0x20000000 := by
  have hlt : ∀ n, n < 0x20000000 → u32 n < 0x20000000 := fun n h => by unfold u32; omega
  unfold rearm
  by_cases late : u32 (item.expire_time + item.params.interval) < now
  · simp only [late, if_true]
    exact hlt _ (by omega)
  · simp only [late, if_false]
    exact hlt _ (by omega)

def seen (wrap : Bool) (item : SamgrTimerNode) : SamgrTimerNode :=
  { item with expire_time := unwrap wrap item.expire_time }

@[simp] theorem seen_key (wrap : Bool) (item : SamgrTimerNode) : (seen wrap item).key = item.key := rfl

/-- Where the nodes and the requests of the loop come from. -/
structure FireSpec (wrap : Bool) (now : ℕ) (l : List SamgrTimerNode) (out : Fired) : Prop where
  kept : ∀ m ∈ out.timerList, ∃ n ∈ l, m = seen wrap n
  fired : ∀ m ∈ out.fired_list, ∃ n ∈ l, (seen wrap n).expire_time ≤ now ∧
    m = rearm now (seen wrap n)
  requests : ∀ k ∈ out.requests, ∃ n ∈ l, (seen wrap n).expire_time ≤ now ∧ n.key = k

theorem fireLoop_spec (wrap : Bool) (now : ℕ) (l : List SamgrTimerNode) :
    FireSpec wrap now l (fireLoop wrap now l) := by
  induction l with
  | nil => exact ⟨by simp [fireLoop], by simp [fireLoop], by simp [fireLoop]⟩
  | cons item rest ih =>
    obtain ⟨kept, fired, requests⟩ := ih
    have hk : ∀ m ∈ (fireLoop wrap now rest).timerList, ∃ n ∈ item :: rest, m = seen wrap n :=
      fun m hm => let ⟨n, hn, h⟩ := kept m hm; ⟨n, .tail _ hn, h⟩
    have hf : ∀ m ∈ (fireLoop wrap now rest).fired_list, ∃ n ∈ item :: rest,
        (seen wrap n).expire_time ≤ now ∧ m = rearm now (seen wrap n) :=
      fun m hm => let ⟨n, hn, h⟩ := fired m hm; ⟨n, .tail _ hn, h⟩
    have hr : ∀ k ∈ (fireLoop wrap now rest).requests, ∃ n ∈ item :: rest,
        (seen wrap n).expire_time ≤ now ∧ n.key = k :=
      fun k hm => let ⟨n, hn, h⟩ := requests k hm; ⟨n, .tail _ hn, h⟩
    simp only [fireLoop]
    by_cases hx : unwrap wrap item.expire_time ≤ now
    · have hr' : ∀ k ∈ item.key :: (fireLoop wrap now rest).requests, ∃ n ∈ item :: rest,
          (seen wrap n).expire_time ≤ now ∧ n.key = k := by
        intro k hm
        rcases mem_cons.mp hm with rfl | hm
        · exact ⟨item, .head _, hx, rfl⟩
        · exact hr k hm
      simp only [hx, if_true]
      split
      · exact ⟨hk, hf, hr'⟩
      · refine ⟨hk, fun m hm => ?_, hr'⟩
        rcases mem_append.mp hm with hm | hm
        · exact hf m hm
        · exact ⟨item, .head _, hx, mem_singleton.mp hm⟩
    · simp only [hx, if_false]
      refine ⟨fun m hm => ?_, hf, hr⟩
      rcases mem_cons.mp hm with rfl | hm
      · exact ⟨item, .head _, rfl⟩
      · exact hk m hm

variable {l : List SamgrTimerNode}

/-- The loop keeps timers distinct. -/
theorem fireLoop_nodup (wrap : Bool) (now : ℕ) (h : (l.map SamgrTimerNode.key).Nodup) :
    (((fireLoop wrap now l).fired_list ++ (fireLoop wrap now l).timerList).map SamgrTimerNode.key).Nodup := by
  induction l with
  | nil => simp [fireLoop]
  | cons item rest ih =>
    obtain ⟨hnew, hrest⟩ := nodup_cons.mp h
    have ih := ih hrest
    have spec := fireLoop_spec wrap now rest
    -- the item's key is not among those of the rest
    have hout : item.key ∉ ((fireLoop wrap now rest).fired_list ++
        (fireLoop wrap now rest).timerList).map SamgrTimerNode.key := by
      intro hm
      obtain ⟨m, hm, hkey⟩ := mem_map.mp hm
      apply hnew
      rcases mem_append.mp hm with hm | hm
      · obtain ⟨n, hn, -, rfl⟩ := spec.fired m hm
        exact mem_map.mpr ⟨n, hn, hkey⟩
      · obtain ⟨n, hn, rfl⟩ := spec.kept m hm
        exact mem_map.mpr ⟨n, hn, hkey⟩
    have hcons := nodup_cons.mpr ⟨hout, ih⟩
    simp only [fireLoop]
    split
    · split
      · exact ih
      · refine (List.Perm.nodup_iff ?_).mpr hcons
        simp only [append_assoc, map_append, singleton_append, map_cons]
        exact perm_middle
    · refine (List.Perm.nodup_iff ?_).mpr hcons
      rw [map_append, map_cons, map_append]
      exact perm_middle

/-! ## The log -/

@[simp] theorem lastArmed_sent (key k : Key) (clock : ℕ) (log : List Event) :
    lastArmed key (.sent k clock :: log) = lastArmed key log := rfl
@[simp] theorem lastArmed_ticked (key : Key) (clock : ℕ) (log : List Event) :
    lastArmed key (.ticked clock :: log) = lastArmed key log := rfl
@[simp] theorem noEarlyFire_ticked (clock : ℕ) (log : List Event) :
    NoEarlyFire (.ticked clock :: log) = NoEarlyFire log := rfl
@[simp] theorem noEarlyFire_armed (key : Key) (clock interval : ℕ) (log : List Event) :
    NoEarlyFire (.armed key clock interval :: log) = NoEarlyFire log := rfl

variable {log : List Event}

theorem lastArmed_armed_self {key : Key} {clock interval : ℕ} :
    lastArmed key (.armed key clock interval :: log) = some (clock, interval) := by
  simp [lastArmed]

theorem lastArmed_armed_ne {key k : Key} (h : k ≠ key) {clock interval : ℕ} :
    lastArmed key (.armed k clock interval :: log) = lastArmed key log := by
  simp [lastArmed, h]

theorem lastArmed_requests (key : Key) (ks : List Key) (clock : ℕ) (log : List Event) :
    lastArmed key (ks.map (Event.sent · clock) ++ log) = lastArmed key log := by
  induction ks with
  | nil => rfl
  | cons k ks ih => simpa using ih

theorem noEarlyFire_requests {ks : List Key} {clock : ℕ}
    (hdue : ∀ k ∈ ks, ∀ t i, lastArmed k log = some (t, i) → t + i ≤ clock)
    (hlog : NoEarlyFire log) : NoEarlyFire (ks.map (Event.sent · clock) ++ log) := by
  induction ks with
  | nil => exact hlog
  | cons k ks ih =>
    refine ⟨fun t i h => ?_, ih fun k' hk' => hdue k' (.tail _ hk')⟩
    have h : lastArmed k (ks.map (Event.sent · clock) ++ log) = some (t, i) := h
    rw [lastArmed_requests] at h
    exact hdue k (.head _) t i h

/-! ## The invariant -/

/-- A node's stored expiry covers the deadline it was armed for. -/
structure Due (clock lastTick : ℕ) (log : List Event) (n : SamgrTimerNode) : Prop where
  expire_lt : n.expire_time < 0x20000000
  interval_lt : n.params.interval < 0x10000000
  covers : ∀ t i, lastArmed n.key log = some (t, i) → Covers clock lastTick n.expire_time (t + i)

/-- Timers are distinct, every stored expiry covers its deadline, and nothing has
fired early. -/
structure Inv (s : ServiceState) : Prop where
  lastTick_lt : s.lastTick < 0x10000000
  nodup : (s.timerList.map SamgrTimerNode.key).Nodup
  due : ∀ n ∈ s.timerList, Due s.clock s.lastTick s.log n
  log : NoEarlyFire s.log

theorem inv_init (clock : ℕ) : Inv (init clock) :=
  ⟨by simp [init], by simp [init], by simp [init], trivial⟩

variable {s : ServiceState}

theorem inv_advance (hi : Inv s) (ms : ℕ) : Inv { s with clock := s.clock + ms } where
  lastTick_lt := hi.lastTick_lt
  nodup := hi.nodup
  due n hn :=
    let d := hi.due n hn
    ⟨d.expire_lt, d.interval_lt, fun t i h => (d.covers t i h).advance ms hi.lastTick_lt⟩
  log := hi.log

theorem due_fired (hi : Inv s) (log : List Event)
    (hlog : ∀ k, lastArmed k log = lastArmed k s.log) {n : SamgrTimerNode}
    (hn : n ∈ (fireLoop (decide (masked s.clock < s.lastTick)) (masked s.clock)
      s.timerList).fired_list ++ (fireLoop (decide (masked s.clock < s.lastTick))
      (masked s.clock) s.timerList).timerList) : Due s.clock (masked s.clock) log n := by
  have spec := fireLoop_spec (decide (masked s.clock < s.lastTick)) (masked s.clock) s.timerList
  rcases mem_append.mp hn with hn | hn
  · -- fired and set up again: its deadline has passed
    obtain ⟨m, hm, hx, rfl⟩ := spec.fired n hn
    have d := hi.due m hm
    refine ⟨rearm_expire_lt hx (masked_lt _) d.interval_lt, d.interval_lt, fun t i h => ?_⟩
    rw [hlog] at h
    exact .inl ((d.covers t i h).unwrap.due hx)
  · obtain ⟨m, hm, rfl⟩ := spec.kept n hn
    have d := hi.due m hm
    refine ⟨unwrap_lt d.expire_lt, d.interval_lt, fun t i h => ?_⟩
    rw [hlog] at h
    exact (d.covers t i h).unwrap

theorem inv_tick (hi : Inv s) : Inv (fireTimers s) := by
  unfold fireTimers
  by_cases hnil : s.timerList = []
  · simp only [hnil, if_true]
    exact ⟨masked_lt _, by simp, by simp, hi.log⟩
  · simp only [hnil, if_false]
    have perm := foldl_insertNodeOrdered_perm
      (fireLoop (decide (masked s.clock < s.lastTick)) (masked s.clock) s.timerList).fired_list
      (fireLoop (decide (masked s.clock < s.lastTick)) (masked s.clock) s.timerList).timerList
    have spec := fireLoop_spec (decide (masked s.clock < s.lastTick)) (masked s.clock) s.timerList
    refine ⟨masked_lt _, ?_, fun n hn => ?_, ?_⟩
    · exact (perm.map _).nodup_iff.mpr (fireLoop_nodup _ _ hi.nodup)
    · refine due_fired hi _ (fun k => ?_) (perm.mem_iff.mp hn)
      rw [← map_reverse]
      exact lastArmed_requests k _ _ _
    · rw [← map_reverse]
      refine noEarlyFire_requests (fun k hk t i h => ?_) hi.log
      obtain ⟨n, hn, hx, rfl⟩ := spec.requests k (mem_reverse.mp hk)
      exact ((hi.due n hn).covers t i h).unwrap.due hx

theorem inv_insert {params : SamgrTimerParams}
    (hi : Inv s) (hsub : l.Sublist s.timerList) (hnew : ∀ n ∈ l, n.key ≠ params.key)
    (hint : params.interval < 0x10000000) (hwrap : s.lastTick ≤ masked s.clock) :
    Inv { s with
      timerList := insertNodeOrdered l ⟨params, u32 (masked s.clock + params.interval)⟩
      log := .armed params.key s.clock params.interval :: s.log } := by
  have perm := insertNodeOrdered_perm l ⟨params, u32 (masked s.clock + params.interval)⟩
  refine ⟨hi.lastTick_lt, ?_, fun n hn => ?_, hi.log⟩
  · refine (perm.map _).nodup_iff.mpr (nodup_cons.mpr ⟨?_, hi.nodup.sublist (hsub.map _)⟩)
    intro hm
    obtain ⟨n, hn, hkey⟩ := mem_map.mp hm
    exact hnew n hn hkey
  · rcases mem_cons.mp (perm.mem_iff.mp hn) with rfl | hn
    · refine ⟨?_, hint, fun t i h => ?_⟩
      · have := masked_lt s.clock
        simp only [u32]
        omega
      · rw [show SamgrTimerNode.key _ = params.key from rfl, lastArmed_armed_self] at h
        cases h
        exact covers_armed hwrap hint
    · have d := hi.due n (hsub.subset hn)
      refine ⟨d.expire_lt, d.interval_lt, fun t i h => d.covers t i ?_⟩
      rwa [lastArmed_armed_ne (hnew n hn).symm] at h

theorem inv_sublist (hi : Inv s) (hsub : l.Sublist s.timerList) : Inv { s with timerList := l } :=
  ⟨hi.lastTick_lt, hi.nodup.sublist (hsub.map _), fun n hn => hi.due n (hsub.subset hn), hi.log⟩

theorem key_ne_of_mem_eraseP {key : Key} (h : (l.map SamgrTimerNode.key).Nodup) :
    ∀ n ∈ l.eraseP (·.key = key), n.key ≠ key := by
  induction l with
  | nil => simp
  | cons item rest ih =>
    obtain ⟨hnew, hrest⟩ := nodup_cons.mp h
    by_cases hk : item.key = key
    · simp only [eraseP_cons, hk, decide_true, cond_true]
      intro n hn heq
      exact hnew (mem_map.mpr ⟨n, hn, heq.trans hk.symm⟩)
    · simp only [eraseP_cons, hk, decide_false, cond_false]
      intro n hn
      rcases mem_cons.mp hn with rfl | hn
      · exact hk
      · exact ih hrest n hn

theorem inv_update {params : SamgrTimerParams} (hi : Inv s)
    (hok : ArmsInEpoch s (.update params)) : Inv (updateTimer s params) := by
  have hint := hok.1 params rfl
  unfold updateTimer
  by_cases ha : params.arms
  · have hwrap := hok.2 ha
    simp only [ha, if_true]
    cases hf : s.timerList.find? (·.key = params.key) with
    | some item =>
      exact inv_insert hi eraseP_sublist (key_ne_of_mem_eraseP hi.nodup) hint hwrap
    | none =>
      refine inv_insert hi (List.Sublist.refl _) (fun n hn => ?_) hint hwrap
      simpa using List.find?_eq_none.mp hf n hn
  · simp only [ha, if_false]
    cases hf : s.timerList.find? (·.key = params.key) with
    | some item => exact inv_sublist hi eraseP_sublist
    | none => exact hi

theorem inv_step (s : ServiceState) (a : Action) (s' : ServiceState) (hi : Inv s)
    (hok : ArmsInEpoch s a) (h : step s a = some s') : Inv s' := by
  cases a with
  | advance ms => cases h; exact inv_advance hi ms
  | update params => cases h; exact inv_update hi hok
  | tick => cases h; exact inv_tick hi

/-! ## No timer fires early -/

/-- **No timer fires early** in a run with intervals below `2^28` in which no timer is
armed between a wrap of the clock and the tick that notices it.  The ticks may be
arbitrarily late. -/
theorem no_early_fire {clock : ℕ} {as : List Action} {s : ServiceState}
    (run : Runs step ArmsInEpoch (init clock) as s) : NoEarlyFire s.log :=
  (run.invariant inv_step (inv_init clock)).log

/-- A timer of `interval` milliseconds that repeats for ever. -/
def timerEvery (interval : ℕ) : SamgrTimerParams := ⟨⟨1, 0, 1⟩, 7, interval, -1⟩

/-- A timer armed just before the wrap fires just after it, in time. -/
theorem no_early_fire_across_wrap : ∃ s, Runs step ArmsInEpoch (init 0xFFFFFF0)
      [.tick, .update (timerEvery 100), .advance 50, .tick, .advance 60, .tick] s ∧
      NoEarlyFire s.log ∧ .sent (timerEvery 100).key 0x1000005E ∈ s.log := by
  let s : ServiceState := ⟨[⟨timerEvery 100, 185⟩], 3, 0x5E, 0x1000005E,
    [.ticked 0x1000005E, .sent (timerEvery 100).key 0x1000005E, .ticked 0x10000022,
      .armed (timerEvery 100).key 0xFFFFFF0 100, .ticked 0xFFFFFF0]⟩
  have run : Runs step ArmsInEpoch (init 0xFFFFFF0)
      [.tick, .update (timerEvery 100), .advance 50, .tick, .advance 60, .tick] s :=
    runs_of_execOk (by decide)
  exact ⟨s, run, no_early_fire run, by simp [s]⟩

/-- **A timer fires early.**  The clock wraps, a timer of one second is armed, and the
tick that notices the wrap ten milliseconds later sends its request. -/
theorem early_fire : ∃ s, Runs step Promised (init 0xFFFFFF0)
      [.tick, .advance 0x20, .update (timerEvery 1000), .advance 10, .tick] s ∧
      .armed (timerEvery 1000).key 0x10000010 1000 ∈ s.log ∧
      .sent (timerEvery 1000).key 0x1000001A ∈ s.log ∧ ¬ NoEarlyFire s.log := by
  let s : ServiceState := ⟨[⟨timerEvery 1000, 1000⟩], 2, 26, 0x1000001A,
    [.ticked 0x1000001A, .sent (timerEvery 1000).key 0x1000001A,
      .armed (timerEvery 1000).key 0x10000010 1000, .ticked 0xFFFFFF0]⟩
  have run : Runs step Promised (init 0xFFFFFF0)
      [.tick, .advance 0x20, .update (timerEvery 1000), .advance 10, .tick] s :=
    runs_of_execOk (by decide)
  refine ⟨s, run, by simp [s], by simp [s], fun hno => ?_⟩
  have := hno.1 _ _ lastArmed_armed_self
  omega

end Protoc.Samgr.Timer
