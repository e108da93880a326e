import Mathlib.Data.List.Count
import Protoc.Lib.Run

/-!
# Tick accounting and flow control of the timer service

`samgrTimerTickReq` sends a tick when fewer than two are queued, which it takes from the
distance of the counters.  Where `tickCntWr` has wrapped and `tickCntRd` has not, it computes
one less than the distance, and a third tick is let through.
-/

namespace Protoc.Samgr.TimerTick

/-! ## Tick accounting of the timer service -/

open Protoc.Lib

/-- A message in the service's queue: a tick, or any other request. -/
inductive Msg
  /-- `SAMGR_TIMER_MSG_TICK`. -/
  | tick
  /-- `SAMGR_TIMER_MSG_UPDATE_TIMER`, or a request of a service sharing the queue. -/
  | other
  deriving DecidableEq

/-- Where the tick source stands in `samgrTimerTickReq`. -/
inductive Source
  /-- Between two calls. -/
  | idle
  /-- `tick_cnt_rd` has been read. -/
  | readRd (tick_cnt_rd : UInt8)
  /-- The flow control let the tick through; the request is about to be sent. -/
  | send
  /-- `SAMGR_SendRequest` has returned; `tickCntWr++` is next. -/
  | count
  deriving DecidableEq

/-- The fields the two parties share, and the queue between them. -/
structure TickState where
  tickCntWr : UInt8
  tickCntRd : UInt8
  /-- The service's queue, oldest message first. -/
  queue : List Msg
  source : Source
  /-- A tick has been taken off the queue and `tickCntRd++` is next. -/
  handling : Bool
  deriving DecidableEq

def init : TickState := ⟨0, 0, [], .idle, false⟩

/-- `QUEUE_Put` on a bounded queue: a full queue refuses the message. -/
def queuePut (cap : ℕ) (queue : List Msg) (m : Msg) : List Msg :=
  if queue.length < cap then queue ++ [m] else queue

/-- The flow control of `samgrTimerTickReq`: `tick_cnt_diff` as the code computes it. -/
def tickCntDiff (tick_cnt_wr tick_cnt_rd : UInt8) : UInt8 :=
  if tick_cnt_rd ≤ tick_cnt_wr then tick_cnt_wr - tick_cnt_rd
  else 0xFF - tick_cnt_rd + tick_cnt_wr

/-- One access to the shared state by one of the parties. -/
inductive Action
  /-- The source starts a call: it reads `tickCntRd`. -/
  | readRd
  /-- The source reads `tickCntWr` and decides. -/
  | readWr
  /-- The source sends the tick, whatever comes of it. -/
  | send
  /-- The source executes `tickCntWr++`. -/
  | count
  /-- Somebody puts another request into the service's queue. -/
  | putOther
  /-- The service takes the oldest message off its queue. -/
  | pop
  /-- `SamgrTimer_FireTimers` executes `tickCntRd++`. -/
  | fire
  deriving DecidableEq

/-- The interleaving: every action is one access to the shared fields. -/
def step (cap : ℕ) (s : TickState) : Action → Option TickState
  | .readRd => match s.source with
    | .idle => some { s with source := .readRd s.tickCntRd }
    | _ => none
  | .readWr => match s.source with
    | .readRd rd =>
      some { s with source := if tickCntDiff s.tickCntWr rd < 2 then .send else .idle }
    | _ => none
  | .send => match s.source with
    -- the result of `SAMGR_SendRequest` is ignored
    | .send => some { s with queue := queuePut cap s.queue .tick, source := .count }
    | _ => none
  | .count => match s.source with
    | .count => some { s with tickCntWr := s.tickCntWr + 1, source := .idle }
    | _ => none
  | .putOther => some { s with queue := queuePut cap s.queue .other }
  | .pop => match s.handling, s.queue with
    | false, .tick :: q => some { s with queue := q, handling := true }
    | false, .other :: q => some { s with queue := q }
    | _, _ => none
  | .fire => if s.handling then
      some { s with tickCntRd := s.tickCntRd + 1, handling := false }
    else none

def pending (s : TickState) : ℕ := s.queue.count .tick + if s.handling then 1 else 0

/-- The counters account for the pending ticks: `(tickCntWr - tickCntRd) mod 256`. -/
def Accounted (s : TickState) : Prop := (s.tickCntWr - s.tickCntRd).toNat = pending s

instance (s : TickState) : Decidable (Accounted s) := inferInstanceAs (Decidable (_ = _))

/-- The next call lets its tick through: its two reads end in the send. -/
def LetsThrough (cap : ℕ) (s : TickState) : Prop :=
  ∃ s', exec (step cap) s [.readRd, .readWr] = some s' ∧ s'.source = .send

/-- A tick is sent only while the queue has room for it. -/
def SendsFit (cap : ℕ) (s : TickState) (a : Action) : Prop := a = .send → s.queue.length < cap

instance (cap : ℕ) (s : TickState) (a : Action) : Decidable (SendsFit cap s a) :=
  inferInstanceAs (Decidable (_ → _))

/-! ## The flow control -/

/-- A tick let through leaves the counters at most two apart.  The branch for a
wrapped `tickCntWr` computes one less than the distance. -/
theorem dist_le_of_diff_lt {wr rd : UInt8} (h : tickCntDiff wr rd < 2) : (wr - rd).toNat ≤ 2 := by
  unfold tickCntDiff at h
  split at h
  · have := UInt8.lt_iff_toNat_lt.mp h
    simp only [UInt8.reduceToNat] at this
    omega
  · rename_i hlt
    have := UInt8.lt_iff_toNat_lt.mp h
    simp only [UInt8.toNat_add, UInt8.toNat_sub, UInt8.reduceToNat] at this ⊢
    have := wr.toNat_lt
    have := rd.toNat_lt
    omega

@[simp] theorem tickCntDiff_self (c : UInt8) : tickCntDiff c c = 0 := by
  simp [tickCntDiff]

/-! ## The invariant -/

/-- What is pending beyond what the source has counted: a tick sent and not yet
counted. -/
def uncounted : Source → ℕ
  | .count => 1
  | _ => 0

/-- The accounting between the source's own accesses.  While the source is inside a
call its copy of `tickCntRd` may be stale, but a stale copy only overstates the
distance. -/
structure Inv (s : TickState) : Prop where
  account : (s.tickCntWr.toNat + uncounted s.source) % 256 = (s.tickCntRd.toNat + pending s) % 256
  bound : pending s ≤ 3
  stale : ∀ rd, s.source = .readRd rd → pending s ≤ (s.tickCntWr - rd).toNat
  room : s.source = .send → pending s ≤ 2

theorem inv_init : Inv init where
  account := rfl
  bound := by decide
  stale := by simp [init]
  room := by simp [init]

theorem pending_queuePut_other (cap : ℕ) (s : TickState) :
    pending { s with queue := queuePut cap s.queue .other } = pending s := by
  unfold pending queuePut
  split <;> simp

variable {s : TickState}

theorem pending_queuePut_tick {cap : ℕ} (h : s.queue.length < cap) (src : Source) :
    pending { s with queue := queuePut cap s.queue .tick, source := src } = pending s + 1 := by
  simp only [pending, queuePut, h, if_true, List.count_append, List.count_singleton_self]
  omega

/-- Every access keeps the accounting, a send provided the queue has room. -/
theorem inv_step (cap : ℕ) (s : TickState) (a : Action) (s' : TickState) (hi : Inv s)
    (hok : SendsFit cap s a) (h : step cap s a = some s') : Inv s' := by
  obtain ⟨account, bound, stale, room⟩ := hi
  have hrd := s.tickCntRd.toNat_lt
  cases a with
  | readRd =>
    cases hs : s.source <;> simp [step, hs] at h
    subst h
    rw [hs] at account
    refine ⟨account, bound, ?_, by simp⟩
    rintro rd ⟨⟩
    simp only [uncounted] at account
    simp only [UInt8.toNat_sub]
    change pending s ≤ _
    omega
  | readWr =>
    cases hs : s.source <;> simp [step, hs] at h
    rename_i rd
    subst h
    rw [hs] at account
    have hstale := stale rd hs
    by_cases hd : tickCntDiff s.tickCntWr rd < 2
    · simp only [hd, if_true]
      refine ⟨account, bound, by simp, fun _ => ?_⟩
      exact Nat.le_trans hstale (dist_le_of_diff_lt hd)
    · simp only [hd, if_false]
      exact ⟨account, bound, by simp, by simp⟩
  | send =>
    cases hs : s.source <;> simp [step, hs] at h
    subst h
    have hp := pending_queuePut_tick (hok rfl) .count
    have hroom := room hs
    rw [hs] at account
    refine ⟨?_, ?_, by simp, by simp⟩
    · simp only [uncounted] at account ⊢
      omega
    · omega
  | count =>
    cases hs : s.source <;> simp [step, hs] at h
    subst h
    rw [hs] at account
    refine ⟨?_, bound, by simp, by simp⟩
    simp only [uncounted, UInt8.toNat_add, UInt8.reduceToNat] at account ⊢
    change _ = (_ + pending s) % 256
    omega
  | putOther =>
    obtain rfl : { s with queue := queuePut cap s.queue .other } = s' := by simpa [step] using h
    have hp := pending_queuePut_other cap s
    exact ⟨by rw [hp]; exact account, by rw [hp]; exact bound,
      fun rd hrd => by rw [hp]; exact stale rd hrd, fun hs => by rw [hp]; exact room hs⟩
  | pop =>
    cases hh : s.handling <;> cases hq : s.queue <;> simp [step, hh, hq] at h
    rename_i m q
    -- a tick moves from the queue into the service's hands: nothing else changes
    have hp : pending s' = pending s := by
      cases m <;> simp at h <;> subst h <;> simp [pending, hh, hq]
    have hsrc : s'.source = s.source ∧ s'.tickCntWr = s.tickCntWr ∧ s'.tickCntRd = s.tickCntRd := by
      cases m <;> simp at h <;> subst h <;> simp
    obtain ⟨h1, h2, h3⟩ := hsrc
    exact ⟨by rw [hp, h1, h2, h3]; exact account, by rw [hp]; exact bound,
      fun rd hrd => by rw [hp, h2]; exact stale rd (h1 ▸ hrd),
      fun hs => by rw [hp]; exact room (h1 ▸ hs)⟩
  | fire =>
    cases hh : s.handling <;> simp [step, hh] at h
    subst h
    have hp : pending s = pending { s with tickCntRd := s.tickCntRd + 1, handling := false } + 1 := by
      simp [pending, hh]
    refine ⟨?_, by omega, fun rd hrd => ?_, fun hs => ?_⟩
    · rw [hp] at account
      simp only [UInt8.toNat_add, UInt8.reduceToNat] at account ⊢
      omega
    · have := stale rd hrd
      simp only at this ⊢
      omega
    · have := room hs
      omega

theorem inv_run {cap : ℕ} {as : List Action} (run : Runs (step cap) (SendsFit cap) init as s) : Inv s :=
  run.invariant (inv_step cap) inv_init

theorem Inv.accounted (hi : Inv s) (hs : s.source ≠ .count) : Accounted s := by
  have := hi.account
  have := hi.bound
  have := s.tickCntWr.toNat_lt
  have := s.tickCntRd.toNat_lt
  have hu : uncounted s.source = 0 := by cases h : s.source <;> simp_all [uncounted]
  simp only [Accounted, UInt8.toNat_sub]
  omega

theorem letsThrough_of_eq {cap : ℕ} (hs : s.source = .idle)
    (h : s.tickCntWr = s.tickCntRd) : LetsThrough cap s := by
  simp [LetsThrough, exec, step, hs, h]

/-! ## Tick accounting -/

/-- **Tick accounting.**  In every interleaving in which each tick sent finds room in
the service's queue, the counters differ by the number of ticks queued and not yet
handled, whenever no call is between its send and its `tickCntWr++`; and a drained
queue lets the next tick through. -/
theorem tick_accounting {cap : ℕ} {as : List Action} {s : TickState}
    (run : Runs (step cap) (SendsFit cap) init as s) :
    (s.source ≠ .count → Accounted s) ∧ (s.source = .idle → pending s = 0 → LetsThrough cap s) := by
  have hi := inv_run run
  refine ⟨hi.accounted, fun hs hp => letsThrough_of_eq hs ?_⟩
  have hacc : (s.tickCntWr - s.tickCntRd).toNat = 0 := by
    rw [← hp]
    exact hi.accounted (by simp [hs])
  have := s.tickCntWr.toNat_lt
  have := s.tickCntRd.toNat_lt
  apply UInt8.toNat_inj.mp
  simp only [UInt8.toNat_sub] at hacc
  omega

def twoTicks : List Action :=
  [.readRd, .readWr, .send, .count, .pop, .fire, .readRd, .readWr, .send, .count]

/-- The accounting applies to `twoTicks`, which leaves one tick pending. -/
theorem tick_accounting_twoTicks :
    ∃ s, Runs (step 25) (SendsFit 25) init twoTicks s ∧ Accounted s ∧ pending s = 1 := by
  let s : TickState := ⟨2, 1, [.tick], .idle, false⟩
  have run : Runs (step 25) (SendsFit 25) init twoTicks s := runs_of_execOk (by decide)
  exact ⟨s, run, (tick_accounting run).1 (by decide), by decide⟩

/-- Two calls against a full queue, after which the queue is drained. -/
def drift : List Action := List.replicate 25 .putOther ++
    [.readRd, .readWr, .send, .count, .readRd, .readWr, .send, .count] ++ List.replicate 25 .pop

/-- **The counters drift.**  Two sends that fail because the queue is full are counted
all the same: once the queue is drained no tick is pending, the counters differ by
two, and no tick is ever let through again. -/
theorem drift_stops_ticks :
    ∃ s, Runs (step 25) AnyStep init drift s ∧ s.source = .idle ∧ pending s = 0 ∧
      ¬ Accounted s ∧ ¬ LetsThrough 25 s := by
  let s : TickState := ⟨2, 0, [], .idle, false⟩
  refine ⟨s, runs_of_exec (by decide), rfl, by decide, by decide, ?_⟩
  rintro ⟨s', h, hs⟩
  have : exec (step 25) s [.readRd, .readWr] = some s := by decide
  rw [this] at h
  cases h
  simp [s] at hs

end Protoc.Samgr.TimerTick

namespace Protoc.Samgr.TimerTick

/-! ## Flow control of the tick source -/

open Protoc.Lib

/-- The comparison with the copy of `tickCntRd`, if it comes, is not one across the wrap with the
counters two apart. -/
def Source.WellMeasured (tick_cnt_wr : UInt8) : Source → Prop
  | .readRd tick_cnt_rd => ¬ (tick_cnt_wr < tick_cnt_rd ∧ tick_cnt_wr - tick_cnt_rd = 2)
  | .idle | .send | .count => True

instance (tick_cnt_wr : UInt8) : (source : Source) → Decidable (source.WellMeasured tick_cnt_wr)
  | .readRd tick_cnt_rd => inferInstanceAs
      (Decidable (¬ (tick_cnt_wr < tick_cnt_rd ∧ tick_cnt_wr - tick_cnt_rd = 2)))
  | .idle | .send | .count => inferInstanceAs (Decidable True)

/-- The counters are not two apart across the wrap when a call compares them. -/
def WellMeasured (s : TickState) (a : Action) : Prop :=
  a = .readWr → s.source.WellMeasured s.tickCntWr

instance (s : TickState) (a : Action) : Decidable (WellMeasured s a) :=
  inferInstanceAs (Decidable (_ → _))

theorem dist_le_one {wr rd : UInt8} (h : tickCntDiff wr rd < 2) (hwell : ¬ (wr < rd ∧ wr - rd = 2)) :
    (wr - rd).toNat ≤ 1 := by
  have htwo := dist_le_of_diff_lt h
  rw [tickCntDiff] at h
  by_cases hle : rd ≤ wr
  · rw [if_pos hle] at h
    have hlt := UInt8.lt_iff_toNat_lt.mp h
    simp only [UInt8.reduceToNat] at hlt
    omega
  · have hwrap : wr < rd := UInt8.not_le.mp hle
    have hne : (wr - rd).toNat ≠ 2 := by
      intro heq
      exact hwell ⟨hwrap, UInt8.toNat_inj.mp heq⟩
    omega

/-! ## The bound -/

/-- At most two ticks are pending, and one when another is about to be sent. -/
structure Few (s : TickState) : Prop where
  pending_le : pending s ≤ 2
  room : s.source = .send → pending s ≤ 1

variable {a : Action} {s s' : TickState}

theorem pending_step_le {cap : ℕ} (h : step cap s a = some s') (ha : a ≠ .send) : pending s' ≤ pending s := by
  cases a with
  | readRd =>
    cases hs : s.source <;> simp [step, hs] at h
    subst h
    exact Nat.le_refl _
  | readWr =>
    cases hs : s.source <;> simp [step, hs] at h
    subst h
    exact Nat.le_refl _
  | send => exact absurd rfl ha
  | count =>
    cases hs : s.source <;> simp [step, hs] at h
    subst h
    exact Nat.le_refl _
  | putOther =>
    obtain rfl : { s with queue := queuePut cap s.queue .other } = s' := by simpa [step] using h
    exact Nat.le_of_eq (pending_queuePut_other cap s)
  | pop =>
    cases hh : s.handling <;> cases hq : s.queue <;> simp [step, hh, hq] at h
    rename_i m q
    cases m <;> simp at h <;> subst h <;> simp [pending, hh, hq]
  | fire =>
    cases hh : s.handling <;> simp [step, hh] at h
    subst h
    simp [pending]

theorem source_step {cap : ℕ} (h : step cap s a = some s') (hsend : s'.source = .send) :
    s.source = .send ∨ a = .readWr ∧ ∃ rd, s.source = .readRd rd ∧ tickCntDiff s.tickCntWr rd < 2 := by
  cases a with
  | readRd => cases hs : s.source <;> simp [step, hs] at h; subst h; cases hsend
  | readWr =>
    cases hs : s.source <;> simp [step, hs] at h
    rename_i rd
    subst h
    by_cases hd : tickCntDiff s.tickCntWr rd < 2
    · exact .inr ⟨rfl, rd, rfl, hd⟩
    · simp [hd] at hsend
  | send => cases hs : s.source <;> simp [step, hs] at h; exact .inl rfl
  | count => cases hs : s.source <;> simp [step, hs] at h; subst h; cases hsend
  | putOther =>
    obtain rfl : { s with queue := queuePut cap s.queue .other } = s' := by simpa [step] using h
    exact .inl hsend
  | pop =>
    cases hh : s.handling <;> cases hq : s.queue <;> simp [step, hh, hq] at h
    rename_i m q
    cases m <;> simp at h <;> subst h <;> exact .inl hsend
  | fire =>
    cases hh : s.handling <;> simp [step, hh] at h
    subst h
    exact .inl hsend

theorem few_step {cap : ℕ} (hi : Inv s) (hfew : Few s)
    (hfits : SendsFit cap s a) (hwell : WellMeasured s a) (h : step cap s a = some s') : Few s' := by
  by_cases ha : a = .send
  · subst ha
    cases hs : s.source <;> simp [step, hs] at h
    subst h
    have hp := pending_queuePut_tick (hfits rfl) .count
    have hroom := hfew.room hs
    refine ⟨by omega, ?_⟩
    intro hsend
    cases hsend
  · have hle := pending_step_le h ha
    refine ⟨Nat.le_trans hle hfew.pending_le, fun hsend => ?_⟩
    rcases source_step h hsend with hs | ⟨rfl, rd, hs, hdiff⟩
    · exact Nat.le_trans hle (hfew.room hs)
    · have hmeasured := hwell rfl
      rw [hs] at hmeasured
      have hone := dist_le_one hdiff hmeasured
      -- the copy of `tickCntRd` may be stale, and then it overstates the distance
      exact Nat.le_trans hle (Nat.le_trans (hi.stale rd hs) hone)

/-- **Flow control.**  In every interleaving whose sends succeed, and whose comparisons are well
measured, at most two ticks are queued and unhandled. -/
theorem ticks_bounded {cap : ℕ} {as : List Action} {s : TickState}
    (run : Runs (step cap) (fun s a => SendsFit cap s a ∧ WellMeasured s a) init as s) :
    pending s ≤ 2 := by
  have hboth : Inv s ∧ Few s := by
    refine run.invariant (P := fun s => Inv s ∧ Few s) ?_ ⟨inv_init, by decide, fun hsend => Source.noConfusion hsend⟩
    rintro s a s' ⟨hi, hfew⟩ ⟨hfits, hwell⟩ h
    exact ⟨inv_step cap s a s' hi hfits h, few_step hi hfew hfits hwell h⟩
  exact hboth.2.pending_le

/-- The bound applies to two ticks that are queued one after the other. -/
theorem ticks_bounded_two : ∃ s, Runs (step 25) (fun s a => SendsFit 25 s a ∧ WellMeasured s a) init
      [.readRd, .readWr, .send, .count, .readRd, .readWr, .send, .count] s ∧ pending s ≤ 2 := by
  let s : TickState := ⟨2, 0, [.tick, .tick], .idle, false⟩
  have run : Runs (step 25) (fun s a => SendsFit 25 s a ∧ WellMeasured s a) init
      [.readRd, .readWr, .send, .count, .readRd, .readWr, .send, .count] s :=
    runs_of_execOk (by decide)
  exact ⟨s, run, ticks_bounded run⟩

/-! ## The wrap -/

def cycle : List Action := [.readRd, .readWr, .send, .count, .pop, .fire]

theorem cycle_runs (c : UInt8) : Runs (step 25) (SendsFit 25) ⟨c, c, [], .idle, false⟩ cycle
      ⟨c + 1, c + 1, [], .idle, false⟩ := by
  apply runs_of_execOk
  simp [cycle, execOk, exec, SendsFit, step, queuePut]

theorem cycles_run (n : ℕ) : ∃ as, Runs (step 25) (SendsFit 25) init as
      ⟨UInt8.ofNat n, UInt8.ofNat n, [], .idle, false⟩ := by
  induction n with
  | zero => exact ⟨[], .nil _⟩
  | succ n ih =>
    obtain ⟨as, run⟩ := ih
    have hnext := cycle_runs (UInt8.ofNat n)
    rw [← UInt8.ofNat_one, ← UInt8.ofNat_add] at hnext
    exact ⟨as ++ cycle, run.append hnext⟩

/-- After 254 ticks that were handled, three are let through. -/
theorem not_ticks_bounded : ¬ ∀ (cap : ℕ) (as : List Action) (s : TickState),
    Runs (step cap) (SendsFit cap) init as s → pending s ≤ 2 := by
  intro hall
  obtain ⟨as, run⟩ := cycles_run 254
  have hthree : Runs (step 25) (SendsFit 25) ⟨254, 254, [], .idle, false⟩
      [.readRd, .readWr, .send, .count, .readRd, .readWr, .send, .count, .readRd, .readWr, .send, .count]
      ⟨1, 254, [.tick, .tick, .tick], .idle, false⟩ := runs_of_execOk (by decide)
  have hle := hall 25 _ _ (run.append hthree)
  exact absurd hle (by decide)

end Protoc.Samgr.TimerTick
