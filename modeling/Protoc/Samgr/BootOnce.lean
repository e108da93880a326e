import Protoc.Samgr.Boot

/-!
# How often a service is initialised

A service stays `SVC_INIT` until its own thread has handled the init request, and every
`SAMGR_Bootstrap` in between collects it again.  Each run of `Initialize` is owed to one
call that collected the service: the debt sits in the call's list, then in the queue,
then in the thread that handles the request.
-/

namespace Protoc.Samgr.Boot

open Protoc.Lib
open List Option

/-! ## The counts of a service -/

/-- How often the service at `k` has been initialised. -/
def initializesAt (services : List ServiceImpl) (k : ServiceId) : ℕ :=
  services[k]?.elim 0 ServiceImpl.initializes

/-- How many calls have collected the service at `k`. -/
def collectsAt (services : List ServiceImpl) (k : ServiceId) : ℕ :=
  services[k]?.elim 0 ServiceImpl.collects

variable {services : List ServiceImpl} {k i : ServiceId} {f : ServiceImpl → ServiceImpl}

theorem initializesAt_modify (hf : ∀ a, (f a).initializes = a.initializes) :
    initializesAt (services.modify i f) k = initializesAt services k := by
  simp only [initializesAt, List.getElem?_modify]
  cases services[k]? with
  | none => rfl
  | some a => by_cases h : i = k <;> simp [h, hf]

theorem collectsAt_modify (hf : ∀ a, (f a).collects = a.collects) :
    collectsAt (services.modify i f) k = collectsAt services k := by
  simp only [collectsAt, List.getElem?_modify]
  cases services[k]? with
  | none => rfl
  | some a => by_cases h : i = k <;> simp [h, hf]

theorem initializesAt_onService (hf : ∀ a, (f a).initializes = a.initializes) (o : Option ServiceId) :
    initializesAt (onService services f o) k = initializesAt services k := by
  cases o with
  | none => rfl
  | some i => exact initializesAt_modify hf

theorem collectsAt_onService (hf : ∀ a, (f a).collects = a.collects) (o : Option ServiceId) :
    collectsAt (onService services f o) k = collectsAt services k := by
  cases o with
  | none => rfl
  | some i => exact collectsAt_modify hf

theorem initializesAt_modify_noteInitialize (services : List ServiceImpl) (i k : ServiceId) :
    initializesAt (services.modify i noteInitialize) k ≤
      initializesAt services k + if i = k then 1 else 0 := by
  simp only [initializesAt, List.getElem?_modify]
  cases services[k]? with
  | none => simp
  | some a => by_cases h : i = k <;> simp [h, noteInitialize]

@[simp] theorem collectsAt_modify_noteInitialize :
    collectsAt (services.modify i noteInitialize) k = collectsAt services k :=
  collectsAt_modify fun _ => rfl

@[simp] theorem beginWork_initializes (service : ServiceImpl) :
    (beginWork service).initializes = service.initializes := by
  simp only [beginWork]
  split <;> rfl

@[simp] theorem beginWork_collects (service : ServiceImpl) :
    (beginWork service).collects = service.collects := by
  simp only [beginWork]
  split <;> rfl

@[simp] theorem endWork_initializes (service : ServiceImpl) :
    (endWork service).initializes = service.initializes := by
  simp only [endWork]
  split <;> rfl

@[simp] theorem endWork_collects (service : ServiceImpl) : (endWork service).collects = service.collects := by
  simp only [endWork]
  split <;> rfl

theorem initializesAt_append_newService (isBootstrap : Bool) :
    initializesAt (services ++ [newService isBootstrap]) k = initializesAt services k := by
  simp only [initializesAt, List.getElem?_append]
  by_cases hk : k < services.length
  · simp [hk]
  · rw [if_neg hk, List.getElem?_eq_none (Nat.le_of_not_lt hk)]
    cases k - services.length <;> simp [newService]

theorem collectsAt_append_newService (isBootstrap : Bool) :
    collectsAt (services ++ [newService isBootstrap]) k = collectsAt services k := by
  simp only [collectsAt, List.getElem?_append]
  by_cases hk : k < services.length
  · simp [hk]
  · rw [if_neg hk, List.getElem?_eq_none (Nat.le_of_not_lt hk)]
    cases k - services.length <;> simp [newService]

theorem initializesAt_map_noteCollected :
    initializesAt (services.map noteCollected) k = initializesAt services k := by
  simp only [initializesAt, List.getElem?_map]
  cases services[k]? with
  | none => rfl
  | some a => simp only [map_some, elim_some, noteCollected]; split <;> rfl

theorem count_collect_of_lt {k : ℕ} (start : ℕ) (services : List ServiceImpl) (h : k < start) :
    (collect start services).count k = 0 := by
  induction services generalizing start with
  | nil => rfl
  | cons service rest ih =>
    have hrest := ih (start + 1) (by omega)
    have hne : start ≠ k := by omega
    simp only [collect]
    split
    · rw [count_cons_of_ne hne, hrest]
    · exact hrest

theorem collectsAt_map_noteCollected {k : ℕ} (start : ℕ) (services : List ServiceImpl) :
    collectsAt (services.map noteCollected) k =
      collectsAt services k + (collect start services).count (start + k) := by
  induction services generalizing start k with
  | nil => simp [collectsAt, collect]
  | cons service rest ih =>
    cases k with
    | zero =>
      have hrest : (collect (start + 1) rest).count start = 0 :=
        count_collect_of_lt (start + 1) rest (Nat.lt_succ_self start)
      simp only [collectsAt, map_cons, List.getElem?_cons_zero, elim_some, noteCollected, collect, Nat.add_zero]
      split <;> simp [hrest]
    | succ k =>
      have hrest := ih (k := k) (start + 1)
      have hne : start ≠ start + (k + 1) := by omega
      have hpos : start + 1 + k = start + (k + 1) := by omega
      simp only [collectsAt, map_cons, List.getElem?_cons_succ, collect] at hrest ⊢
      rw [hrest, hpos]
      split
      · rw [count_cons_of_ne hne]
      · rfl

/-! ## The runs that are owed -/

/-- The runs of `Initialize` for the service at `k` that a task still owes. -/
def Task.pending (k : ServiceId) (t : Task) : ℕ :=
  match t.pc with
  | .defaultInitialize service => if service = k then 1 else 0
  | .checkEmpty initServices | .initializeAll initServices => initServices.count k
  | _ => 0

/-- The runs owed for the service at `k`, by the tasks and by the queued requests. -/
def pending (s : BootState) (k : ServiceId) : ℕ :=
  (s.tasks.map (Task.pending k)).sum + s.queue.count (.init k)

/-- Every run of `Initialize`, made or owed, is paid for by a call that collected the
service. -/
def Balanced (s : BootState) : Prop :=
  ∀ k, initializesAt s.services k + pending s k ≤ collectsAt s.services k

theorem balanced_init : Balanced init := by
  intro k
  simp [init, initializesAt, collectsAt, pending]

theorem Balanced.goOn {s s' : BootState} {i : ℕ} {t t' : Task} (h : Balanced s)
    (ht : s.tasks[i]? = some t) (htasks : s'.tasks = s.tasks)
    (hpay : ∀ k, initializesAt s'.services k + t'.pending k + s'.queue.count (.init k) +
        collectsAt s.services k ≤ initializesAt s.services k + t.pending k + s.queue.count (.init k) +
        collectsAt s'.services k) : Balanced (s'.goOn i t') := by
  intro k
  have hk := h k
  have hpay := hpay k
  simp only [pending, BootState.goOn, htasks, Pick.sum_map_set ht] at hk ⊢
  rw [Pick.sum_map_pick ht] at hk
  omega

section
variable (env : Env) (s : BootState)
include env s

theorem addTaskPool_keeps (i : ServiceId) :
    (addTaskPool env s i).tasks = s.tasks ∧ (addTaskPool env s i).queue = s.queue ∧
      (∀ k, initializesAt (addTaskPool env s i).services k = initializesAt s.services k) ∧
      ∀ k, collectsAt (addTaskPool env s i).services k = collectsAt s.services k := by
  refine ⟨rfl, rfl, ?_, ?_⟩
  · intro k
    exact initializesAt_modify fun _ => rfl
  · intro k
    exact collectsAt_modify fun _ => rfl

theorem foldl_addTaskPool_keeps (l : List ServiceId) :
    (l.foldl (addTaskPool env) s).tasks = s.tasks ∧ (l.foldl (addTaskPool env) s).queue = s.queue ∧
      (∀ k, initializesAt (l.foldl (addTaskPool env) s).services k = initializesAt s.services k) ∧
      ∀ k, collectsAt (l.foldl (addTaskPool env) s).services k = collectsAt s.services k := by
  induction l generalizing s with
  | nil => simp
  | cons i l ih =>
    obtain ⟨htasks, hqueue, hinit, hcollect⟩ := ih (addTaskPool env s i)
    obtain ⟨htasks', hqueue', hinit', hcollect'⟩ := addTaskPool_keeps env s i
    refine ⟨htasks.trans htasks', hqueue.trans hqueue', ?_, ?_⟩
    · intro k
      exact (hinit k).trans (hinit' k)
    · intro k
      exact (hcollect k).trans (hcollect' k)

theorem initializeSingleService_pays (i : ServiceId) :
    (initializeSingleService env s i).tasks = s.tasks ∧
      (∀ k, collectsAt (initializeSingleService env s i).services k = collectsAt s.services k) ∧
      ∀ k, initializesAt (initializeSingleService env s i).services k +
          (initializeSingleService env s i).queue.count (.init k) ≤
        initializesAt s.services k + s.queue.count (.init k) + if i = k then 1 else 0 := by
  simp only [initializeSingleService]
  split
  · simp
  · split
    · refine ⟨rfl, fun k => collectsAt_modify_noteInitialize, ?_⟩
      intro k
      have hk := initializesAt_modify_noteInitialize s.services i k
      simp only
      omega
    · split
      · refine ⟨rfl, fun _ => rfl, ?_⟩
        intro k
        simp only [count_append, count_singleton, beq_iff_eq, Msg.init.injEq]
        omega
      · simp

theorem foldl_initializeSingleService_pays (l : List ServiceId) :
    (l.foldl (initializeSingleService env) s).tasks = s.tasks ∧
      (∀ k, collectsAt (l.foldl (initializeSingleService env) s).services k = collectsAt s.services k) ∧
      ∀ k, initializesAt (l.foldl (initializeSingleService env) s).services k +
          (l.foldl (initializeSingleService env) s).queue.count (.init k) ≤
        initializesAt s.services k + s.queue.count (.init k) + l.count k := by
  induction l generalizing s with
  | nil => simp
  | cons i l ih =>
    obtain ⟨htasks, hcollect, hpay⟩ := ih (initializeSingleService env s i)
    obtain ⟨htasks', hcollect', hpay'⟩ := initializeSingleService_pays env s i
    refine ⟨htasks.trans htasks', fun k => (hcollect k).trans (hcollect' k), ?_⟩
    intro k
    have hk := hpay k
    have hk' := hpay' k
    simp only [foldl_cons, count_cons, beq_iff_eq]
    omega

theorem initializeAllServices_pays (l : List ServiceId) :
    (initializeAllServices env s l).tasks = s.tasks ∧
      (∀ k, collectsAt (initializeAllServices env s l).services k = collectsAt s.services k) ∧
      ∀ k, initializesAt (initializeAllServices env s l).services k +
          (initializeAllServices env s l).queue.count (.init k) ≤
        initializesAt s.services k + s.queue.count (.init k) + l.count k := by
  obtain ⟨htasks, hqueue, hinit, hcollect⟩ := foldl_addTaskPool_keeps env s l
  obtain ⟨htasks', hcollect', hpay'⟩ :=
    foldl_initializeSingleService_pays env (l.foldl (addTaskPool env) s) l
  refine ⟨htasks'.trans htasks, fun k => (hcollect' k).trans (hcollect k), ?_⟩
  intro k
  have hk := hpay' k
  rw [hinit k, hqueue] at hk
  exact hk

theorem sendBootRequest_keeps (msgId : BootMsg) :
    (sendBootRequest env s msgId).tasks = s.tasks ∧ (sendBootRequest env s msgId).services = s.services ∧
      ∀ k, (sendBootRequest env s msgId).queue.count (.init k) = s.queue.count (.init k) := by
  simp only [sendBootRequest]
  split
  · split
    · simp [count_append]
    · simp
  · simp

end

/-! ## The steps -/

variable {s : BootState}

theorem registerService_balanced (h : Balanced s) (isBootstrap : Bool) :
    Balanced (registerService s isBootstrap) := by
  simp only [registerService]
  split
  · exact h
  · intro k
    have hk := h k
    simpa [pending, initializesAt_append_newService, collectsAt_append_newService] using hk

theorem takeMsg_balanced (h : Balanced s) {i : ℕ} {msg : Msg}
    (hmsg : s.queue[i]? = some msg) : Balanced (takeMsg s i msg) := by
  intro k
  have hk := h k
  have hcount : s.queue.count (.init k) = (msg :: s.queue.eraseIdx i).count (.init k) :=
    (Pick.perm_of_getElem? hmsg).count_eq _
  cases msg with
  | init service =>
    simp only [count_cons, beq_iff_eq, Msg.init.injEq] at hcount
    simp only [takeMsg, pending, map_append, map_cons, map_nil, sum_append, sum_cons, sum_nil, Task.pending,
      initializesAt_onService beginWork_initializes,
      collectsAt_onService beginWork_collects] at hk ⊢
    omega
  | boot msgId =>
    simp only [count_cons, beq_iff_eq, reduceCtorEq, if_false, Nat.add_zero] at hcount
    simp only [takeMsg, pending, map_append, map_cons, map_nil, sum_append, sum_cons, sum_nil, Task.pending,
      initializesAt_onService beginWork_initializes,
      collectsAt_onService beginWork_collects] at hk ⊢
    omega

/-- Every section of a task keeps the balance. -/
theorem runTask_balanced (h : Balanced s) (env : Env) {i : ℕ} {t : Task}
    (ht : s.tasks[i]? = some t) : Balanced (runTask env s i t) := by
  obtain ⟨pc, service⟩ := t
  cases pc with
  | defaultInitialize service =>
    refine h.goOn ht rfl ?_
    intro k
    have hk := initializesAt_modify_noteInitialize s.services service k
    simp only [Task.pending, collectsAt_modify_noteInitialize]
    omega
  | setIdle service =>
    refine h.goOn ht rfl ?_
    intro k
    rw [initializesAt_modify (by simp), collectsAt_modify (by simp)]
    simp [Task.pending]
  | bootstrap msgId =>
    refine h.goOn ht rfl ?_
    intro k
    have hk := collectsAt_map_noteCollected (k := k) 0 s.services
    rw [Nat.zero_add] at hk
    simp only [Task.pending, initializesAt_map_noteCollected, hk]
    omega
  | checkEmpty initServices =>
    simp only [runTask]
    split
    all_goals
      refine h.goOn ht rfl ?_
      intro k
      simp [Task.pending, Task.return]
  | initializeAll initServices =>
    obtain ⟨htasks, hcollect, hpay⟩ := initializeAllServices_pays env s initServices
    refine h.goOn ht htasks ?_
    intro k
    have hk := hpay k
    simp only [Task.pending, hcollect k]
    omega
  | getUninitializedPos =>
    refine h.goOn ht rfl ?_
    intro k
    simp [Task.pending]
  | compareSize pos =>
    simp only [runTask]
    split
    all_goals
      refine h.goOn ht rfl ?_
      intro k
      simp [Task.pending, Task.return]
  | advance =>
    simp only [runTask]
    split
    all_goals
      refine h.goOn ht rfl ?_
      intro k
      simp [Task.pending, Task.return]
  | send msgId =>
    obtain ⟨htasks, hservices, hqueue⟩ := sendBootRequest_keeps env s msgId
    refine h.goOn ht htasks ?_
    intro k
    simp [Task.pending, Task.return, hservices, hqueue k]
  | endWork =>
    intro k
    have hk := h k
    simp only [pending, Pick.sum_map_pick ht, Task.pending] at hk
    simp only [runTask, pending, initializesAt_onService endWork_initializes,
      collectsAt_onService endWork_collects]
    omega

theorem step_balanced {s s' : BootState} {a : Action} (h : Balanced s)
    (hstep : step s a = some s') : Balanced s' := by
  cases a with
  | register isBootstrap =>
    cases hstep
    exact registerService_balanced h isBootstrap
  | call =>
    cases hstep
    intro k
    have hk := h k
    simpa [pending, Task.pending] using hk
  | take i =>
    simp only [step, bind_eq_bind, bind_eq_some_iff] at hstep
    obtain ⟨msg, hmsg, hs⟩ := hstep
    cases hs
    exact takeMsg_balanced h hmsg
  | run i env =>
    simp only [step, bind_eq_bind, bind_eq_some_iff] at hstep
    obtain ⟨t, ht, hs⟩ := hstep
    cases hs
    exact runTask_balanced h env ht

/-! ## Whole runs -/

theorem run_balanced {as : List Action} (run : Runs step AnyStep init as s) : Balanced s :=
  run.invariant_of_step (fun _ _ _ h hstep => step_balanced h hstep) balanced_init

/-- **Initialisation.**  In every interleaving, the `Initialize` of a service has run at
most as often as calls of `SAMGR_Bootstrap` have collected the service. -/
theorem initializes_le_collects {as : List Action} {s : BootState}
    (run : Runs step AnyStep init as s) :
    ∀ service ∈ s.services, service.initializes ≤ service.collects := by
  intro service hmem
  obtain ⟨k, hk⟩ := mem_iff_getElem?.mp hmem
  have hbalanced := run_balanced run k
  simp only [initializesAt, collectsAt, hk, elim_some] at hbalanced
  omega

/-- A call of `SAMGR_Bootstrap` up to its `InitializeAllServices`. -/
def callUpToInit (i : ℕ) : List Action := .call :: sections i 3

/-- A service is registered and two calls collect it; its thread then takes the first
request, and the second. -/
def twoCalls : List Action :=
  .register false :: callUpToInit 0 ++ callUpToInit 1 ++ .take 0 :: sections 2 1 ++
    .take 0 :: sections 3 1

theorem initializes_le_collects_twoCalls : ∃ s, exec step init twoCalls = some s ∧
      ∀ service ∈ s.services, service.initializes ≤ service.collects := by
  refine ⟨_, rfl, ?_⟩
  have run : Runs step AnyStep init twoCalls _ := runs_of_exec rfl
  exact initializes_le_collects run

/-- The `Initialize` of one service can run twice. -/
theorem initialized_twice :
    ¬ ∀ as s, Runs step AnyStep init as s → ∀ service ∈ s.services, service.initializes ≤ 1 := by
  intro h
  have hrun := h twoCalls _ (runs_of_exec rfl)
  have htwo := hrun ⟨false, true, .SVC_INIT, 2, 2⟩ (by decide)
  exact absurd htwo (by decide)

end Protoc.Samgr.Boot
