import Protoc.Samgr.Boot

/-!
# The order of the boot requests

`InitCompleted` looks for uninitialised services under one lock and moves the boot
status on under a second one.  A task between the two is stale: what it has seen may no
longer hold.  When `SAMGR_Bootstrap` moves the status from `BOOT_APP` to
`BOOT_APP_WAIT`, a stale task takes the services collected there for initialised and
sends `BOOT_APP_COMPLETED`.

In the runs where no call meets that case the requests are sent in order, each at most
once, and `BOOT_APP_COMPLETED` when the services registered before the call for
`BOOT_SYS_COMPLETED` are initialised.
-/

namespace Protoc.Samgr.Boot

open Protoc.Lib
open List BootState

/-! ## Services that stay initialised -/

/-- Every service initialised before is initialised after. -/
def Later (services services' : List ServiceImpl) : Prop :=
  ∀ (k : ℕ) (a : ServiceImpl), services[k]? = some a →
    ∃ b : ServiceImpl, services'[k]? = some b ∧ (a.inited ≠ .SVC_INIT → b.inited ≠ .SVC_INIT)

namespace Later
variable {services services' services'' : List ServiceImpl}

theorem refl (services : List ServiceImpl) : Later services services := by
  intro k a ha
  exact ⟨a, ha, id⟩

theorem trans (h : Later services services') (h' : Later services' services'') : Later services services'' := by
  intro k a ha
  obtain ⟨b, hb, hab⟩ := h k a ha
  obtain ⟨c, hc, hbc⟩ := h' k b hb
  exact ⟨c, hc, hbc ∘ hab⟩

variable {f : ServiceImpl → ServiceImpl}

section
variable (hf : ∀ a, a.inited ≠ .SVC_INIT → (f a).inited ≠ .SVC_INIT)
include hf

theorem modify (i : ServiceId) : Later services (services.modify i f) := by
  intro k a ha
  rw [List.getElem?_modify, ha]
  by_cases h : i = k
  · exact ⟨f a, by simp [h], hf a⟩
  · exact ⟨a, by simp [h], id⟩

theorem onService (o : Option ServiceId) : Later services (onService services f o) := by
  cases o with
  | none => exact refl services
  | some i => exact modify hf i

theorem map : Later services (services.map f) := by
  intro k a ha
  exact ⟨f a, by simp [ha], hf a⟩

end

theorem append (services more : List ServiceImpl) : Later services (services ++ more) := by
  intro k a ha
  obtain ⟨hk, -⟩ := List.getElem?_eq_some_iff.mp ha
  exact ⟨a, by rw [List.getElem?_append_left hk, ha], id⟩

theorem length_le (h : Later services services') : services.length ≤ services'.length := by
  by_contra hlt
  have hk : services'.length < services.length := Nat.lt_of_not_le hlt
  obtain ⟨b, hb, -⟩ := h services'.length services[services'.length] (by simp [hk])
  simp at hb

theorem allInitialised_take (h : Later services services') {n : ℕ} (hn : n ≤ services.length)
    (hall : allInitialised (services.take n) = true) : allInitialised (services'.take n) = true := by
  simp only [allInitialised, all_eq_true, decide_eq_true_eq] at hall ⊢
  intro b hb
  obtain ⟨k, hk⟩ := mem_iff_getElem?.mp hb
  have hkn : k < n := by
    obtain ⟨hlt, -⟩ := List.getElem?_eq_some_iff.mp hk
    rw [length_take] at hlt
    omega
  have hks : k < services.length := by omega
  obtain ⟨b', hb', hinited⟩ := h k services[k] (by simp [hks])
  rw [List.getElem?_take_of_lt hkn, hb'] at hk
  cases hk
  apply hinited
  apply hall
  exact mem_iff_getElem?.mpr ⟨k, by rw [List.getElem?_take_of_lt hkn]; simp [hks]⟩

end Later

variable {a : ServiceImpl}

theorem beginWork_inited (h : a.inited ≠ .SVC_INIT) : (beginWork a).inited ≠ .SVC_INIT := by
  simp only [beginWork]
  split
  · exact h
  · simp

theorem endWork_inited (h : a.inited ≠ .SVC_INIT) : (endWork a).inited ≠ .SVC_INIT := by
  simp only [endWork]
  split
  · exact h
  · simp

theorem noteCollected_inited (h : a.inited ≠ .SVC_INIT) : (noteCollected a).inited ≠ .SVC_INIT := by
  simp [noteCollected, h]

theorem allInitialised_of_getUninitializedPos (services : List ServiceImpl)
    (h : services.length ≤ getUninitializedPos services) : allInitialised services = true := by
  induction services with
  | nil => rfl
  | cons service rest ih =>
    simp only [getUninitializedPos, length_cons] at h
    split at h
    · omega
    · next hinited =>
      have hrest : allInitialised rest = true := ih (by omega)
      simp only [allInitialised, all_cons, Bool.and_eq_true, decide_eq_true_eq] at hrest ⊢
      exact ⟨hinited, hrest⟩

theorem allInitialised_take {services : List ServiceImpl} (n : ℕ)
    (h : allInitialised services = true) : allInitialised (services.take n) = true := by
  simp only [allInitialised, all_eq_true] at h ⊢
  intro service hmem
  exact h service (mem_of_mem_take hmem)

/-! ## The requests under way -/

/-- The phases of the boot, each with its waiting status, apart from the one between
`BOOT_APP` and `BOOT_APP_WAIT`. -/
def BootStatus.phase : BootStatus → ℕ
  | .BOOT_SYS | .BOOT_SYS_WAIT => 0
  | .BOOT_APP => 1
  | .BOOT_APP_WAIT => 2
  | .BOOT_DYNAMIC | .BOOT_DYNAMIC_WAIT => 3

def Task.owes (msgId : BootMsg) (t : Task) : Bool := decide (t.pc = .send msgId)

/-- The task is about to enter `SAMGR_Bootstrap` for the request. -/
def Task.calls (msgId : BootMsg) (t : Task) : Bool := decide (t.pc = .bootstrap (some msgId))

/-- The task has found every service of the registry initialised, and has not moved the
status on yet. -/
def Task.stale (size : ℕ) (t : Task) : Bool :=
  match t.pc with
  | .compareSize pos => decide (size ≤ pos)
  | .advance => true
  | _ => false

theorem Task.stale_mono {size size' : ℕ} (h : size ≤ size') {t : Task}
    (ht : t.stale size' = true) : t.stale size = true := by
  obtain ⟨pc, service⟩ := t
  cases pc <;> simp only [Task.stale, decide_eq_true_eq] at ht ⊢
  all_goals first | exact ht | omega

def owed (msgId : BootMsg) (s : BootState) : ℕ := s.tasks.countP (Task.owes msgId)

/-- The requests queued, or received and not yet answered by the call. -/
def delivered (msgId : BootMsg) (s : BootState) : ℕ :=
  s.queue.count (.boot msgId) + s.tasks.countP (Task.calls msgId)

def sentOf (msgId : BootMsg) (s : BootState) : ℕ :=
  s.sent.countP fun e => decide (e.msgId = msgId)

def someStale (s : BootState) : Bool := s.tasks.any (Task.stale s.services.length)

/-- Whenever `BOOT_APP_COMPLETED` was sent the services were initialised, and
`BOOT_SYS_COMPLETED` had been sent. -/
def SentOk (sent : List Sent) : Prop :=
  ∀ newer e older, sent = newer ++ e :: older → e.msgId = .BOOT_APP_COMPLETED →
    e.initialised = true ∧ ∃ e' ∈ older, e'.msgId = .BOOT_SYS_COMPLETED

theorem SentOk.cons {sent : List Sent} (h : SentOk sent) {e : Sent} (he : e.msgId = .BOOT_APP_COMPLETED →
      e.initialised = true ∧ ∃ e' ∈ sent, e'.msgId = .BOOT_SYS_COMPLETED) : SentOk (e :: sent) := by
  intro newer e' older heq hmsg
  cases newer with
  | nil =>
    cases heq
    exact he hmsg
  | cons x newer =>
    obtain ⟨-, hsent⟩ := List.cons.inj heq
    exact h newer e' older hsent hmsg

/-- **The invariant.**  Where the boot stands, and which requests are on their way. -/
structure Ordered (s : BootState) : Prop where
  sysOnce : owed .BOOT_SYS_COMPLETED s + sentOf .BOOT_SYS_COMPLETED s ≤ 1
  sysDelivered : delivered .BOOT_SYS_COMPLETED s ≤ sentOf .BOOT_SYS_COMPLETED s
  beforeSys : s.status.phase = 0 → owed .BOOT_SYS_COMPLETED s + sentOf .BOOT_SYS_COMPLETED s = 0
  afterCall : 2 ≤ s.status.phase →
    sentOf .BOOT_SYS_COMPLETED s = 1 ∧ delivered .BOOT_SYS_COMPLETED s = 0 ∧
      ∃ n ≤ s.services.length, s.sysServices = some n
  appOnce : owed .BOOT_APP_COMPLETED s + sentOf .BOOT_APP_COMPLETED s ≤ 1
  beforeApp : s.status.phase < 3 → owed .BOOT_APP_COMPLETED s + sentOf .BOOT_APP_COMPLETED s = 0
  staleReady : s.status.phase = 2 → someStale s = true → sysInitialised s = true
  ready : s.status.phase = 3 → sysInitialised s = true
  sent : SentOk s.sent

theorem ordered_init : Ordered init := by
  constructor <;> simp [init, owed, delivered, sentOf, BootStatus.phase, SentOk]

/-! The counts of a state whose task `i` goes on as `t'`. -/

section GoOn
variable {s s' : BootState} {i : ℕ} {t : Task} (ht : s.tasks[i]? = some t)
  (htasks : s'.tasks = s.tasks) (t' : Task) (msgId : BootMsg)
include ht htasks

theorem owed_goOn : owed msgId (s'.goOn i t') + (if t.owes msgId then 1 else 0) =
    owed msgId s + if t'.owes msgId then 1 else 0 := by
  simp only [owed, goOn, htasks, Pick.countP_set ht, Pick.countP_pick ht]
  omega

theorem delivered_goOn : delivered msgId (s'.goOn i t') + (if t.calls msgId then 1 else 0) +
      s.queue.count (.boot msgId) =
    delivered msgId s + (if t'.calls msgId then 1 else 0) + s'.queue.count (.boot msgId) := by
  simp only [delivered, goOn, htasks, Pick.countP_set ht, Pick.countP_pick ht]
  omega

theorem someStale_goOn (hle : s.services.length ≤ s'.services.length) (h : someStale (s'.goOn i t') = true) :
    someStale s = true ∨ t'.stale s'.services.length = true := by
  simp only [someStale, goOn, htasks, any_eq_true, Pick.mem_set ht] at h ⊢
  obtain ⟨t'', rfl | hrest, hs⟩ := h
  · exact .inr hs
  · exact .inl ⟨t'', mem_of_mem_eraseIdx hrest, Task.stale_mono hle hs⟩

end GoOn

/-- What a step does that touches neither the phase nor the requests of the order. -/
structure Quiet (s s' : BootState) : Prop where
  phase : s'.status.phase = s.status.phase
  sysServices : s'.sysServices = s.sysServices
  sent : s'.sent = s.sent
  owes : ∀ msgId, msgId ≠ .BOOT_REG_SERVICE → owed msgId s' = owed msgId s
  delivers : ∀ msgId, delivered msgId s' ≤ delivered msgId s
  later : Later s.services s'.services
  stale : someStale s' = true → someStale s = true ∨ allInitialised s'.services = true

theorem sysInitialised_later {s s' : BootState} (hsys : s'.sysServices = s.sysServices)
    (hlater : Later s.services s'.services) {n : ℕ} (hn : s.sysServices = some n)
    (hle : n ≤ s.services.length) (h : sysInitialised s = true) : sysInitialised s' = true := by
  simp only [sysInitialised, hsys, hn, Option.any_some] at h ⊢
  exact hlater.allInitialised_take hle h

/-- The quiet steps keep the order. -/
theorem Ordered.of_quiet {s s' : BootState} (h : Ordered s) (q : Quiet s s') : Ordered s' := by
  have hsent : ∀ msgId, sentOf msgId s' = sentOf msgId s := by
    intro msgId
    simp only [sentOf, q.sent]
  have hsys := q.owes .BOOT_SYS_COMPLETED (by decide)
  have happ := q.owes .BOOT_APP_COMPLETED (by decide)
  have hdelivered := q.delivers .BOOT_SYS_COMPLETED
  have hlen := q.later.length_le
  have hkeep : 2 ≤ s.status.phase → sysInitialised s = true → sysInitialised s' = true := by
    intro hphase
    obtain ⟨-, -, n, hle, hn⟩ := h.afterCall hphase
    exact sysInitialised_later q.sysServices q.later hn hle
  constructor
  · rw [hsys, hsent]
    exact h.sysOnce
  · rw [hsent]
    exact Nat.le_trans hdelivered h.sysDelivered
  · rw [hsys, hsent, q.phase]
    exact h.beforeSys
  · rw [hsent, q.phase, q.sysServices]
    intro hphase
    obtain ⟨hone, hzero, n, hle, hn⟩ := h.afterCall hphase
    exact ⟨hone, by omega, n, Nat.le_trans hle hlen, hn⟩
  · rw [happ, hsent]
    exact h.appOnce
  · rw [happ, hsent, q.phase]
    exact h.beforeApp
  · rw [q.phase]
    intro hphase hstale
    rcases q.stale hstale with hs | hall
    · exact hkeep (by omega) (h.staleReady hphase hs)
    · obtain ⟨-, -, n, -, hn⟩ := h.afterCall (by omega)
      simp only [sysInitialised, q.sysServices, hn, Option.any_some]
      exact allInitialised_take n hall
  · rw [q.phase]
    intro hphase
    exact hkeep (by omega) (h.ready hphase)
  · rw [q.sent]
    exact h.sent

/-! ## The steps -/

theorem Quiet.goOn {s s' : BootState} {i : ℕ} {t t' : Task} (ht : s.tasks[i]? = some t)
    (htasks : s'.tasks = s.tasks) (hphase : s'.status.phase = s.status.phase)
    (hsys : s'.sysServices = s.sysServices) (hsent : s'.sent = s.sent)
    (hqueue : ∀ msgId, s'.queue.count (.boot msgId) = s.queue.count (.boot msgId))
    (howes : ∀ msgId, msgId ≠ .BOOT_REG_SERVICE → t'.owes msgId = t.owes msgId)
    (hcalls : ∀ msgId, t'.calls msgId = false) (hlater : Later s.services s'.services)
    (hstale : t'.stale s'.services.length = true →
      t.stale s.services.length = true ∨ allInitialised s'.services = true) : Quiet s (s'.goOn i t') := by
  constructor
  · exact hphase
  · exact hsys
  · exact hsent
  · intro msgId hne
    have hcount := owed_goOn ht htasks t' msgId
    rw [howes msgId hne] at hcount
    omega
  · intro msgId
    have hcount := delivered_goOn ht htasks t' msgId
    rw [hqueue msgId, hcalls msgId] at hcount
    simp only [Bool.false_eq_true, if_false] at hcount
    omega
  · exact hlater
  · intro h
    rcases someStale_goOn ht htasks t' hlater.length_le h with hold | hnew
    · exact .inl hold
    · rcases hstale hnew with hold | hall
      · simp only [someStale, any_eq_true]
        exact .inl ⟨t, mem_of_getElem? ht, hold⟩
      · exact .inr hall

theorem registerService_quiet (s : BootState) (isBootstrap : Bool) :
    Quiet s (registerService s isBootstrap) := by
  have hlater : Later s.services (registerService s isBootstrap).services := by
    simp only [registerService]
    split
    · exact .refl s.services
    · exact .append s.services _
  have hrest : (registerService s isBootstrap).status = s.status ∧
      (registerService s isBootstrap).sysServices = s.sysServices ∧
      (registerService s isBootstrap).sent = s.sent ∧
      (registerService s isBootstrap).tasks = s.tasks ∧
      (registerService s isBootstrap).queue = s.queue := by
    simp only [registerService]
    split <;> simp
  obtain ⟨hstatus, hsys, hsent, htasks, hqueue⟩ := hrest
  constructor
  · rw [hstatus]
  · exact hsys
  · exact hsent
  · intro msgId _
    rw [owed, owed, htasks]
  · intro msgId
    refine Nat.le_of_eq ?_
    rw [delivered, delivered, htasks, hqueue]
  · exact hlater
  · intro h
    simp only [someStale, htasks, any_eq_true] at h ⊢
    obtain ⟨t, ht, hs⟩ := h
    exact .inl ⟨t, ht, Task.stale_mono hlater.length_le hs⟩

theorem Quiet.newTask {s s' : BootState} {t : Task} (htasks : s'.tasks = s.tasks ++ [t])
    (hstatus : s'.status = s.status) (hsys : s'.sysServices = s.sysServices)
    (hsent : s'.sent = s.sent) (howes : ∀ msgId, t.owes msgId = false)
    (hdelivered : ∀ msgId, s'.queue.count (.boot msgId) + (if t.calls msgId then 1 else 0) ≤
      s.queue.count (.boot msgId))
    (hlater : Later s.services s'.services) (hstale : ∀ size, t.stale size = false) :
    Quiet s s' := by
  constructor
  · rw [hstatus]
  · exact hsys
  · exact hsent
  · intro msgId _
    simp [owed, htasks, countP_append, howes]
  · intro msgId
    have hd := hdelivered msgId
    simp only [delivered, htasks, countP_append, countP_cons, countP_nil]
    omega
  · exact hlater
  · intro h
    simp only [someStale, htasks, any_append, any_cons, any_nil, hstale, Bool.or_false] at h
    simp only [any_eq_true] at h
    obtain ⟨t', ht', hs⟩ := h
    simp only [someStale, any_eq_true]
    exact .inl ⟨t', ht', Task.stale_mono hlater.length_le hs⟩

theorem call_quiet (s : BootState) :
    Quiet s { s with tasks := s.tasks ++ [(⟨.bootstrap none, none⟩ : Task)] } := by
  apply Quiet.newTask (t := ⟨.bootstrap none, none⟩) <;> simp [Task.owes, Task.calls, Task.stale]
  exact .refl s.services

theorem takeMsg_quiet {s : BootState} {i : ℕ} {msg : Msg} (hmsg : s.queue[i]? = some msg) :
    Quiet s (takeMsg s i msg) := by
  have hcount : ∀ msgId, s.queue.count (.boot msgId) =
      (msg :: s.queue.eraseIdx i).count (.boot msgId) := by
    intro msgId
    exact (Pick.perm_of_getElem? hmsg).count_eq _
  refine Quiet.newTask rfl rfl rfl rfl ?_ ?_ (.onService (fun _ => beginWork_inited) _) ?_
  · intro msgId
    cases msg <;> rfl
  · intro msgId
    rw [hcount msgId]
    cases msg with
    | init service => simp [takeMsg, Task.calls]
    | boot msgId' =>
      simp only [takeMsg, Task.calls, count_cons, beq_iff_eq, Msg.boot.injEq,
        Pc.bootstrap.injEq, Option.some.injEq, decide_eq_true_eq]
      omega
  · intro size
    cases msg <;> rfl

/-- What `InitializeAllServices` leaves alone. -/
structure Frame (s s' : BootState) : Prop where
  status : s'.status = s.status
  sysServices : s'.sysServices = s.sysServices
  sent : s'.sent = s.sent
  tasks : s'.tasks = s.tasks
  queue : ∀ msgId, s'.queue.count (.boot msgId) = s.queue.count (.boot msgId)
  later : Later s.services s'.services

namespace Frame
variable {s s' s'' : BootState}

theorem refl (s : BootState) : Frame s s := ⟨rfl, rfl, rfl, rfl, fun _ => rfl, .refl s.services⟩

theorem trans (h : Frame s s') (h' : Frame s' s'') : Frame s s'' where
  status := h'.status.trans h.status
  sysServices := h'.sysServices.trans h.sysServices
  sent := h'.sent.trans h.sent
  tasks := h'.tasks.trans h.tasks
  queue msgId := (h'.queue msgId).trans (h.queue msgId)
  later := h.later.trans h'.later

theorem foldl {f : BootState → ServiceId → BootState} (hf : ∀ s i, Frame s (f s i))
    (s : BootState) (l : List ServiceId) : Frame s (l.foldl f s) := by
  induction l generalizing s with
  | nil => exact .refl s
  | cons i l ih => exact (hf s i).trans (ih (f s i))

theorem addTaskPool (env : Env) (s : BootState) (i : ServiceId) : Frame s (addTaskPool env s i) :=
  ⟨rfl, rfl, rfl, rfl, fun _ => rfl, .modify (f := fun service =>
    { service with taskPool := service.taskPool || env.pool i }) (fun _ h => h) i⟩

theorem initializeSingleService (env : Env) (s : BootState) (i : ServiceId) :
    Frame s (initializeSingleService env s i) := by
  simp only [Boot.initializeSingleService]
  split
  · exact .refl s
  · split
    · exact ⟨rfl, rfl, rfl, rfl, fun _ => rfl, .modify (f := noteInitialize) (fun _ h => h) i⟩
    · split
      · exact ⟨rfl, rfl, rfl, rfl, fun _ => by simp, .refl s.services⟩
      · exact .refl s

theorem initializeAllServices (env : Env) (s : BootState) (l : List ServiceId) :
    Frame s (initializeAllServices env s l) :=
  (foldl (addTaskPool env) s l).trans (foldl (initializeSingleService env) _ l)

theorem goOn (h : Frame s s') {i : ℕ} {t t' : Task} (ht : s.tasks[i]? = some t)
    (howes : ∀ msgId, t'.owes msgId = t.owes msgId) (hcalls : ∀ msgId, t'.calls msgId = false)
    (hstale : t'.stale s'.services.length = true →
      t.stale s.services.length = true ∨ allInitialised s'.services = true) : Quiet s (s'.goOn i t') :=
  Quiet.goOn ht h.tasks (by rw [h.status]) h.sysServices h.sent h.queue
    (fun msgId _ => howes msgId) hcalls h.later hstale

theorem goOn_fresh (h : Frame s s') {i : ℕ} {t t' : Task} (ht : s.tasks[i]? = some t)
    (howes : ∀ msgId, t'.owes msgId = t.owes msgId) (hcalls : ∀ msgId, t'.calls msgId = false)
    (hfresh : t'.stale s'.services.length = false) : Quiet s (s'.goOn i t') :=
  h.goOn ht howes hcalls fun hs => absurd (hs.symm.trans hfresh) (by decide)

theorem services (s : BootState) {services : List ServiceImpl} (h : Later s.services services) :
    Frame s { s with services } :=
  ⟨rfl, rfl, rfl, rfl, fun _ => rfl, h⟩

end Frame

variable {service : Option ServiceId}

theorem endWork_quiet {s : BootState} {i : ℕ} (ht : s.tasks[i]? = some ⟨.endWork, service⟩) :
    Quiet s { s with
      services := onService s.services endWork service
      tasks := s.tasks.eraseIdx i } := by
  have hlater : Later s.services (onService s.services endWork service) :=
    .onService (fun _ => endWork_inited) service
  constructor
  · rfl
  · rfl
  · rfl
  · intro msgId _
    simp [owed, Pick.countP_pick ht, Task.owes]
  · intro msgId
    simp [delivered, Pick.countP_pick ht, Task.calls]
  · exact hlater
  · intro h
    simp only [someStale, any_eq_true] at h ⊢
    obtain ⟨t, hmem, hs⟩ := h
    exact .inl ⟨t, mem_of_mem_eraseIdx hmem, Task.stale_mono hlater.length_le hs⟩

/-- Once the call for `BOOT_SYS_COMPLETED` was made, and before the request is sent, no
task is to make it. -/
theorem Ordered.not_sys_call {s : BootState} (h : Ordered s) (hphase : s.status.phase ≠ 1)
    {i : ℕ} {msgId : Option BootMsg}
    (ht : s.tasks[i]? = some ⟨.bootstrap msgId, service⟩) : msgId ≠ some .BOOT_SYS_COMPLETED := by
  rintro rfl
  have hone : 1 ≤ delivered .BOOT_SYS_COMPLETED s := by
    simp only [delivered, Pick.countP_pick ht, Task.calls, decide_true, if_true]
    omega
  have hle := h.sysDelivered
  have hbefore := h.beforeSys
  have hafter := h.afterCall
  have hsplit : s.status.phase = 0 ∨ 2 ≤ s.status.phase := by omega
  rcases hsplit with h0 | h2
  · have := hbefore h0
    omega
  · have := (hafter h2).2.1
    omega

theorem bootstrap_quiet {s : BootState} (h : Ordered s) (hphase : s.status.phase ≠ 1) {i : ℕ} {msgId : Option BootMsg}
    (ht : s.tasks[i]? = some ⟨.bootstrap msgId, service⟩) (env : Env) :
    Quiet s (runTask env s i ⟨.bootstrap msgId, service⟩) := by
  have hsys : noteSysServices s msgId = s.sysServices := by
    simp [noteSysServices, h.not_sys_call hphase ht]
  have hnext : s.status.toNextStatus.phase = s.status.phase := by
    cases hs : s.status
    all_goals first | rfl | exact absurd (by rw [hs]; rfl) hphase
  refine Quiet.goOn ht rfl hnext hsys rfl (fun _ => rfl) ?_ ?_
    (.map fun _ => noteCollected_inited) ?_
  · intro msgId' _
    rfl
  · intro msgId'
    rfl
  · intro hs
    cases hs

/-- A call of `SAMGR_Bootstrap` with `BOOT_APP` is the one made for `BOOT_SYS_COMPLETED`,
and when it collects a service that is not initialised no task is stale. -/
def appCallOk (s : BootState) : Action → Bool
  | .run i _ =>
    match s.tasks[i]? with
    | some ⟨.bootstrap msgId, _⟩ =>
      !decide (s.status = .BOOT_APP) ||
        (decide (msgId = some .BOOT_SYS_COMPLETED) && (!someStale s || allInitialised s.services))
    | _ => true
  | _ => true

/-- The call for `BOOT_SYS_COMPLETED`: what it collects is still to be initialised, so no
stale task may be left to move the status on. -/
theorem bootstrap_app_ordered {s : BootState} (h : Ordered s) (happ : s.status = .BOOT_APP) {i : ℕ}
    (ht : s.tasks[i]? = some ⟨.bootstrap (some .BOOT_SYS_COMPLETED), service⟩)
    (hready : someStale s = true → allInitialised s.services = true) (env : Env) :
    Ordered (runTask env s i ⟨.bootstrap (some .BOOT_SYS_COMPLETED), service⟩) := by
  have hphase : s.status.phase < 3 := by rw [happ]; decide
  have hnext : s.status.toNextStatus = .BOOT_APP_WAIT := by rw [happ]; rfl
  have hlater : Later s.services (s.services.map noteCollected) :=
    .map fun _ => noteCollected_inited
  have hsysOnce := h.sysOnce
  have hsysDelivered := h.sysDelivered
  have hbeforeApp := h.beforeApp hphase
  simp only [runTask, hnext, noteSysServices, if_true]
  generalize hs' : ({ s with
    status := .BOOT_APP_WAIT
    services := s.services.map noteCollected
    sysServices := some s.services.length } : BootState) = s'
  have htasks : s'.tasks = s.tasks := by rw [← hs']
  have hqueue : s'.queue = s.queue := by rw [← hs']
  have hservices : s'.services = s.services.map noteCollected := by rw [← hs']
  generalize ht' : (⟨.checkEmpty (collect 0 s.services), service⟩ : Task) = t'
  have hsent : ∀ msgId, sentOf msgId (s'.goOn i t') = sentOf msgId s := by
    intro msgId
    rw [← hs']
    rfl
  have hsys := owed_goOn ht htasks t' .BOOT_SYS_COMPLETED
  have happOwed := owed_goOn ht htasks t' .BOOT_APP_COMPLETED
  have hdelivered := delivered_goOn ht htasks t' .BOOT_SYS_COMPLETED
  simp only [← ht', hqueue, Task.owes, Task.calls, reduceCtorEq, decide_false, decide_true,
    Bool.false_eq_true, if_false, if_true, Nat.add_zero] at hsys happOwed hdelivered
  rw [ht'] at hsys happOwed hdelivered
  constructor
  · rw [hsent]
    omega
  · rw [hsent]
    omega
  · intro hzero
    rw [← hs'] at hzero
    cases hzero
  · intro _
    refine ⟨by rw [hsent]; omega, by omega, s.services.length, ?_, ?_⟩
    · simp [goOn, hservices]
    · simp [goOn, ← hs']
  · rw [hsent]
    omega
  · intro _
    rw [hsent]
    omega
  · intro _ hstale
    have hle : s.services.length ≤ s'.services.length := by simp [hservices]
    rcases someStale_goOn ht htasks t' hle hstale with hold | hnew
    · have hall := hlater.allInitialised_take (Nat.le_refl _)
        (allInitialised_take s.services.length (hready hold))
      simpa [sysInitialised, goOn, ← hs'] using hall
    · simp [← ht', Task.stale] at hnew
  · intro hthree
    rw [← hs'] at hthree
    cases hthree
  · rw [← hs']
    exact h.sent

/-- `InitCompleted` moves on from `BOOT_SYS_WAIT`. -/
theorem advance_sys_ordered {s : BootState} (h : Ordered s) (hstatus : s.status = .BOOT_SYS_WAIT)
    {i : ℕ} (ht : s.tasks[i]? = some ⟨.advance, service⟩) :
    Ordered ({ s with status := .BOOT_APP }.goOn i ⟨.send .BOOT_SYS_COMPLETED, service⟩) := by
  have hzero := h.beforeSys (by rw [hstatus]; rfl)
  have hbeforeApp := h.beforeApp (by rw [hstatus]; decide)
  have hsysDelivered := h.sysDelivered
  generalize hs' : ({ s with status := .BOOT_APP } : BootState) = s'
  have htasks : s'.tasks = s.tasks := by rw [← hs']
  have hqueue : s'.queue = s.queue := by rw [← hs']
  have hphase : s'.status.phase = 1 := by rw [← hs']; rfl
  generalize ht' : (⟨.send .BOOT_SYS_COMPLETED, service⟩ : Task) = t'
  have hsent : ∀ msgId, sentOf msgId (s'.goOn i t') = sentOf msgId s := by
    intro msgId
    rw [← hs']
    rfl
  have hsys := owed_goOn ht htasks t' .BOOT_SYS_COMPLETED
  have happOwed := owed_goOn ht htasks t' .BOOT_APP_COMPLETED
  have hdelivered := delivered_goOn ht htasks t' .BOOT_SYS_COMPLETED
  simp only [← ht', hqueue, Task.owes, Task.calls, reduceCtorEq, decide_false, decide_true,
    Pc.send.injEq, Bool.false_eq_true, if_false, if_true, Nat.add_zero] at hsys happOwed hdelivered
  rw [ht'] at hsys happOwed hdelivered
  constructor
  · rw [hsent]
    omega
  · rw [hsent]
    omega
  · intro hp
    rw [goOn, hphase] at hp
    omega
  · intro hp
    rw [goOn, hphase] at hp
    omega
  · rw [hsent]
    omega
  · intro _
    rw [hsent]
    omega
  · intro hp
    rw [goOn, hphase] at hp
    omega
  · intro hp
    rw [goOn, hphase] at hp
    omega
  · rw [← hs']
    exact h.sent

/-- `InitCompleted` moves on from `BOOT_APP_WAIT`: the task was stale, so the services are
initialised. -/
theorem advance_app_ordered {s : BootState} (h : Ordered s) (hstatus : s.status = .BOOT_APP_WAIT)
    {i : ℕ} (ht : s.tasks[i]? = some ⟨.advance, service⟩) :
    Ordered ({ s with status := .BOOT_DYNAMIC }.goOn i ⟨.send .BOOT_APP_COMPLETED, service⟩) := by
  have hafter := h.afterCall (by rw [hstatus]; decide)
  have hbeforeApp := h.beforeApp (by rw [hstatus]; decide)
  have hsysOnce := h.sysOnce
  have hready : sysInitialised s = true := by
    apply h.staleReady (by rw [hstatus]; rfl)
    simp only [someStale, any_eq_true]
    exact ⟨_, mem_of_getElem? ht, rfl⟩
  obtain ⟨hone, hnone, n, hn, hsome⟩ := hafter
  generalize hs' : ({ s with status := .BOOT_DYNAMIC } : BootState) = s'
  have htasks : s'.tasks = s.tasks := by rw [← hs']
  have hqueue : s'.queue = s.queue := by rw [← hs']
  have hphase : s'.status.phase = 3 := by rw [← hs']; rfl
  generalize ht' : (⟨.send .BOOT_APP_COMPLETED, service⟩ : Task) = t'
  have hsent : ∀ msgId, sentOf msgId (s'.goOn i t') = sentOf msgId s := by
    intro msgId
    rw [← hs']
    rfl
  have hsys := owed_goOn ht htasks t' .BOOT_SYS_COMPLETED
  have happOwed := owed_goOn ht htasks t' .BOOT_APP_COMPLETED
  have hdelivered := delivered_goOn ht htasks t' .BOOT_SYS_COMPLETED
  simp only [← ht', hqueue, Task.owes, Task.calls, reduceCtorEq, decide_false, decide_true,
    Pc.send.injEq, Bool.false_eq_true, if_false, if_true, Nat.add_zero] at hsys happOwed hdelivered
  rw [ht'] at hsys happOwed hdelivered
  constructor
  · rw [hsent]
    omega
  · rw [hsent]
    omega
  · intro hp
    rw [goOn, hphase] at hp
    omega
  · intro _
    refine ⟨by rw [hsent]; omega, by omega, n, ?_, ?_⟩
    · rw [← hs']
      exact hn
    · rw [← hs']
      exact hsome
  · rw [hsent]
    omega
  · intro hp
    rw [goOn, hphase] at hp
    omega
  · intro hp
    rw [goOn, hphase] at hp
    omega
  · intro _
    rw [← hs']
    exact hready
  · rw [← hs']
    exact h.sent

theorem sendBootRequest_sent (env : Env) (s : BootState) (msgId : BootMsg) :
    (sendBootRequest env s msgId).status = s.status ∧
      (sendBootRequest env s msgId).services = s.services ∧
      (sendBootRequest env s msgId).sysServices = s.sysServices ∧
      (sendBootRequest env s msgId).tasks = s.tasks ∧
      (sendBootRequest env s msgId).sent = ⟨msgId, sysInitialised s⟩ :: s.sent ∧
      ∀ msgId', (sendBootRequest env s msgId).queue.count (.boot msgId') ≤
        s.queue.count (.boot msgId') + if msgId = msgId' then 1 else 0 := by
  simp only [sendBootRequest]
  split
  · split
    · refine ⟨rfl, rfl, rfl, rfl, rfl, ?_⟩
      intro msgId'
      simp only [count_append, count_singleton, beq_iff_eq, Msg.boot.injEq]
      omega
    · simp
  · simp

theorem BootStatus.phase_le (status : BootStatus) : status.phase ≤ 3 := by
  cases status <;> decide

/-- A request that was owed is sent. -/
theorem send_ordered {s : BootState} (h : Ordered s) {i : ℕ}
    {msgId : BootMsg} (ht : s.tasks[i]? = some ⟨.send msgId, service⟩) (env : Env) :
    Ordered (runTask env s i ⟨.send msgId, service⟩) := by
  obtain ⟨hstatus, hservices, hsysServices, htasks, hsentEq, hqueue⟩ :=
    sendBootRequest_sent env s msgId
  have hsysOnce := h.sysOnce
  have hsysDelivered := h.sysDelivered
  have hbeforeSys := h.beforeSys
  have hafter := h.afterCall
  have happOnce := h.appOnce
  have hbeforeApp := h.beforeApp
  have hphase := s.status.phase_le
  have hlater : Later s.services (sendBootRequest env s msgId).services := by
    rw [hservices]
    exact .refl s.services
  simp only [runTask, Task.return]
  generalize sendBootRequest env s msgId = s' at *
  generalize ht' : (⟨.endWork, service⟩ : Task) = t'
  have hsent : ∀ msgId', sentOf msgId' (s'.goOn i t') =
      sentOf msgId' s + if msgId = msgId' then 1 else 0 := by
    intro msgId'
    simp [sentOf, goOn, hsentEq, countP_cons]
  have howed : ∀ msgId', owed msgId' (s'.goOn i t') + (if msgId = msgId' then 1 else 0) =
      owed msgId' s := by
    intro msgId'
    have hcount := owed_goOn ht htasks t' msgId'
    simpa [← ht', Task.owes] using hcount
  have hdelivered : ∀ msgId', delivered msgId' (s'.goOn i t') ≤
      delivered msgId' s + if msgId = msgId' then 1 else 0 := by
    intro msgId'
    have hcount := delivered_goOn ht htasks t' msgId'
    have hq := hqueue msgId'
    simp only [← ht', Task.calls, reduceCtorEq, decide_false, Bool.false_eq_true, if_false,
      Nat.add_zero] at hcount
    rw [ht'] at hcount
    omega
  have hstatus' : (s'.goOn i t').status = s.status := hstatus
  have hsys := howed .BOOT_SYS_COMPLETED
  have happ := howed .BOOT_APP_COMPLETED
  have hdeliveredSys := hdelivered .BOOT_SYS_COMPLETED
  have hready : sysInitialised s = true → sysInitialised (s'.goOn i t') = true := by
    intro hinit
    simpa [sysInitialised, goOn, hservices, hsysServices] using hinit
  constructor
  · rw [hsent]
    omega
  · rw [hsent]
    omega
  · rw [hstatus', hsent]
    intro hp
    have := hbeforeSys hp
    omega
  · rw [hstatus', hsent]
    intro hp
    obtain ⟨hone, hzero, n, hn, hsome⟩ := hafter hp
    refine ⟨by omega, by omega, n, ?_, ?_⟩
    · simpa [goOn, hservices] using hn
    · simpa [goOn, hsysServices] using hsome
  · rw [hsent]
    omega
  · rw [hstatus', hsent]
    intro hp
    have := hbeforeApp hp
    omega
  · rw [hstatus']
    intro hp hstale
    apply hready
    rcases someStale_goOn ht htasks t' hlater.length_le hstale with hold | hnew
    · exact h.staleReady hp hold
    · simp [← ht', Task.stale] at hnew
  · rw [hstatus']
    intro hp
    exact hready (h.ready hp)
  · simp only [goOn, hsentEq]
    apply h.sent.cons
    intro hmsg
    obtain rfl : msgId = .BOOT_APP_COMPLETED := hmsg
    -- a request that is owed is sent in the last phase
    have hthree : s.status.phase = 3 := by
      by_contra hne
      simp only [if_true] at happ
      omega
    have hpos : 0 < sentOf .BOOT_SYS_COMPLETED s := by omega
    obtain ⟨e', hmem, he'⟩ := List.countP_pos_iff.mp hpos
    exact ⟨h.ready hthree, e', hmem, by simpa using he'⟩

/-- Every section of a task keeps the order when the calls meet the condition. -/
theorem runTask_ordered {s : BootState} (h : Ordered s) {i : ℕ} {t : Task} (env : Env)
    (hok : appCallOk s (.run i env) = true) (ht : s.tasks[i]? = some t) : Ordered (runTask env s i t) := by
  obtain ⟨pc, service⟩ := t
  cases pc with
  | defaultInitialize id =>
    have hframe := Frame.services s (.modify (f := noteInitialize) (fun _ hi => hi) id)
    exact h.of_quiet (hframe.goOn_fresh ht (fun _ => rfl) (fun _ => rfl) rfl)
  | setIdle id =>
    have hframe := Frame.services s (.modify (f := fun impl =>
      { impl with inited := .SVC_IDLE }) (fun _ _ => by simp) id)
    exact h.of_quiet (hframe.goOn_fresh ht (fun _ => rfl) (fun _ => rfl) rfl)
  | bootstrap msgId =>
    by_cases hphase : s.status.phase = 1
    · have happ : s.status = .BOOT_APP := by
        cases hs : s.status <;> simp [hs, BootStatus.phase] at hphase ⊢
      simp only [appCallOk, ht, happ, decide_true, Bool.not_true, Bool.false_or,
        Bool.and_eq_true, decide_eq_true_eq] at hok
      obtain ⟨rfl, hready⟩ := hok
      apply bootstrap_app_ordered h happ ht
      intro hstale
      simpa [hstale] using hready
    · exact h.of_quiet (bootstrap_quiet h hphase ht env)
  | checkEmpty initServices =>
    apply h.of_quiet
    simp only [runTask]
    split
    all_goals exact (Frame.refl s).goOn_fresh ht (fun _ => rfl) (fun _ => rfl) rfl
  | initializeAll initServices =>
    have hframe := Frame.initializeAllServices env s initServices
    exact h.of_quiet (hframe.goOn_fresh ht (fun _ => rfl) (fun _ => rfl) rfl)
  | getUninitializedPos =>
    apply h.of_quiet
    refine Frame.goOn (.refl s) ht (fun _ => rfl) (fun _ => rfl) ?_
    intro hs
    apply Or.inr
    apply allInitialised_of_getUninitializedPos
    simpa [Task.stale] using hs
  | compareSize pos =>
    apply h.of_quiet
    simp only [runTask]
    split
    · exact (Frame.refl s).goOn_fresh ht (fun _ => rfl) (fun _ => rfl) rfl
    · next hpos =>
      refine Frame.goOn (.refl s) ht (fun _ => rfl) (fun _ => rfl) ?_
      intro _
      apply Or.inl
      simpa [Task.stale] using hpos
  | advance =>
    simp only [runTask]
    cases hstatus : s.status with
    | BOOT_SYS_WAIT => exact advance_sys_ordered h hstatus ht
    | BOOT_APP_WAIT => exact advance_app_ordered h hstatus ht
    | BOOT_DYNAMIC_WAIT =>
      apply h.of_quiet
      refine Quiet.goOn ht rfl (by rw [hstatus]; rfl) rfl rfl (fun _ => rfl) ?_
        (fun _ => rfl) (.refl s.services) ?_
      · intro msgId hne
        simp [Task.owes, hne.symm]
      · intro hs
        cases hs
    | BOOT_SYS | BOOT_APP | BOOT_DYNAMIC =>
      exact h.of_quiet ((Frame.refl s).goOn_fresh ht (fun _ => rfl) (fun _ => rfl) rfl)
  | send msgId => exact send_ordered h ht env
  | endWork => exact h.of_quiet (endWork_quiet ht)

theorem step_ordered {s s' : BootState} {a : Action} (h : Ordered s)
    (hok : appCallOk s a = true) (hstep : step s a = some s') : Ordered s' := by
  cases a with
  | register isBootstrap =>
    cases hstep
    exact h.of_quiet (registerService_quiet s isBootstrap)
  | call =>
    cases hstep
    exact h.of_quiet (call_quiet s)
  | take i =>
    simp only [step, Option.bind_eq_bind, Option.bind_eq_some_iff] at hstep
    obtain ⟨msg, hmsg, hs⟩ := hstep
    cases hs
    exact h.of_quiet (takeMsg_quiet hmsg)
  | run i env =>
    simp only [step, Option.bind_eq_bind, Option.bind_eq_some_iff] at hstep
    obtain ⟨t, ht, hs⟩ := hstep
    cases hs
    exact runTask_ordered h env hok ht

/-! ## Whole runs -/

theorem run_ordered {as : List Action} {s : BootState}
    (run : Runs step (fun s a => appCallOk s a = true) init as s) : Ordered s :=
  run.invariant (fun _ _ _ h hok hstep => step_ordered h hok hstep) ordered_init

/-- **The order of the boot requests.**  `BOOT_APP_COMPLETED` is sent when the services
registered before the call for `BOOT_SYS_COMPLETED` are initialised, and after
`BOOT_SYS_COMPLETED`; each of the two is sent at most once. -/
theorem boot_requests_ordered {as : List Action} {s : BootState}
    (run : Runs step (fun s a => appCallOk s a = true) init as s) :
    (∀ newer e older, s.sent = newer ++ e :: older → e.msgId = .BOOT_APP_COMPLETED →
      e.initialised = true ∧ ∃ e' ∈ older, e'.msgId = .BOOT_SYS_COMPLETED) ∧
      sentOf .BOOT_SYS_COMPLETED s ≤ 1 ∧ sentOf .BOOT_APP_COMPLETED s ≤ 1 := by
  have h := run_ordered run
  have hsys := h.sysOnce
  have happ := h.appOnce
  exact ⟨h.sent, by omega, by omega⟩

/-- The bootstrap service and another one are registered and `SAMGR_Bootstrap` is called;
the bootstrap service is initialised, then the other one, which sends
`BOOT_SYS_COMPLETED`; the call made for it initialises a third service, which sends
`BOOT_APP_COMPLETED`. -/
def orderedBoot : List Action :=
  [.register true, .register false, .call] ++ sections 0 6 ++
    .take 0 :: sections 0 5 ++ .take 0 :: sections 0 7 ++
    .take 0 :: .register false :: sections 0 6 ++ .take 0 :: sections 0 6

theorem boot_requests_ordered_orderedBoot :
    ∃ s, execOk step (fun s a => appCallOk s a = true) init orderedBoot = some s ∧
      s.sent.map Sent.msgId = [.BOOT_APP_COMPLETED, .BOOT_SYS_COMPLETED] ∧
      sentOf .BOOT_APP_COMPLETED s ≤ 1 := by
  refine ⟨_, rfl, by decide, ?_⟩
  have run : Runs step (fun s a => appCallOk s a = true) init orderedBoot _ := runs_of_execOk rfl
  exact (boot_requests_ordered run).2.2

/-- The thread of the second service stops after its check; the bootstrap service sends
`BOOT_SYS_COMPLETED`, receives it and collects a third service; the second thread goes
on. -/
def staleBoot : List Action :=
  [.register true, .register false, .call] ++ sections 0 6 ++
    .take 0 :: sections 0 2 ++ .take 0 :: sections 1 4 ++ sections 0 5 ++
    .take 0 :: .register false :: sections 1 1 ++ sections 0 2

/-- `BOOT_APP_COMPLETED` can be sent while a service registered before the call for
`BOOT_SYS_COMPLETED` is `SVC_INIT`. -/
theorem boot_app_completed_early : ¬ ∀ as s, Runs step AnyStep init as s → ∀ e ∈ s.sent,
      e.msgId = .BOOT_APP_COMPLETED → e.initialised = true := by
  intro h
  have hrun := h staleBoot _ (runs_of_exec rfl)
  exact absurd (hrun ⟨.BOOT_APP_COMPLETED, false⟩ (by decide) rfl) (by decide)

end Protoc.Samgr.Boot
