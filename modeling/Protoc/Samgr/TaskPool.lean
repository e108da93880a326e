import Protoc.Samgr.Vector

/-!
# Task pools and their reference counts

A service is given its task pool by `AddTaskPool`: the shared pool of its priority
class, the pool of a service with the same configuration, or a pool of its own.  A
pool counts the pointers to it, those of the services and the one in `sharedPool`,
and is freed when `SAMGR_ReleaseTaskPool` takes the last one.

Pools live in a heap in which a freed pool leaves `none` behind and every pool gets a
new address, so a pointer to a freed pool is one that finds `none`.  Dereferencing
such a pointer has no result in the model (`addTaskPool_isSome`,
`unregisterService_isSome`: it does not happen).

The proof follows one reference at a time: `Accounted s held` says that the counts
are right when `held` is a reference that a local variable has and nobody owns yet.
-/

namespace Protoc.Samgr.Pool

open Protoc.Lib List Option

/-- `MAX_SERVICE_NUM`. -/
def MAX_SERVICE_NUM : ℤ := 0x7FF0
/-- `MAX_POOL_NUM`, the length of `sharedPool`. -/
def MAX_POOL_NUM : ℕ := 8
/-- `PROPERTY_STEP`, the width of a priority class. -/
def PROPERTY_STEP : ℤ := 8
/-- `MAX_REF_NUM`, the most references a pool may have. -/
def MAX_REF_NUM : ℤ := 15
/-- `DEFAULT_SIZE`, the threads of a shared pool. -/
def DEFAULT_SIZE : ℕ := 1
/-- `SINGLE_SIZE`, the threads of a service's own pool. -/
def SINGLE_SIZE : ℕ := 1
/-- `PRI_LOW`, the lowest priority of a service. -/
def PRI_LOW : ℤ := 9
/-- `PRI_BUTT`, the end of the priorities. -/
def PRI_BUTT : ℤ := 39
/-- `LEVEL_HIGH`. -/
def LEVEL_HIGH : ℤ := 0

/-- `TaskType`, the values of `taskFlags` that `AddTaskPool` tells apart. -/
def SHARED_TASK : UInt8 := 0
def SINGLE_TASK : UInt8 := 1
def SPECIFIED_TASK : UInt8 := 2

/-- `TaskConfig`.  The structure is packed, so equal bytes mean equal fields. -/
structure TaskConfig where
  level : ℤ
  priority : ℤ
  stackSize : ℕ
  queueSize : ℕ
  taskFlags : UInt8
  deriving DecidableEq

/-- `DEFAULT_TASK_CFG`. -/
def DEFAULT_TASK_CFG (pos : ℤ) : TaskConfig :=
  ⟨LEVEL_HIGH, pos * PROPERTY_STEP + 1, 0x800 * 2, 25, SHARED_TASK⟩

abbrev PoolPtr := ℕ

/-- `TaskPool`, less the threads that run in it. -/
structure TaskPool where
  queueId : ℕ
  stackSize : ℕ
  priority : ℤ
  size : ℕ
  ref : ℤ
  deriving DecidableEq

/-- `ServiceImpl`, as far as registration and task pools read it. -/
structure ServiceImpl where
  name : String
  /-- `defaultApi != NULL`. -/
  defaultApi : Bool
  taskPool : Option PoolPtr
  /-- `VECTOR_Num(&features)`. -/
  features : ℕ
  serviceId : ℕ
  deriving DecidableEq

/-- `SamgrLiteImpl`, and the heap of task pools. -/
structure SamgrLiteImpl where
  services : Vector ServiceImpl
  sharedPool : List (Option PoolPtr)
  pools : List (Option TaskPool)
  deriving DecidableEq

/-- The registry after `Init`. -/
def init : SamgrLiteImpl := ⟨.make, replicate MAX_POOL_NUM none, []⟩

/-! ## Task pools -/

/-- The pool a pointer points to, unless it has been freed. -/
def SamgrLiteImpl.pool (s : SamgrLiteImpl) (p : PoolPtr) : Option TaskPool := (s.pools[p]?).join

/-- `SAMGR_CreateFixedTaskPool`.  `queue` is the queue it gets, or `none` when the
thread limit is reached, `QUEUE_Create` fails or `MEM_Malloc` fails. -/
def createFixedTaskPool (s : SamgrLiteImpl) (config : TaskConfig) (size : ℕ) (queue : Option ℕ) :
    Option PoolPtr × SamgrLiteImpl :=
  match queue with
  | none => (none, s)
  | some queueId => (some s.pools.length, { s with pools := s.pools ++
          [some ⟨queueId, config.stackSize, config.priority % 256, size, 1⟩] })

/-- `SAMGR_ReferenceTaskPool`: the pointer it returns and the heap after it. -/
def referenceTaskPool (s : SamgrLiteImpl) (pool : Option PoolPtr) : Option (Option PoolPtr × SamgrLiteImpl) :=
  match pool with
  | none => some (none, s)
  | some p => do
      let taskPool ← s.pool p
      if taskPool.ref ≥ MAX_REF_NUM then some (none, s)
      else
        some (some p, { s with pools := s.pools.set p (some { taskPool with ref := taskPool.ref + 1 }) })

/-- `SAMGR_ReleaseTaskPool`. -/
def releaseTaskPool (s : SamgrLiteImpl) (pool : Option PoolPtr) : Option SamgrLiteImpl :=
  match pool with
  | none => some s
  | some p => do
      let taskPool ← s.pool p
      if taskPool.ref - 1 = 0 then some { s with pools := s.pools.set p none }
      else some { s with pools := s.pools.set p (some { taskPool with ref := taskPool.ref - 1 }) }

/-! ## `AddTaskPool` -/

/-- The loop of `GetSpecifiedTaskPool` over the slots of `services`, from the slot at
position `i` on. -/
def specifiedLoop (s : SamgrLiteImpl) (getTaskConfig : ℕ → TaskConfig) (config : TaskConfig) (i : ℕ) :
    List (Option ServiceImpl) → Option (Option PoolPtr × SamgrLiteImpl)
  | [] => some (none, s)
  | none :: rest => specifiedLoop s getTaskConfig config (i + 1) rest
  | some impl :: rest =>
    if getTaskConfig i ≠ config then specifiedLoop s getTaskConfig config (i + 1) rest
    else if impl.taskPool = none then some (none, s)
    else do
      match ← referenceTaskPool s impl.taskPool with
      | (some p, s') => some (some p, s')
      | (none, _) => specifiedLoop s getTaskConfig config (i + 1) rest

/-- `GetSpecifiedTaskPool`.  `getTaskConfig i` is what the service at position `i`
answers to `GetTaskConfig`. -/
def getSpecifiedTaskPool (s : SamgrLiteImpl) (getTaskConfig : ℕ → TaskConfig) (config : TaskConfig) :
    Option (Option PoolPtr × SamgrLiteImpl) :=
  specifiedLoop s getTaskConfig config 0 s.services.data

/-- `service->taskPool = pool` for the service at position `i`. -/
def SamgrLiteImpl.setTaskPool (s : SamgrLiteImpl) (i : ℕ) (impl : ServiceImpl) (pool : Option PoolPtr) : SamgrLiteImpl :=
  { s with services :=
      { s.services with data := s.services.data.set i (some { impl with taskPool := pool }) } }

/-- `samgr->sharedPool[pos] = pool`. -/
def SamgrLiteImpl.setSharedPool (s : SamgrLiteImpl) (pos : ℕ) (pool : Option PoolPtr) : SamgrLiteImpl :=
  { s with sharedPool := s.sharedPool.set pos pool }

/-- The first lines of the `SHARED_TASK` case: the cell of the priority class is filled
if it can be. -/
def ensureSharedPool (s : SamgrLiteImpl) (pos : ℤ) (queue : Option ℕ) : SamgrLiteImpl :=
  if (s.sharedPool[pos.toNat]?).join = none then
    let (pool, s) := createFixedTaskPool s (DEFAULT_TASK_CFG pos) DEFAULT_SIZE queue
    s.setSharedPool pos.toNat pool
  else s

/-- The `SHARED_TASK` case of `AddTaskPool`. -/
def addSharedTaskPool (s : SamgrLiteImpl) (i : ℕ) (impl : ServiceImpl) (cfg : TaskConfig)
    (queue : Option ℕ) : Option SamgrLiteImpl := do
  let pos := cfg.priority / PROPERTY_STEP
  let s := ensureSharedPool s pos queue
  let pool := (s.sharedPool[pos.toNat]?).join
  match ← referenceTaskPool s pool with
  | (some _, s) => some (s.setTaskPool i impl pool)
  -- the reference that `sharedPool` has goes over to the service
  | (none, s) => some ((s.setTaskPool i impl pool).setSharedPool pos.toNat none)

/-- The `SINGLE_TASK` case of `AddTaskPool`. -/
def addSingleTaskPool (s : SamgrLiteImpl) (i : ℕ) (impl : ServiceImpl) (cfg : TaskConfig)
    (queue : Option ℕ) : SamgrLiteImpl :=
  let (pool, s) := createFixedTaskPool s cfg SINGLE_SIZE queue
  s.setTaskPool i impl pool

def TaskConfig.inRange (cfg : TaskConfig) : TaskConfig :=
  if cfg.priority < PRI_LOW ∨ cfg.priority ≥ PRI_BUTT then { cfg with priority := PRI_LOW }
  else cfg

/-- `AddTaskPool` for the service `impl` at position `i`. -/
def addTaskPool (s : SamgrLiteImpl) (i : ℕ) (impl : ServiceImpl) (cfg : TaskConfig)
    (getTaskConfig : ℕ → TaskConfig) (queue : Option ℕ) : Option SamgrLiteImpl :=
  if impl.taskPool ≠ none then some s
  else
    let cfg := cfg.inRange
    if cfg.taskFlags = SHARED_TASK then addSharedTaskPool s i impl cfg queue
    else if cfg.taskFlags = SPECIFIED_TASK then do
      match ← getSpecifiedTaskPool s getTaskConfig cfg with
      | (some p, s) => some (s.setTaskPool i impl (some p))
      | (none, s) => some (addSingleTaskPool s i impl cfg queue)
    else if cfg.taskFlags = SINGLE_TASK then some (addSingleTaskPool s i impl cfg queue)
    else some s

/-! ## Registration -/

/-- `RegisterService` with a valid service of that name.  `newImpl` and `newData` say
whether `SAMGR_CreateServiceImpl` and `VECTOR_Add` get their memory. -/
def registerService (s : SamgrLiteImpl) (name : String) (newImpl newData : Bool) : SamgrLiteImpl :=
  if 0 ≤ s.services.findByKey ServiceImpl.name name then s
  else if s.services.num ≥ MAX_SERVICE_NUM then s
  else if !newImpl then s
  else
    let impl : ServiceImpl := ⟨name, false, none, 0, 0⟩
    match s.services.add (some impl) newData with
    | (some serviceId, services) =>
      { s with services :=
          { services with data := services.data.set serviceId (some { impl with serviceId }) } }
    | (none, services) => { s with services }

/-- `UnregisterService`. -/
def unregisterService (s : SamgrLiteImpl) (name : String) : Option SamgrLiteImpl :=
  let pos := s.services.findByKey ServiceImpl.name name
  match s.services.elemAt pos with
  | none => some s
  | some impl =>
    if impl.defaultApi ∨ impl.features > 0 then some s
    else releaseTaskPool { s with services := (s.services.swap pos none).2 } impl.taskPool

/-- What can be called. -/
inductive Action
  /-- `RegisterService`. -/
  | registerService (name : String) (newImpl newData : Bool)
  /-- `AddTaskPool` for the service at a position. -/
  | addTaskPool (i : ℕ) (cfg : TaskConfig) (getTaskConfig : ℕ → TaskConfig) (queue : Option ℕ)
  /-- `RegisterFeature`, `RegisterFeatureApi` and their reverses give the service at a
  position other interfaces. -/
  | setInterfaces (i : ℕ) (defaultApi : Bool) (features : ℕ)
  /-- `UnregisterService`. -/
  | unregisterService (name : String)

/-- One call.  `AddTaskPool` and the interface calls are given a registered service. -/
def step (s : SamgrLiteImpl) : Action → Option SamgrLiteImpl
  | .registerService name newImpl newData => some (registerService s name newImpl newData)
  | .addTaskPool i cfg getTaskConfig queue => do
      let impl ← (s.services.data[i]?).join
      addTaskPool s i impl cfg getTaskConfig queue
  | .setInterfaces i defaultApi features => do
      let impl ← (s.services.data[i]?).join
      some { s with services :=
        { s.services with
          data := s.services.data.set i (some { impl with defaultApi, features }) } }
  | .unregisterService name => unregisterService s name

/-! ## The count -/

/-- The slot holds a service whose `taskPool` is `p`. -/
def usesPool (p : PoolPtr) : Option ServiceImpl → Bool
  | some impl => impl.taskPool = some p
  | none => false

/-- The number of services whose `taskPool` is `p`. -/
def users (s : SamgrLiteImpl) (p : PoolPtr) : ℕ := s.services.data.countP (usesPool p)

/-- The pool at `p` has not been freed. -/
def Live (s : SamgrLiteImpl) (p : PoolPtr) : Prop := ∃ taskPool, s.pool p = some taskPool

/-- The count in a cell of the heap; a freed pool counts nothing. -/
def cellRef : Option TaskPool → ℤ
  | some taskPool => taskPool.ref
  | none => 0

@[simp] theorem cellRef_some (taskPool : TaskPool) : cellRef (some taskPool) = taskPool.ref := rfl
@[simp] theorem cellRef_none : cellRef none = 0 := rfl

/-- The count of the pool at `p`. -/
def refOf (s : SamgrLiteImpl) (p : PoolPtr) : ℤ := cellRef (s.pool p)

def one (held : Option PoolPtr) (p : PoolPtr) : ℕ := if held = some p then 1 else 0

/-- The counts are right, `held` being a reference that no service and no shared pool
has taken yet. -/
structure Accounted (s : SamgrLiteImpl) (held : Option PoolPtr) : Prop where
  account : ∀ p, refOf s p = users s p + s.sharedPool.count (some p) + one held p
  range : ∀ p taskPool, s.pool p = some taskPool → 1 ≤ taskPool.ref ∧ taskPool.ref ≤ MAX_REF_NUM
  shared_once : ∀ p, s.sharedPool.count (some p) ≤ 1
  shared_length : s.sharedPool.length = MAX_POOL_NUM


/-! ## What the instructions do to the counts -/

theorem users_pools (s : SamgrLiteImpl) (pools : List (Option TaskPool)) (p : PoolPtr) :
    users { s with pools } p = users s p := rfl

variable {p : PoolPtr}

theorem refOf_of_pool {s : SamgrLiteImpl} {taskPool : TaskPool}
    (h : s.pool p = some taskPool) : refOf s p = taskPool.ref := by
  simp [refOf, h]

theorem pool_lt {s : SamgrLiteImpl} {taskPool : TaskPool}
    (h : s.pool p = some taskPool) : p < s.pools.length := by
  by_contra hge
  simp [SamgrLiteImpl.pool, List.getElem?_eq_none (Nat.le_of_not_lt hge)] at h

theorem pool_set {s : SamgrLiteImpl} (h : p < s.pools.length)
    (cell : Option TaskPool) (q : PoolPtr) :
    SamgrLiteImpl.pool { s with pools := s.pools.set p cell } q =
      if p = q then cell else s.pool q := by
  unfold SamgrLiteImpl.pool
  by_cases hq : p = q
  · subst hq
    simp [h]
  · simp [List.getElem?_set_ne hq, hq]

theorem pool_append (s : SamgrLiteImpl) (taskPool : TaskPool) (q : PoolPtr) :
    SamgrLiteImpl.pool { s with pools := s.pools ++ [some taskPool] } q =
      if q = s.pools.length then some taskPool else s.pool q := by
  unfold SamgrLiteImpl.pool
  by_cases hq : q = s.pools.length
  · subst hq
    simp
  · rcases Nat.lt_or_gt_of_ne hq with hlt | hgt
    · simp [List.getElem?_append_left hlt, hq]
    · have hle : (s.pools ++ [some taskPool]).length ≤ q := by simp; omega
      simp [List.getElem?_eq_none hle, List.getElem?_eq_none (Nat.le_of_lt hgt), hq]

namespace Accounted
variable {s : SamgrLiteImpl} {held : Option PoolPtr}

theorem live_of_pos (hi : Accounted s held) {p : PoolPtr}
    (h : 0 < users s p + s.sharedPool.count (some p) + one held p) : Live s p := by
  have hacc := hi.account p
  unfold refOf at hacc
  cases hp : s.pool p with
  | some taskPool => exact ⟨taskPool, hp⟩
  | none =>
    simp only [hp, cellRef_none] at hacc
    omega

theorem fresh (hi : Accounted s held) :
    users s s.pools.length = 0 ∧ s.sharedPool.count (some s.pools.length) = 0 ∧
      one held s.pools.length = 0 := by
  by_contra hne
  obtain ⟨taskPool, hp⟩ := hi.live_of_pos (p := s.pools.length) (by omega)
  exact Nat.lt_irrefl _ (pool_lt hp)

theorem create (hi : Accounted s none) (config : TaskConfig) (size : ℕ) (queue : Option ℕ) :
    Accounted (createFixedTaskPool s config size queue).2 (createFixedTaskPool s config size queue).1 := by
  cases queue with
  | none => exact hi
  | some queueId =>
    obtain ⟨husers, hshared, -⟩ := hi.fresh
    refine ⟨fun p => ?_, fun p taskPool hp => ?_, hi.shared_once, hi.shared_length⟩
    · have hacc := hi.account p
      simp only [createFixedTaskPool, refOf, pool_append, users_pools, one] at hacc ⊢
      by_cases hp : p = s.pools.length
      · subst hp
        simp [husers, hshared]
      · simpa [hp, Ne.symm hp] using hacc
    · simp only [createFixedTaskPool, pool_append] at hp
      by_cases hq : p = s.pools.length
      · simp only [hq, if_true, some.injEq] at hp
        subst hp
        simp [MAX_REF_NUM]
      · simp only [hq, if_false] at hp
        exact hi.range p taskPool hp

variable {held' : Option PoolPtr}

/-- Writing a pool's cell passes the reference on from `held` to `held'` if its count
follows. -/
theorem write (hi : Accounted s held) {p : PoolPtr} {taskPool : TaskPool}
    (hp : s.pool p = some taskPool) {cell : Option TaskPool}
    (hrange : ∀ tp, cell = some tp → 1 ≤ tp.ref ∧ tp.ref ≤ MAX_REF_NUM)
    (hother : ∀ q, p ≠ q → one held' q = one held q)
    (hcount : cellRef cell + one held p = taskPool.ref + one held' p) :
    Accounted { s with pools := s.pools.set p cell } held' := by
  have hlt := pool_lt hp
  refine ⟨fun q => ?_, fun q tp hq => ?_, hi.shared_once, hi.shared_length⟩
  · have hacc := hi.account q
    simp only [refOf, pool_set hlt, users_pools] at hacc ⊢
    by_cases hq : p = q
    · subst hq
      simp only [hp, cellRef_some] at hacc
      simp only [if_true]
      omega
    · simp only [hq, if_false]
      rw [hacc, hother q hq]
  · simp only [pool_set hlt] at hq
    by_cases hpq : p = q
    · simp only [hpq, if_true] at hq
      exact hrange tp hq
    · simp only [hpq, if_false] at hq
      exact hi.range q tp hq

theorem reference (hi : Accounted s none) {pool pool' : Option PoolPtr} {s' : SamgrLiteImpl}
    (h : referenceTaskPool s pool = some (pool', s')) :
    Accounted s' pool' ∧ (pool' = none → s' = s) ∧ (∀ p, pool' = some p → pool = some p) := by
  cases pool with
  | none =>
    simp only [referenceTaskPool, some.injEq, Prod.mk.injEq] at h
    obtain ⟨rfl, rfl⟩ := h
    exact ⟨hi, fun _ => rfl, fun _ h => h⟩
  | some p =>
    obtain ⟨taskPool, hp, h⟩ := bind_eq_some_iff.mp h
    by_cases hfull : taskPool.ref ≥ MAX_REF_NUM
    · simp only [hfull, if_true, some.injEq, Prod.mk.injEq] at h
      obtain ⟨rfl, rfl⟩ := h
      exact ⟨hi, fun _ => rfl, by simp⟩
    · simp only [hfull, if_false, some.injEq, Prod.mk.injEq] at h
      obtain ⟨rfl, rfl⟩ := h
      have hrange := hi.range p taskPool hp
      refine ⟨hi.write hp ?_ (fun q hq => by simp [one, hq]) (by simp [one]), by simp,
        fun _ h => h⟩
      rintro tp ⟨⟩
      simp only
      omega

/-- A change of the services passes the reference on from `held` to `held'` if the
users follow. -/
theorem setServices (hi : Accounted s held) {services : Vector ServiceImpl}
    (husers : ∀ p, services.data.countP (usesPool p) + one held' p = users s p + one held p) :
    Accounted { s with services } held' := by
  refine ⟨fun p => ?_, hi.range, hi.shared_once, hi.shared_length⟩
  have hacc := hi.account p
  have := husers p
  change refOf s p = services.data.countP (usesPool p) + s.sharedPool.count (some p) + _
  omega

theorem setService (hi : Accounted s held) {i : ℕ} {slot slot' : Option ServiceImpl}
    {services : Vector ServiceImpl}
    (hs : s.services.data[i]? = some slot) (hd : services.data = s.services.data.set i slot')
    (hslot : ∀ p, (if usesPool p slot' then 1 else 0) + one held' p =
      (if usesPool p slot then 1 else 0) + one held p) :
    Accounted { s with services } held' := by
  obtain ⟨hlt, hget⟩ := List.getElem?_eq_some_iff.mp hs
  refine hi.setServices fun p => ?_
  have hle : (if usesPool p slot then 1 else 0) ≤ users s p := by
    by_cases hu : usesPool p slot
    · simp only [hu, if_true]
      exact countP_pos_iff.mpr ⟨_, getElem_mem hlt, hget ▸ hu⟩
    · simp [hu]
  have := hslot p
  have hset := List.countP_set (p := usesPool p) (a := slot') hlt
  rw [hget] at hset
  change _ = users s p - _ + _ at hset
  rw [hd, hset]
  omega

theorem setTaskPool (hi : Accounted s held) {i : ℕ} {impl : ServiceImpl}
    (hs : s.services.data[i]? = some (some impl)) (hnone : impl.taskPool = none) :
    Accounted (s.setTaskPool i impl held) none :=
  hi.setService hs rfl fun p => by simp [usesPool, one, hnone]

theorem count_setSharedPool {pos : ℕ} {old : Option PoolPtr} (new : Option PoolPtr)
    (hold : s.sharedPool[pos]? = some old) (p : PoolPtr) :
    (s.setSharedPool pos new).sharedPool.count (some p) + one old p =
      s.sharedPool.count (some p) + one new p := by
  obtain ⟨hlt, hget⟩ := List.getElem?_eq_some_iff.mp hold
  have hle : one old p ≤ s.sharedPool.count (some p) := by
    unfold one
    by_cases hp : old = some p
    · simp only [hp, if_true]
      rw [← hp, ← hget]
      exact count_pos_iff.mpr (getElem_mem hlt)
    · simp [hp]
  have hset : (s.setSharedPool pos new).sharedPool.count (some p) =
      s.sharedPool.count (some p) - one old p + one new p := by
    unfold SamgrLiteImpl.setSharedPool one
    rw [count_set hlt, hget]
    simp only [beq_iff_eq]
  omega

/-- `samgr->sharedPool[pos] = pool` into an empty cell keeps a reference nobody else
has. -/
theorem setSharedPool (hi : Accounted s held) {pos : ℕ} (hold : s.sharedPool[pos]? = some none)
    (hfresh : ∀ p, held = some p → s.sharedPool.count (some p) = 0) :
    Accounted (s.setSharedPool pos held) none := by
  refine ⟨fun p => ?_, hi.range, fun p => ?_, (length_set ..).trans hi.shared_length⟩
  · have hacc := hi.account p
    have hcount := count_setSharedPool held hold p
    have href : refOf (s.setSharedPool pos held) p = refOf s p := rfl
    have husers : users (s.setSharedPool pos held) p = users s p := rfl
    rw [href, husers, hacc]
    omega
  · have hcount := count_setSharedPool held hold p
    have honce := hi.shared_once p
    by_cases hp : held = some p
    · have hzero := hfresh p hp
      simp only [one, hp, if_true, reduceCtorEq, if_false] at hcount ⊢
      omega
    · simp only [one, hp, if_false, reduceCtorEq] at hcount
      omega

theorem clearSharedPool (hi : Accounted s none) {pos : ℕ} {old : Option PoolPtr}
    (hold : s.sharedPool[pos]? = some old) : Accounted (s.setSharedPool pos none) old := by
  refine ⟨fun p => ?_, hi.range, fun p => ?_, (length_set ..).trans hi.shared_length⟩
  · have hacc := hi.account p
    have hcount := count_setSharedPool none hold p
    have href : refOf (s.setSharedPool pos none) p = refOf s p := rfl
    have husers : users (s.setSharedPool pos none) p = users s p := rfl
    have hnone : one none p = 0 := by simp [one]
    rw [href, husers, hacc]
    omega
  · have hcount := count_setSharedPool none hold p
    have honce := hi.shared_once p
    have hnone : one none p = 0 := by simp [one]
    omega

/-- `SAMGR_ReleaseTaskPool` gives the reference back, and frees the pool with the last
one. -/
theorem release (hi : Accounted s held) {s' : SamgrLiteImpl}
    (h : releaseTaskPool s held = some s') : Accounted s' none := by
  cases held with
  | none =>
    obtain rfl : s = s' := by simpa [releaseTaskPool] using h
    exact hi
  | some p =>
    obtain ⟨taskPool, hp, h⟩ := bind_eq_some_iff.mp h
    have hrange := hi.range p taskPool hp
    have hother : ∀ q, p ≠ q → one none q = one (some p) q := fun q hq => by simp [one, hq]
    by_cases hlast : taskPool.ref - 1 = 0
    · simp only [hlast, if_true, some.injEq] at h
      subst h
      refine hi.write hp (by simp) hother ?_
      simp only [one, if_true, reduceCtorEq, if_false, cellRef_none]
      omega
    · simp only [hlast, if_false, some.injEq] at h
      subst h
      refine hi.write hp ?_ hother (by simp [one])
      rintro tp ⟨⟩
      simp only
      omega

end Accounted

/-! ## `AddTaskPool` keeps the counts -/

/-- An operation on pools: it frees none and leaves the services alone. -/
structure Keeps (s s' : SamgrLiteImpl) : Prop where
  services : s'.services = s.services
  live : ∀ p, Live s p → Live s' p

theorem Keeps.refl (s : SamgrLiteImpl) : Keeps s s := ⟨rfl, fun _ h => h⟩

theorem Keeps.trans {s s' s'' : SamgrLiteImpl} (h : Keeps s s') (h' : Keeps s' s'') :
    Keeps s s'' := ⟨h'.services.trans h.services, fun p hp => h'.live p (h.live p hp)⟩

theorem createFixedTaskPool_keeps (s : SamgrLiteImpl) (config : TaskConfig) (size : ℕ)
    (queue : Option ℕ) : Keeps s (createFixedTaskPool s config size queue).2 := by
  cases queue with
  | none => exact .refl s
  | some queueId =>
    refine ⟨rfl, fun p hp => ?_⟩
    obtain ⟨taskPool, hp⟩ := hp
    refine ⟨taskPool, ?_⟩
    simp only [createFixedTaskPool, pool_append]
    rw [if_neg (Nat.ne_of_lt (pool_lt hp)), hp]

theorem referenceTaskPool_keeps {s s' : SamgrLiteImpl} {pool pool' : Option PoolPtr}
    (h : referenceTaskPool s pool = some (pool', s')) : Keeps s s' := by
  cases pool with
  | none =>
    simp only [referenceTaskPool, some.injEq, Prod.mk.injEq] at h
    rw [← h.2]
    exact .refl s
  | some p =>
    obtain ⟨taskPool, hp, h⟩ := bind_eq_some_iff.mp h
    by_cases hfull : taskPool.ref ≥ MAX_REF_NUM
    · simp only [hfull, if_true, some.injEq, Prod.mk.injEq] at h
      rw [← h.2]
      exact .refl s
    · simp only [hfull, if_false, some.injEq, Prod.mk.injEq] at h
      rw [← h.2]
      refine ⟨rfl, fun q hq => ?_⟩
      unfold Live at *
      simp only [pool_set (pool_lt hp)]
      by_cases hpq : p = q
      · simp [hpq]
      · simpa [hpq] using hq

theorem setSharedPool_keeps (s : SamgrLiteImpl) (pos : ℕ) (pool : Option PoolPtr) :
    Keeps s (s.setSharedPool pos pool) := ⟨rfl, fun _ h => h⟩

theorem referenceTaskPool_isSome {s : SamgrLiteImpl} (pool : Option PoolPtr)
    (h : ∀ p, pool = some p → Live s p) : (referenceTaskPool s pool).isSome := by
  cases pool with
  | none => simp [referenceTaskPool]
  | some p =>
    obtain ⟨taskPool, hp⟩ := h p rfl
    simp only [referenceTaskPool, hp, bind_eq_bind, bind_some]
    split <;> rfl

variable {impl : ServiceImpl}

theorem Accounted.live_of_service {s : SamgrLiteImpl} (hi : Accounted s none) (hs : some impl ∈ s.services.data)
    (hp : impl.taskPool = some p) : Live s p := by
  refine hi.live_of_pos ?_
  have : 0 < users s p := countP_pos_iff.mpr ⟨_, hs, by simp [usesPool, hp]⟩
  omega

theorem Accounted.live_of_shared {s : SamgrLiteImpl} (hi : Accounted s none)
    (hp : some p ∈ s.sharedPool) : Live s p := by
  refine hi.live_of_pos ?_
  have : 0 < s.sharedPool.count (some p) := count_pos_iff.mpr hp
  omega

theorem specifiedLoop_spec {s : SamgrLiteImpl} (hi : Accounted s none)
    (getTaskConfig : ℕ → TaskConfig) (config : TaskConfig) (slots : List (Option ServiceImpl))
    (hslots : ∀ slot ∈ slots, slot ∈ s.services.data) (i : ℕ) :
    ∃ pool s', specifiedLoop s getTaskConfig config i slots = some (pool, s') ∧
      Accounted s' pool ∧ Keeps s s' ∧ (pool = none → s' = s) := by
  induction slots generalizing i with
  | nil => exact ⟨none, s, rfl, hi, .refl s, fun _ => rfl⟩
  | cons slot rest ih =>
    have ih := ih (fun slot h => hslots slot (.tail _ h))
    cases slot with
    | none => exact ih (i + 1)
    | some impl =>
      by_cases hcfg : getTaskConfig i = config
      · by_cases hnone : impl.taskPool = none
        · exact ⟨none, s, by simp [specifiedLoop, hcfg, hnone], hi, .refl s, fun _ => rfl⟩
        · obtain ⟨⟨pool', s'⟩, href⟩ := isSome_iff_exists.mp
            (referenceTaskPool_isSome _ fun p => hi.live_of_service (hslots _ (.head _)))
          obtain ⟨hacc, -, -⟩ := hi.reference href
          cases pool' with
          | some p => exact ⟨some p, s', by simp [specifiedLoop, hcfg, hnone, href], hacc,
              referenceTaskPool_keeps href, by simp⟩
          | none =>
            -- the pool is full: go on with the next service
            obtain ⟨pool, t, h, rest⟩ := ih (i + 1)
            exact ⟨pool, t, by simp [specifiedLoop, hcfg, hnone, href, h], rest⟩
      · obtain ⟨pool, t, h, rest⟩ := ih (i + 1)
        exact ⟨pool, t, by simp [specifiedLoop, hcfg, h], rest⟩

/-- What `AddTaskPool` guarantees: the counts are right and no pool is freed. -/
structure Added (s s' : SamgrLiteImpl) : Prop where
  accounted : Accounted s' none
  live : ∀ p, Live s p → Live s' p

variable {i : ℕ}

theorem added_of_taken {s s' : SamgrLiteImpl}
    {pool : Option PoolPtr} (hs : s.services.data[i]? = some (some impl))
    (hnone : impl.taskPool = none) (hkeeps : Keeps s s') (hi : Accounted s' pool) :
    Added s (s'.setTaskPool i impl pool) :=
  ⟨hi.setTaskPool (by rw [hkeeps.services]; exact hs) hnone, hkeeps.live⟩

theorem addSingleTaskPool_spec {s : SamgrLiteImpl} (hi : Accounted s none) (hs : s.services.data[i]? = some (some impl))
    (hnone : impl.taskPool = none) (cfg : TaskConfig) (queue : Option ℕ) :
    Added s (addSingleTaskPool s i impl cfg queue) :=
  added_of_taken hs hnone (createFixedTaskPool_keeps ..) (hi.create ..)

theorem ensureSharedPool_spec {s : SamgrLiteImpl} (hi : Accounted s none) (pos : ℤ)
    (hpos : pos.toNat < MAX_POOL_NUM) (queue : Option ℕ) :
    Accounted (ensureSharedPool s pos queue) none ∧ Keeps s (ensureSharedPool s pos queue) := by
  unfold ensureSharedPool
  by_cases hnone : (s.sharedPool[pos.toNat]?).join = none
  · simp only [hnone, if_true]
    have hcell : s.sharedPool[pos.toNat]? = some none := by
      have hlt : pos.toNat < s.sharedPool.length := by rw [hi.shared_length]; exact hpos
      simpa [List.getElem?_eq_getElem hlt] using hnone
    have hshared : (createFixedTaskPool s (DEFAULT_TASK_CFG pos) DEFAULT_SIZE queue).2.sharedPool =
        s.sharedPool := by cases queue <;> rfl
    refine ⟨(hi.create ..).setSharedPool (by rw [hshared]; exact hcell) fun p hp => ?_,
      (createFixedTaskPool_keeps ..).trans (setSharedPool_keeps ..)⟩
    -- a pool just created is not in `sharedPool` yet
    cases queue with
    | none => simp [createFixedTaskPool] at hp
    | some queueId =>
      obtain rfl : s.pools.length = p := by simpa [createFixedTaskPool] using hp
      rw [hshared]
      exact hi.fresh.2.1
  · simp only [hnone, if_false]
    exact ⟨hi, .refl s⟩

theorem addSharedTaskPool_spec {s : SamgrLiteImpl} (hi : Accounted s none) (hs : s.services.data[i]? = some (some impl))
    (hnone : impl.taskPool = none) (cfg : TaskConfig)
    (hpos : (cfg.priority / PROPERTY_STEP).toNat < MAX_POOL_NUM) (queue : Option ℕ) :
    ∃ s', addSharedTaskPool s i impl cfg queue = some s' ∧ Added s s' := by
  obtain ⟨hacc, hkeeps⟩ := ensureSharedPool_spec hi (cfg.priority / PROPERTY_STEP) hpos queue
  simp only [addSharedTaskPool, bind_eq_bind]
  generalize ensureSharedPool s (cfg.priority / PROPERTY_STEP) queue = t at hacc hkeeps
  generalize (cfg.priority / PROPERTY_STEP).toNat = pos at hpos
  have hlt : pos < t.sharedPool.length := by rw [hacc.shared_length]; exact hpos
  have hcell : t.sharedPool[pos]? = some ((t.sharedPool[pos]?).join) := by
    simp [List.getElem?_eq_getElem hlt]
  obtain ⟨⟨pool', t'⟩, href⟩ := isSome_iff_exists.mp
    (referenceTaskPool_isSome (t.sharedPool[pos]?).join fun p hp =>
      hacc.live_of_shared (mem_of_getElem? (hcell.trans (congrArg some hp))))
  obtain ⟨hacc', hunchanged, hsame⟩ := hacc.reference href
  rw [href, bind_some]
  cases pool' with
  | some p =>
    refine ⟨_, rfl, ?_⟩
    rw [hsame p rfl]
    exact added_of_taken hs hnone (hkeeps.trans (referenceTaskPool_keeps href)) hacc'
  | none =>
    obtain rfl := hunchanged rfl
    refine ⟨_, rfl, ?_⟩
    have hcleared := added_of_taken hs hnone (hkeeps.trans (setSharedPool_keeps t' pos none))
      (hacc.clearSharedPool hcell)
    exact hcleared

theorem inRange_pos (cfg : TaskConfig) : (cfg.inRange.priority / PROPERTY_STEP).toNat < MAX_POOL_NUM := by
  unfold TaskConfig.inRange PROPERTY_STEP MAX_POOL_NUM PRI_LOW PRI_BUTT
  split
  · simp
  · omega

/-- **`AddTaskPool`** never touches a freed pool, keeps the counts and frees nothing. -/
theorem addTaskPool_spec {s : SamgrLiteImpl} (hi : Accounted s none) (hs : s.services.data[i]? = some (some impl)) (cfg : TaskConfig)
    (getTaskConfig : ℕ → TaskConfig) (queue : Option ℕ) :
    ∃ s', addTaskPool s i impl cfg getTaskConfig queue = some s' ∧ Added s s' := by
  unfold addTaskPool
  by_cases hnone : impl.taskPool = none
  · simp only [hnone, ne_eq, not_true_eq_false, if_false]
    by_cases hshared : cfg.inRange.taskFlags = SHARED_TASK
    · simp only [hshared, if_true]
      exact addSharedTaskPool_spec hi hs hnone _ (inRange_pos cfg) queue
    by_cases hspecified : cfg.inRange.taskFlags = SPECIFIED_TASK
    · obtain ⟨pool, t, hloop, hacc, hkeeps, hunchanged⟩ :=
        specifiedLoop_spec hi getTaskConfig cfg.inRange s.services.data (fun _ h => h) 0
      simp only [hspecified, if_true, getSpecifiedTaskPool, hloop, bind_eq_bind, bind_some]
      cases pool with
      | some p => exact ⟨_, rfl, added_of_taken hs hnone hkeeps hacc⟩
      | none =>
        obtain rfl := hunchanged rfl
        exact ⟨_, rfl, addSingleTaskPool_spec hi hs hnone _ queue⟩
    simp only [hshared, hspecified, if_false]
    by_cases hsingle : cfg.inRange.taskFlags = SINGLE_TASK
    · simp only [hsingle, if_true]
      exact ⟨_, rfl, addSingleTaskPool_spec hi hs hnone _ queue⟩
    · simp only [hsingle, if_false]
      exact ⟨s, rfl, hi, fun _ h => h⟩
  · simp only [hnone, ne_eq, not_false_eq_true, if_true]
    exact ⟨s, rfl, hi, fun _ h => h⟩

/-! ## The other calls keep the counts -/

theorem registerService_spec {s : SamgrLiteImpl} (hi : Accounted s none) (name : String)
    (newImpl newData : Bool) : Accounted (registerService s name newImpl newData) none ∧
      (registerService s name newImpl newData).pools = s.pools := by
  unfold registerService
  by_cases hdup : 0 ≤ s.services.findByKey ServiceImpl.name name
  · simp only [hdup, if_true]
    exact ⟨hi, trivial⟩
  by_cases hmax : s.services.num ≥ MAX_SERVICE_NUM
  · simp only [hdup, hmax, if_true, if_false]
    exact ⟨hi, trivial⟩
  cases newImpl with
  | false =>
    simp only [hdup, hmax, if_false, Bool.not_false, if_true]
    exact ⟨hi, trivial⟩
  | true =>
    simp only [hdup, hmax, if_false, Bool.not_true, Bool.false_eq_true]
    cases hadd : s.services.add (some ⟨name, false, none, 0, 0⟩) newData with
    | mk index services =>
      cases index with
      | none => exact ⟨Vector.add_none hadd ▸ hi, rfl⟩
      | some serviceId =>
        -- the new service has no pool, whatever slot it gets
        have hadded : Accounted { s with services } none := hi.setServices fun p => by
          rw [Vector.countP_add (usesPool p) rfl hadd]
          simp [usesPool, users]
        refine ⟨hadded.setService (Vector.add_slot hadd) rfl fun p => ?_, rfl⟩
        simp [usesPool]

theorem setInterfaces_spec {s : SamgrLiteImpl} (hi : Accounted s none) (hs : s.services.data[i]? = some (some impl)) (defaultApi : Bool)
    (features : ℕ) :
    Accounted { s with services := { s.services with
      data := s.services.data.set i (some { impl with defaultApi, features }) } } none :=
  hi.setService hs rfl fun p => by simp [usesPool]

theorem releaseTaskPool_isSome {s : SamgrLiteImpl} (pool : Option PoolPtr)
    (h : ∀ p, pool = some p → Live s p) : (releaseTaskPool s pool).isSome := by
  cases pool with
  | none => rfl
  | some p =>
    obtain ⟨taskPool, hp⟩ := h p rfl
    simp only [releaseTaskPool, hp, bind_eq_bind, bind_some]
    split <;> rfl

theorem releaseTaskPool_frame {s s' : SamgrLiteImpl} {pool : Option PoolPtr}
    (h : releaseTaskPool s pool = some s') : s'.services = s.services ∧ s'.sharedPool = s.sharedPool := by
  cases pool with
  | none =>
    obtain rfl : s = s' := by simpa [releaseTaskPool] using h
    exact ⟨rfl, rfl⟩
  | some p =>
    obtain ⟨taskPool, -, h⟩ := bind_eq_some_iff.mp h
    by_cases hlast : taskPool.ref - 1 = 0
    · simp only [hlast, if_true, some.injEq] at h
      subst h
      exact ⟨rfl, rfl⟩
    · simp only [hlast, if_false, some.injEq] at h
      subst h
      exact ⟨rfl, rfl⟩

/-- What `UnregisterService` guarantees: the counts are right, no service gains a pool,
and `sharedPool` is as before. -/
structure Removed (s s' : SamgrLiteImpl) : Prop where
  accounted : Accounted s' none
  users_le : ∀ p, users s' p ≤ users s p
  sharedPool : s'.sharedPool = s.sharedPool

/-- **`UnregisterService`** never touches a freed pool and keeps the counts. -/
theorem unregisterService_spec {s : SamgrLiteImpl} (hi : Accounted s none) (name : String) :
    ∃ s', unregisterService s name = some s' ∧ Removed s s' := by
  simp only [unregisterService]
  cases hat : s.services.elemAt (s.services.findByKey ServiceImpl.name name) with
  | none => exact ⟨s, rfl, hi, fun _ => Nat.le_refl _, rfl⟩
  | some impl =>
    simp only
    by_cases hguard : impl.defaultApi ∨ impl.features > 0
    · simp only [hguard, if_true]
      exact ⟨s, rfl, hi, fun _ => Nat.le_refl _, rfl⟩
    · simp only [hguard, if_false]
      have hslot := (Vector.elemAt_eq_some hat).2
      have hswap := Vector.swap_of_elemAt hat none
      generalize (s.services.swap (s.services.findByKey ServiceImpl.name name) none).2 =
        services at hswap
      -- the reference of the removed service is on its way to `SAMGR_ReleaseTaskPool`
      have hacc : Accounted { s with services } impl.taskPool :=
        hi.setService hslot hswap fun p => by simp [usesPool, one]
      obtain ⟨s', hs'⟩ := isSome_iff_exists.mp
        (releaseTaskPool_isSome (s := { s with services }) impl.taskPool fun p hp =>
          hi.live_of_service (mem_of_getElem? hslot) hp)
      obtain ⟨hservices, hshared⟩ := releaseTaskPool_frame hs'
      refine ⟨s', hs', hacc.release hs', fun p => ?_, hshared⟩
      unfold users
      rw [hservices, hswap]
      obtain ⟨hlt, hget⟩ := List.getElem?_eq_some_iff.mp hslot
      rw [List.countP_set hlt]
      simp [usesPool]

/-! ## Whole runs -/

theorem accounted_init : Accounted init none := by
  refine ⟨fun p => ?_, fun p taskPool h => ?_, fun p => ?_, rfl⟩
  · simp [refOf, SamgrLiteImpl.pool, init, users, Vector.make, one, count_replicate]
  · simp [SamgrLiteImpl.pool, init] at h
  · simp [init, count_replicate]

theorem accounted_step (s : SamgrLiteImpl) (a : Action) (s' : SamgrLiteImpl)
    (hi : Accounted s none) (h : step s a = some s') : Accounted s' none := by
  cases a with
  | registerService name newImpl newData =>
    cases h
    exact (registerService_spec hi name newImpl newData).1
  | addTaskPool i cfg getTaskConfig queue =>
    obtain ⟨impl, hs, h⟩ := bind_eq_some_iff.mp h
    obtain ⟨t, ht, hadded⟩ :=
      addTaskPool_spec hi (join_eq_some_iff.mp hs) cfg getTaskConfig queue
    cases ht.symm.trans h
    exact hadded.accounted
  | setInterfaces i defaultApi features =>
    obtain ⟨impl, hs, h⟩ := bind_eq_some_iff.mp h
    cases h
    exact setInterfaces_spec hi (join_eq_some_iff.mp hs) defaultApi features
  | unregisterService name =>
    obtain ⟨t, ht, hremoved⟩ := unregisterService_spec hi name
    cases ht.symm.trans h
    exact hremoved.accounted

theorem accounted_run {as : List Action} {s : SamgrLiteImpl}
    (run : Runs step AnyStep init as s) : Accounted s none :=
  run.invariant_of_step (P := (Accounted · none)) accounted_step accounted_init

theorem Accounted.live_iff {s : SamgrLiteImpl} (hi : Accounted s none) (p : PoolPtr) :
    Live s p ↔ 0 < users s p ∨ some p ∈ s.sharedPool := by
  rw [← count_pos_iff]
  constructor
  · rintro ⟨taskPool, hp⟩
    have hacc := hi.account p
    have := hi.range p taskPool hp
    have hnone : one none p = 0 := by simp [one]
    rw [refOf_of_pool hp] at hacc
    omega
  · exact fun h => hi.live_of_pos (by omega)

theorem unregisters_of_freed {s s' : SamgrLiteImpl} {a : Action} (hi : Accounted s none)
    (h : step s a = some s') (hlive : Live s p) (hfreed : ¬ Live s' p) :
    (∃ name, a = .unregisterService name) ∧ 0 < users s p := by
  cases a with
  | registerService name newImpl newData =>
    cases h
    have hpools := (registerService_spec hi name newImpl newData).2
    exact absurd (by simpa [Live, SamgrLiteImpl.pool, hpools] using hlive) hfreed
  | addTaskPool i cfg getTaskConfig queue =>
    obtain ⟨impl, hs, h⟩ := bind_eq_some_iff.mp h
    obtain ⟨t, ht, hadded⟩ :=
      addTaskPool_spec hi (join_eq_some_iff.mp hs) cfg getTaskConfig queue
    cases ht.symm.trans h
    exact absurd (hadded.live p hlive) hfreed
  | setInterfaces i defaultApi features =>
    obtain ⟨impl, hs, h⟩ := bind_eq_some_iff.mp h
    cases h
    exact absurd hlive hfreed
  | unregisterService name =>
    obtain ⟨t, ht, hremoved⟩ := unregisterService_spec hi name
    cases ht.symm.trans h
    refine ⟨⟨name, rfl⟩, ?_⟩
    rw [hremoved.accounted.live_iff, hremoved.sharedPool] at hfreed
    rw [hi.live_iff] at hlive
    tauto

/-- **Task pool reference counts.**  In every reachable state each pool that has not
been freed counts the services that use it and the pointer in `sharedPool`, between 1
and `MAX_REF_NUM`; no service and no shared pool points to a freed one.  A step frees
a pool exactly when it unregisters the last service that uses it and `sharedPool` does
not hold it. -/
theorem refcounts_accounted {as : List Action} {s : SamgrLiteImpl}
    (run : Runs step AnyStep init as s) :
    (∀ p taskPool, s.pool p = some taskPool →
      taskPool.ref = users s p + (if some p ∈ s.sharedPool then 1 else 0) ∧
        1 ≤ taskPool.ref ∧ taskPool.ref ≤ MAX_REF_NUM) ∧
    (∀ p, 0 < users s p ∨ some p ∈ s.sharedPool → Live s p) ∧
    (∀ a s', step s a = some s' → ∀ p, Live s p →
      (¬ Live s' p ↔ (∃ name, a = .unregisterService name) ∧ 0 < users s p ∧
        users s' p = 0 ∧ some p ∉ s'.sharedPool)) := by
  have hi := accounted_run run
  refine ⟨fun p taskPool hp => ⟨?_, hi.range p taskPool hp⟩, fun p => (hi.live_iff p).mpr,
    fun a s' h p hlive => ?_⟩
  · have hacc := hi.account p
    have honce := hi.shared_once p
    have hnone : one none p = 0 := by simp [one]
    rw [refOf_of_pool hp] at hacc
    by_cases hm : some p ∈ s.sharedPool
    · have := count_pos_iff.mpr hm
      simp only [hm, if_true]
      omega
    · have := count_eq_zero.mpr hm
      simp only [hm, if_false]
      omega
  · have hi' := accounted_step s a s' hi h
    have hiff := hi'.live_iff p
    constructor
    · intro hfreed
      obtain ⟨ha, husers⟩ := unregisters_of_freed hi h hlive hfreed
      rw [hiff, not_or, Nat.not_lt, Nat.le_zero] at hfreed
      exact ⟨ha, husers, hfreed⟩
    · rintro ⟨-, -, husers, hshared⟩
      rw [hiff]
      simp [husers, hshared]

/-- A configuration of the shared kind with low priority. -/
def sharedCfg : TaskConfig := ⟨0, 9, 0x800, 20, SHARED_TASK⟩

/-- Two services share a pool, and one of them is unregistered. -/
def twoServices : List Action := [.registerService "a" true true, .registerService "b" true true,
    .addTaskPool 0 sharedCfg (fun _ => sharedCfg) (some 7),
    .addTaskPool 1 sharedCfg (fun _ => sharedCfg) none, .unregisterService "a"]

/-- The counts after `twoServices`: one service and `sharedPool` hold the pool. -/
theorem refcounts_accounted_twoServices :
    ∃ s, Runs step AnyStep init twoServices s ∧ users s 0 = 1 ∧
      s.pool 0 = some ⟨7, 0x1000, 9, 1, users s 0 + 1⟩ := by
  let s : SamgrLiteImpl := ⟨⟨4, 1, [none, some ⟨"b", false, some 0, 0, 1⟩]⟩,
      [none, some 0, none, none, none, none, none, none], [some ⟨7, 0x1000, 9, 1, 2⟩]⟩
  have run : Runs step AnyStep init twoServices s := runs_of_exec (by decide)
  have hcounts := (refcounts_accounted run).1 0 ⟨7, 0x1000, 9, 1, 2⟩ rfl
  have hshared : some 0 ∈ s.sharedPool := by decide
  simp only [hshared, if_true] at hcounts
  exact ⟨s, run, by omega, by rw [← hcounts.1]; rfl⟩

end Protoc.Samgr.Pool
