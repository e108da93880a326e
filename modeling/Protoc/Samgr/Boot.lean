import Protoc.Lib.Pick
import Protoc.Lib.Run

/-!
# Bootstrapping the services

`SAMGR_Bootstrap` collects the services that are still `SVC_INIT`, gives them task
pools and sends each an init request.  A service thread that has handled one calls
`InitCompleted`, and so does the end of `SAMGR_Bootstrap`: when no service is
uninitialised it moves the boot status on and sends a message to the bootstrap service,
which registers more services and calls `SAMGR_Bootstrap` again.

The model interleaves any number of tasks, a service thread at work on a message or a
call of `SAMGR_Bootstrap`, at the sections under the mutex and the accesses outside of
it.  Which pool a service gets and the order in which the queues hand out their
messages are left open.
-/

namespace Protoc.Samgr.Boot

open Protoc.Lib

/-- `BootStatus`. -/
inductive BootStatus
  | BOOT_SYS
  | BOOT_SYS_WAIT
  | BOOT_APP
  | BOOT_APP_WAIT
  | BOOT_DYNAMIC
  | BOOT_DYNAMIC_WAIT
  deriving DecidableEq

/-- The values of the enumeration. -/
def BootStatus.toNat : BootStatus → ℕ
  | .BOOT_SYS => 0
  | .BOOT_SYS_WAIT => 1
  | .BOOT_APP => 2
  | .BOOT_APP_WAIT => 3
  | .BOOT_DYNAMIC => 4
  | .BOOT_DYNAMIC_WAIT => 5

/-- `TO_NEXT_STATUS`: the lowest bit is set. -/
def BootStatus.toNextStatus : BootStatus → BootStatus
  | .BOOT_SYS | .BOOT_SYS_WAIT => .BOOT_SYS_WAIT
  | .BOOT_APP | .BOOT_APP_WAIT => .BOOT_APP_WAIT
  | .BOOT_DYNAMIC | .BOOT_DYNAMIC_WAIT => .BOOT_DYNAMIC_WAIT

/-- `InitStatus` of a service. -/
inductive InitStatus
  | SVC_INIT
  | SVC_IDLE
  | SVC_BUSY
  deriving DecidableEq

/-- The messages to the bootstrap service. -/
inductive BootMsg
  | BOOT_SYS_COMPLETED
  | BOOT_APP_COMPLETED
  | BOOT_REG_SERVICE
  deriving DecidableEq

abbrev ServiceId := ℕ

/-- `ServiceImpl`, and two counts: how often its `Initialize` has run, and how many
calls of `SAMGR_Bootstrap` have collected it. -/
structure ServiceImpl where
  /-- Its name is `BOOTSTRAP_SERVICE`. -/
  isBootstrap : Bool
  /-- `taskPool != NULL`. -/
  taskPool : Bool
  inited : InitStatus
  initializes : ℕ
  collects : ℕ
  deriving DecidableEq

/-- A message in some service's queue. -/
inductive Msg
  /-- An init request, to be handled by `HandleInitRequest`. -/
  | init (service : ServiceId)
  /-- A message to the bootstrap service. -/
  | boot (msgId : BootMsg)
  deriving DecidableEq

/-- What a task does next. -/
inductive Pc
  /-- `DEFAULT_Initialize` in `HandleInitRequest`. -/
  | defaultInitialize (service : ServiceId)
  /-- `serviceImpl->inited = SVC_IDLE`. -/
  | setIdle (service : ServiceId)
  /-- The section of `SAMGR_Bootstrap` that collects the services, called for a message
  or by somebody else. -/
  | bootstrap (msgId : Option BootMsg)
  /-- The check for an empty collection. -/
  | checkEmpty (initServices : List ServiceId)
  /-- `InitializeAllServices`. -/
  | initializeAll (initServices : List ServiceId)
  /-- `GetUninitializedPos` in `InitCompleted`. -/
  | getUninitializedPos
  /-- The comparison with `VECTOR_Size` in `InitCompleted`. -/
  | compareSize (pos : ℕ)
  /-- The section of `InitCompleted` that moves the status on. -/
  | advance
  /-- `SendBootRequest`. -/
  | send (msgId : BootMsg)
  /-- `EndWork`. -/
  | endWork
  deriving DecidableEq

/-- A task: where it stands, and the service whose message it is at work on. -/
structure Task where
  pc : Pc
  service : Option ServiceId
  deriving DecidableEq

/-- A request sent to the bootstrap service, and whether the services that were
registered before the call made for `BOOT_SYS_COMPLETED` were all initialised then. -/
structure Sent where
  msgId : BootMsg
  initialised : Bool
  deriving DecidableEq

/-- The registry, the queued messages, the tasks, and what an observer notes: the
number of services at the call made for `BOOT_SYS_COMPLETED`, and the requests sent,
newest first. -/
structure BootState where
  status : BootStatus
  services : List ServiceImpl
  queue : List Msg
  tasks : List Task
  sysServices : Option ℕ
  sent : List Sent
  deriving DecidableEq

def init : BootState := ⟨.BOOT_SYS, [], [], [], none, []⟩

/-! ## The sections -/

/-- `SAMGR_CreateServiceImpl`. -/
def newService (isBootstrap : Bool) : ServiceImpl := ⟨isBootstrap, false, .SVC_INIT, 0, 0⟩

/-- `RegisterService`; a second service of the bootstrap service's name is refused. -/
def registerService (s : BootState) (isBootstrap : Bool) : BootState :=
  if isBootstrap && s.services.any ServiceImpl.isBootstrap then s
  else { s with services := s.services ++ [newService isBootstrap] }

/-- `BeginWork`. -/
def beginWork (service : ServiceImpl) : ServiceImpl :=
  if service.inited ≠ .SVC_IDLE then service else { service with inited := .SVC_BUSY }

/-- `EndWork`. -/
def endWork (service : ServiceImpl) : ServiceImpl :=
  if service.inited ≠ .SVC_BUSY then service else { service with inited := .SVC_IDLE }

/-- The services after a change of one of them, if it is known which. -/
def onService (services : List ServiceImpl) (f : ServiceImpl → ServiceImpl) :
    Option ServiceId → List ServiceImpl
  | some service => services.modify service f
  | none => services

/-- `GetUninitializedPos`. -/
def getUninitializedPos : List ServiceImpl → ℕ
  | [] => 0
  | service :: rest => if service.inited = .SVC_INIT then 0 else getUninitializedPos rest + 1

/-- The services `SAMGR_Bootstrap` collects, the first of the list being at position
`i`. -/
def collect (i : ServiceId) : List ServiceImpl → List ServiceId
  | [] => []
  | service :: rest =>
    if service.inited = .SVC_INIT then i :: collect (i + 1) rest else collect (i + 1) rest

def noteCollected (service : ServiceImpl) : ServiceImpl :=
  if service.inited = .SVC_INIT then { service with collects := service.collects + 1 } else service

/-- What `InitializeAllServices` meets: which services can be given a pool, and which
queues have room. -/
structure Env where
  pool : ServiceId → Bool
  room : ServiceId → Bool

def Env.ample : Env := ⟨fun _ => true, fun _ => true⟩

/-- `AddTaskPool`. -/
def addTaskPool (env : Env) (s : BootState) (i : ServiceId) : BootState :=
  { s with services := s.services.modify i fun service =>
      { service with taskPool := service.taskPool || env.pool i } }

/-- `service->Initialize` has run. -/
def noteInitialize (service : ServiceImpl) : ServiceImpl :=
  { service with initializes := service.initializes + 1 }

/-- `InitializeSingleService`. -/
def initializeSingleService (env : Env) (s : BootState) (i : ServiceId) : BootState :=
  match s.services[i]? with
  | none => s
  | some service =>
    if !service.taskPool then { s with services := s.services.modify i noteInitialize }
    else if env.room i then { s with queue := s.queue ++ [.init i] }
    else s

/-- `InitializeAllServices`: pools for all of them first. -/
def initializeAllServices (env : Env) (s : BootState) (initServices : List ServiceId) : BootState :=
  initServices.foldl (initializeSingleService env) (initServices.foldl (addTaskPool env) s)

/-- None of these services is `SVC_INIT`. -/
def allInitialised (services : List ServiceImpl) : Bool :=
  services.all fun service => decide (service.inited ≠ .SVC_INIT)

/-- The services registered before the call for `BOOT_SYS_COMPLETED` are initialised. -/
def sysInitialised (s : BootState) : Bool :=
  s.sysServices.any fun n => allInitialised (s.services.take n)

/-- `SendBootRequest`; without a pool of the bootstrap service there is no queue. -/
def sendBootRequest (env : Env) (s : BootState) (msgId : BootMsg) : BootState :=
  let s : BootState := { s with sent := (⟨msgId, sysInitialised s⟩ : Sent) :: s.sent }
  match s.services.findIdx? ServiceImpl.isBootstrap with
  | some i =>
    if (s.services[i]?).any ServiceImpl.taskPool && env.room i then
      { s with queue := s.queue ++ [.boot msgId] }
    else s
  | none => s

/-- Where `InitCompleted` returns to: the end of the work on a message, if any. -/
def Task.return (t : Task) : Task := { t with pc := .endWork }

/-- The section of `InitCompleted` that moves the status on, and the message to send. -/
def nextStatus : BootStatus → Option (BootStatus × BootMsg)
  | .BOOT_SYS_WAIT => some (.BOOT_APP, .BOOT_SYS_COMPLETED)
  | .BOOT_APP_WAIT => some (.BOOT_DYNAMIC, .BOOT_APP_COMPLETED)
  | .BOOT_DYNAMIC_WAIT => some (.BOOT_DYNAMIC, .BOOT_REG_SERVICE)
  | _ => none

/-- The number of services noted at the call for `BOOT_SYS_COMPLETED`. -/
def noteSysServices (s : BootState) (msgId : Option BootMsg) : Option ℕ :=
  if msgId = some .BOOT_SYS_COMPLETED then some s.services.length else s.sysServices

/-- The task at index `i` goes on as `t`. -/
def BootState.goOn (s : BootState) (i : ℕ) (t : Task) : BootState :=
  { s with tasks := s.tasks.set i t }

/-- One section of a task. -/
def runTask (env : Env) (s : BootState) (i : ℕ) (t : Task) : BootState :=
  match t.pc with
  | .defaultInitialize service =>
    { s with services := s.services.modify service noteInitialize }.goOn i
      { t with pc := .setIdle service }
  | .setIdle service =>
    { s with services := s.services.modify service fun impl => { impl with inited := .SVC_IDLE } }.goOn
      i { t with pc := .getUninitializedPos }
  | .bootstrap msgId =>
    { s with
      status := s.status.toNextStatus
      services := s.services.map noteCollected
      sysServices := noteSysServices s msgId }.goOn i
        { t with pc := .checkEmpty (collect 0 s.services) }
  | .checkEmpty initServices =>
    if initServices = [] ∧ s.status = .BOOT_DYNAMIC_WAIT then s.goOn i t.return
    else s.goOn i { t with pc := .initializeAll initServices }
  | .initializeAll initServices =>
    (initializeAllServices env s initServices).goOn i { t with pc := .getUninitializedPos }
  | .getUninitializedPos => s.goOn i { t with pc := .compareSize (getUninitializedPos s.services) }
  | .compareSize pos =>
    if pos < s.services.length then s.goOn i t.return else s.goOn i { t with pc := .advance }
  | .advance =>
    match nextStatus s.status with
    | some (status, msgId) => { s with status }.goOn i { t with pc := .send msgId }
    | none => s.goOn i t.return
  | .send msgId => (sendBootRequest env s msgId).goOn i t.return
  | .endWork =>
    { s with
      services := onService s.services endWork t.service
      tasks := s.tasks.eraseIdx i }

/-- What can happen next. -/
inductive Action
  /-- Somebody registers a service. -/
  | register (isBootstrap : Bool)
  /-- Somebody calls `SAMGR_Bootstrap`. -/
  | call
  /-- A service thread takes a message off its queue. -/
  | take (i : ℕ)
  /-- A task runs its next section. -/
  | run (i : ℕ) (env : Env)

/-- The task at index `i` runs its next `n` sections. -/
def sections (i n : ℕ) : List Action := List.replicate n (.run i .ample)

/-- A service thread starts on a message. -/
def takeMsg (s : BootState) (i : ℕ) (msg : Msg) : BootState :=
  let (pc, service) := match msg with
    | .init service => (Pc.defaultInitialize service, some service)
    | .boot msgId => (Pc.bootstrap (some msgId), s.services.findIdx? ServiceImpl.isBootstrap)
  { s with
    services := onService s.services beginWork service
    queue := s.queue.eraseIdx i
    tasks := s.tasks ++ [(⟨pc, service⟩ : Task)] }

/-- One step of the system. -/
def step (s : BootState) : Action → Option BootState
  | .register isBootstrap => some (registerService s isBootstrap)
  | .call => some { s with tasks := s.tasks ++ [(⟨.bootstrap none, none⟩ : Task)] }
  | .take i => do
      let msg ← s.queue[i]?
      some (takeMsg s i msg)
  | .run i env => do
      let t ← s.tasks[i]?
      some (runTask env s i t)

end Protoc.Samgr.Boot
