import Protoc.Samgr.TaskPool

/-!
# Sharing a specified task pool

`GetSpecifiedTaskPool` goes over the slots of the services for one with the same configuration.
It passes over those whose pool is full, and gives up at the first one that has no pool.  The
service that needs the pool is among them, and since a freed slot is used again it may stand
before the service whose pool it could share.
-/

namespace Protoc.Samgr.Pool

open Protoc.Lib Option

section
variable (s : SamgrLiteImpl) (getTaskConfig : ℕ → TaskConfig) (config : TaskConfig)

def HasRoom (p : PoolPtr) : Prop :=
  ∃ taskPool, s.pool p = some taskPool ∧ taskPool.ref < MAX_REF_NUM

/-- The loop goes on after the slot at position `i`. -/
def PassedOver (i : ℕ) (slot : Option ServiceImpl) : Prop :=
  ∀ impl, slot = some impl → getTaskConfig i = config → ∃ p, impl.taskPool = some p ∧ ¬ HasRoom s p

/-- The first slot that is not passed over has the pool `p`.  The slots begin at position `i`. -/
def Finds (i : ℕ) (slots : List (Option ServiceImpl)) (p : PoolPtr) : Prop :=
  ∃ k impl, slots[k]? = some (some impl) ∧ getTaskConfig (i + k) = config ∧
    impl.taskPool = some p ∧ HasRoom s p ∧
    ∀ k' < k, ∀ slot, slots[k']? = some slot → PassedOver s getTaskConfig config (i + k') slot

def UsedUnder (p : PoolPtr) : Prop :=
  ∃ k impl, s.services.data[k]? = some (some impl) ∧ getTaskConfig k = config ∧
    impl.taskPool = some p

/-- The pool that `GetSpecifiedTaskPool` comes to is one of the configuration. -/
def SharingFirst : Prop :=
  ∃ p, Finds s getTaskConfig config.inRange 0 s.services.data p ∧ UsedUnder s getTaskConfig config p

/-- The service at position `i` was given a pool that a service of the configuration had. -/
def SharesPool (s' : SamgrLiteImpl) (i : ℕ) : Prop :=
  ∃ impl p, s'.services.data[i]? = some (some impl) ∧ impl.taskPool = some p ∧
    UsedUnder s getTaskConfig config p

end

/-! ## The loop -/

section
variable {s : SamgrLiteImpl} {getTaskConfig : ℕ → TaskConfig} {config : TaskConfig} {i : ℕ}
  {slot : Option ServiceImpl} {impl : ServiceImpl} {rest : List (Option ServiceImpl)} {p : PoolPtr}

theorem finds_nil : ¬ Finds s getTaskConfig config i [] p := by
  rintro ⟨k, impl, hk, -⟩
  cases hk

theorem finds_cons_passedOver (h : PassedOver s getTaskConfig config i slot) :
    Finds s getTaskConfig config i (slot :: rest) p ↔ Finds s getTaskConfig config (i + 1) rest p := by
  have hshift : ∀ k, i + 1 + k = i + (k + 1) := fun k => by omega
  constructor
  · rintro ⟨k, impl, hk, hconfig, hpool, hroom, hbefore⟩
    cases k with
    | zero =>
      obtain ⟨p', hpool', hfull⟩ := h impl (some.inj hk) hconfig
      cases hpool.symm.trans hpool'
      exact absurd hroom hfull
    | succ k =>
      refine ⟨k, impl, hk, hshift k ▸ hconfig, hpool, hroom, ?_⟩
      intro k' hk' slot' hslot'
      exact hshift k' ▸ hbefore (k' + 1) (Nat.succ_lt_succ hk') slot' hslot'
  · rintro ⟨k, impl, hk, hconfig, hpool, hroom, hbefore⟩
    refine ⟨k + 1, impl, hk, hshift k ▸ hconfig, hpool, hroom, ?_⟩
    intro k' hk' slot' hslot'
    cases k' with
    | zero => exact some.inj hslot' ▸ h
    | succ k' => exact hshift k' ▸ hbefore k' (Nat.lt_of_succ_lt_succ hk') slot' hslot'

theorem not_finds_of_noPool (hconfig : getTaskConfig i = config) (hnone : impl.taskPool = none) :
    ¬ Finds s getTaskConfig config i (some impl :: rest) p := by
  rintro ⟨k, impl', hk, -, hpool, -, hbefore⟩
  cases k with
  | zero =>
    cases hk
    cases hnone.symm.trans hpool
  | succ k =>
    obtain ⟨p', hpool', -⟩ := hbefore 0 (Nat.succ_pos k) (some impl) rfl impl rfl hconfig
    cases hnone.symm.trans hpool'

theorem finds_cons_iff (hconfig : getTaskConfig i = config) {p' : PoolPtr}
    (hpool : impl.taskPool = some p') (hroom : HasRoom s p') :
    Finds s getTaskConfig config i (some impl :: rest) p ↔ p' = p := by
  constructor
  · rintro ⟨k, impl', hk, -, hpool', -, hbefore⟩
    cases k with
    | zero =>
      cases hk
      exact some.inj (hpool.symm.trans hpool')
    | succ k =>
      obtain ⟨p'', hpool'', hfull⟩ := hbefore 0 (Nat.succ_pos k) (some impl) rfl impl rfl hconfig
      cases hpool.symm.trans hpool''
      exact absurd hroom hfull
  · rintro rfl
    exact ⟨0, impl, rfl, hconfig, hpool, hroom, fun k' hk' => absurd hk' (Nat.not_lt_zero k')⟩

/-- **The loop** returns the pool it finds. -/
theorem specifiedLoop_finds (hi : Accounted s none) (slots : List (Option ServiceImpl))
    (hslots : ∀ slot ∈ slots, slot ∈ s.services.data) (i : ℕ) {pool : Option PoolPtr}
    {s' : SamgrLiteImpl} (h : specifiedLoop s getTaskConfig config i slots = some (pool, s')) :
    pool = some p ↔ Finds s getTaskConfig config i slots p := by
  induction slots generalizing i with
  | nil =>
    cases h
    exact iff_of_false (some_ne_none p).symm finds_nil
  | cons slot rest ih =>
    have ih := ih (fun slot h => hslots slot (.tail _ h)) (i + 1)
    cases slot with
    | none =>
      have hpassed : PassedOver s getTaskConfig config i none := fun _ hnone => by cases hnone
      rw [finds_cons_passedOver hpassed]
      exact ih h
    | some impl =>
      rw [specifiedLoop] at h
      by_cases hconfig : getTaskConfig i = config
      · rw [if_neg (not_not_intro hconfig)] at h
        cases hpool : impl.taskPool with
        | none =>
          rw [if_pos hpool] at h
          cases h
          exact iff_of_false (some_ne_none p).symm (not_finds_of_noPool hconfig hpool)
        | some p' =>
          obtain ⟨taskPool, htaskPool⟩ := hi.live_of_service (hslots _ (.head _)) hpool
          rw [if_neg (hpool ▸ some_ne_none p'), hpool, referenceTaskPool, htaskPool] at h
          by_cases hfull : taskPool.ref ≥ MAX_REF_NUM
          · simp only [bind_eq_bind, bind_some, if_pos hfull] at h
            have hnoRoom : ¬ HasRoom s p' := by
              rintro ⟨taskPool', htaskPool', hlt⟩
              cases htaskPool.symm.trans htaskPool'
              omega
            have hpassed : PassedOver s getTaskConfig config i (some impl) := by
              intro impl' heq _
              cases heq
              exact ⟨p', hpool, hnoRoom⟩
            rw [finds_cons_passedOver hpassed]
            exact ih h
          · simp only [bind_eq_bind, bind_some, if_neg hfull] at h
            cases h
            rw [finds_cons_iff hconfig hpool ⟨taskPool, htaskPool, Int.not_le.mp hfull⟩, some.injEq]
      · rw [if_pos hconfig] at h
        have hpassed : PassedOver s getTaskConfig config i (some impl) :=
          fun _ _ heq => absurd heq hconfig
        rw [finds_cons_passedOver hpassed]
        exact ih h

/-! ## `AddTaskPool` -/

theorem inRange_taskFlags (cfg : TaskConfig) : cfg.inRange.taskFlags = cfg.taskFlags := by
  rw [TaskConfig.inRange]
  split <;> rfl

theorem setTaskPool_slot (hs : s.services.data[i]? = some (some impl)) (pool : Option PoolPtr) :
    (s.setTaskPool i impl pool).services.data[i]? = some (some { impl with taskPool := pool }) := by
  obtain ⟨hlt, -⟩ := List.getElem?_eq_some_iff.mp hs
  exact List.getElem?_set_self hlt

theorem sharesPool_of_slot {s' : SamgrLiteImpl}
    (hs : s'.services.data[i]? = some (some { impl with taskPool := some p })) :
    SharesPool s getTaskConfig config s' i ↔ UsedUnder s getTaskConfig config p := by
  constructor
  · rintro ⟨impl', p', hs', hpool, hused⟩
    cases hs.symm.trans hs'
    cases hpool
    exact hused
  · intro hused
    exact ⟨_, p, hs, rfl, hused⟩

theorem not_usedUnder_new (hi : Accounted s none) : ¬ UsedUnder s getTaskConfig config s.pools.length := by
  rintro ⟨k, impl, hk, -, hpool⟩
  have hpos : 0 < users s s.pools.length :=
    List.countP_pos_iff.mpr ⟨some impl, List.mem_of_getElem? hk, by simp [usesPool, hpool]⟩
  exact absurd hi.fresh.1 (Nat.ne_of_gt hpos)

theorem not_sharesPool_single (hi : Accounted s none)
    (hs : s.services.data[i]? = some (some impl)) (cfg : TaskConfig) (queue : Option ℕ) :
    ¬ SharesPool s getTaskConfig config (addSingleTaskPool s i impl cfg queue) i := by
  cases queue with
  | none =>
    rintro ⟨impl', p', hs', hpool, -⟩
    have hslot := setTaskPool_slot hs none
    cases hslot.symm.trans hs'
    cases hpool
  | some queueId =>
    have hslot : (addSingleTaskPool s i impl cfg (some queueId)).services.data[i]? =
        some (some { impl with taskPool := some s.pools.length }) :=
      setTaskPool_slot (s := (createFixedTaskPool s cfg SINGLE_SIZE (some queueId)).2) hs _
    rw [sharesPool_of_slot hslot]
    exact not_usedUnder_new hi

/-- **Sharing.**  In a reachable state a service that has no pool yet is given the pool of a
service with its configuration if and only if the first slot that is not passed over has it. -/
theorem sharesPool_iff {as : List Action} (run : Runs step AnyStep init as s)
    (hs : s.services.data[i]? = some (some impl)) (hnone : impl.taskPool = none)
    {cfg : TaskConfig} (hflags : cfg.taskFlags = SPECIFIED_TASK) (getTaskConfig : ℕ → TaskConfig)
    (queue : Option ℕ) :
    ∃ s', step s (.addTaskPool i cfg getTaskConfig queue) = some s' ∧
      (SharesPool s getTaskConfig cfg s' i ↔ SharingFirst s getTaskConfig cfg) := by
  have hi := accounted_run run
  have hflags' : cfg.inRange.taskFlags = SPECIFIED_TASK := (inRange_taskFlags cfg).trans hflags
  have hnotShared : ¬ cfg.inRange.taskFlags = SHARED_TASK := by
    rw [hflags']
    decide
  obtain ⟨pool, t, hloop, -, hkeeps, hunchanged⟩ :=
    specifiedLoop_spec hi getTaskConfig cfg.inRange s.services.data (fun _ h => h) 0
  have hfinds : ∀ p, pool = some p ↔ Finds s getTaskConfig cfg.inRange 0 s.services.data p :=
    fun p => specifiedLoop_finds hi s.services.data (fun _ h => h) 0 hloop
  have hstep : step s (.addTaskPool i cfg getTaskConfig queue) =
      addTaskPool s i impl cfg getTaskConfig queue := by
    rw [step, hs]
    rfl
  rw [hstep, addTaskPool, if_neg (not_not_intro hnone)]
  simp only
  rw [if_neg hnotShared, if_pos hflags', getSpecifiedTaskPool, hloop]
  cases pool with
  | some p =>
    refine ⟨_, rfl, ?_⟩
    have hslot := setTaskPool_slot (s := t) (hkeeps.services ▸ hs) (some p)
    rw [sharesPool_of_slot hslot]
    constructor
    · intro hused
      exact ⟨p, (hfinds p).mp rfl, hused⟩
    · rintro ⟨p', hfound, hused⟩
      cases (hfinds p').mpr hfound
      exact hused
  | none =>
    obtain rfl := hunchanged rfl
    refine ⟨_, rfl, iff_of_false (not_sharesPool_single hi hs _ queue) ?_⟩
    rintro ⟨p, hfound, -⟩
    cases (hfinds p).mpr hfound

theorem sharingFirst_iff {cfg : TaskConfig} (hrange : cfg.inRange = cfg) :
    SharingFirst s getTaskConfig cfg ↔ ∃ p, Finds s getTaskConfig cfg 0 s.services.data p := by
  rw [SharingFirst, hrange]
  refine exists_congr fun p => and_iff_left_of_imp ?_
  rintro ⟨k, impl, hk, hconfig, hpool, -⟩
  exact ⟨k, impl, hk, zero_add k ▸ hconfig, hpool⟩

end

/-! ## The slot of the service itself -/

def specifiedCfg : TaskConfig := ⟨0, 9, 0x800, 20, SPECIFIED_TASK⟩

def oneWithPool : List Action := [.registerService "a" true true, .registerService "b" true true,
    .addTaskPool 0 specifiedCfg (fun _ => specifiedCfg) (some 7)]

/-- The other one shares it. -/
theorem sharesPool_oneWithPool : ∃ s s', Runs step AnyStep init oneWithPool s ∧
      step s (.addTaskPool 1 specifiedCfg (fun _ => specifiedCfg) none) = some s' ∧
      SharesPool s (fun _ => specifiedCfg) specifiedCfg s' 1 := by
  let s : SamgrLiteImpl :=
    ⟨⟨4, 0, [some ⟨"a", false, some 0, 0, 0⟩, some ⟨"b", false, none, 0, 1⟩]⟩,
      List.replicate MAX_POOL_NUM none, [some ⟨7, 0x800, 9, 1, 1⟩]⟩
  have run : Runs step AnyStep init oneWithPool s := runs_of_exec (by decide)
  have hroom : HasRoom s 0 := ⟨⟨7, 0x800, 9, 1, 1⟩, rfl, by decide⟩
  have hfinds : Finds s (fun _ => specifiedCfg) specifiedCfg 0 s.services.data 0 :=
    (finds_cons_iff rfl rfl hroom).mpr rfl
  obtain ⟨s', hstep, hiff⟩ := sharesPool_iff run
    (show s.services.data[1]? = some (some ⟨"b", false, none, 0, 1⟩) by rfl) rfl
    (show specifiedCfg.taskFlags = SPECIFIED_TASK by rfl) (fun _ => specifiedCfg) none
  exact ⟨s, s', run, hstep, hiff.mpr ((sharingFirst_iff rfl).mpr ⟨0, hfinds⟩)⟩

/-- What the services at the first two positions answer, and the others. -/
def twoSpecified (i : ℕ) : TaskConfig := if i < 2 then specifiedCfg else sharedCfg

/-- The slots are full, the second service has a pool, and a new service takes the slot of the
first one. -/
def slotReused : List Action := [.registerService "a" true true, .registerService "b" true true,
    .registerService "c" true true, .registerService "d" true true,
    .addTaskPool 1 specifiedCfg twoSpecified (some 7), .unregisterService "a",
    .registerService "e" true true]

/-- The new service comes to its own slot first, and gets a pool of its own. -/
theorem not_sharesPool : ¬ ∀ (as : List Action) (s : SamgrLiteImpl) (i : ℕ) (impl : ServiceImpl)
    (getTaskConfig : ℕ → TaskConfig) (cfg : TaskConfig) (queue : Option ℕ),
    Runs step AnyStep init as s → s.services.data[i]? = some (some impl) →
      impl.taskPool = none → cfg.taskFlags = SPECIFIED_TASK → getTaskConfig i = cfg →
      (∃ p, UsedUnder s getTaskConfig cfg p ∧ HasRoom s p) →
      ∃ s', step s (.addTaskPool i cfg getTaskConfig queue) = some s' ∧
        SharesPool s getTaskConfig cfg s' i := by
  intro hall
  let e : ServiceImpl := ⟨"e", false, none, 0, 0⟩
  let s : SamgrLiteImpl :=
    ⟨⟨4, 0, [some e, some ⟨"b", false, some 0, 0, 1⟩, some ⟨"c", false, none, 0, 2⟩,
      some ⟨"d", false, none, 0, 3⟩]⟩, List.replicate MAX_POOL_NUM none,
      [some ⟨7, 0x800, 9, 1, 1⟩]⟩
  have run : Runs step AnyStep init slotReused s := runs_of_exec (by decide)
  have hused : UsedUnder s twoSpecified specifiedCfg 0 :=
    ⟨1, ⟨"b", false, some 0, 0, 1⟩, rfl, rfl, rfl⟩
  have hroom : HasRoom s 0 := ⟨⟨7, 0x800, 9, 1, 1⟩, rfl, by decide⟩
  obtain ⟨s', hstep, hshares⟩ := hall slotReused s 0 e twoSpecified specifiedCfg (some 8) run rfl
    rfl rfl rfl ⟨0, hused, hroom⟩
  have hslot : addSingleTaskPool s 0 e specifiedCfg (some 8) = s' := by
    have hcomputed : step s (.addTaskPool 0 specifiedCfg twoSpecified (some 8)) =
        some (addSingleTaskPool s 0 e specifiedCfg (some 8)) := by decide
    exact some.inj (hcomputed.symm.trans hstep)
  rw [← hslot] at hshares
  exact not_sharesPool_single (accounted_run run) rfl specifiedCfg (some 8) hshares

end Protoc.Samgr.Pool
