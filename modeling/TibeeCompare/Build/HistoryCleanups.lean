import TibeeCompare.Build.Runs
import TibeeCompare.Executions.Locality
import TibeeCompare.StateBlocks.CpuCounters

/-!
The cleanups of the state history are not seen in the database.

A build that cleans everything but the state history runs in lockstep with the one of the
source. Their histories answer alike from the last cutoff on, and an execution that is saved
starts behind it; its critical path does as well, but for the segments of the network thread,
which no notification is about.
-/

namespace TibeeCompare.Build

open BuildBlocks Critical CriticalBlocks Db Executions State StateBlocks

/-- A build that does not clean its state history. -/
def keepingHistory (setting : Setting) : Components (Except Crash Services) :=
  { components setting with
    cleanup := fun ts services => services.bind fun services =>
      (services.cleanup setting ts.toNat).map
        (·.setStateHistory services.recorder.stateHistory) }

/-! ### Histories without the network thread -/

/-- The counters of the network thread have keys of their own. -/
def Setting.KeysApart (setting : Setting) : Prop :=
  ∀ tid counter counter', setting.counterKey tid counter =
    setting.counterKey kNetworkThread counter' → tid = kNetworkThread

/-- The notification is not about the network thread. -/
def Notification.SparesNetwork (setting : Setting) : Notification → Prop
  | stateAttribute key _ => key ≠ setting.currentCpuKey kNetworkThread
  | schedSwitch _ prevTid nextTid => prevTid ≠ kNetworkThread ∧ nextTid ≠ kNetworkThread
  | schedTtwu event | ust event => event.threadForEvent ≠ kNetworkThread
  | timestamp _ | executionBegin _ _ | executionEnd _ _ _ | critical _ | profiler _ _
  | special _ | threadNames _ => True

/-- What is notified to the blocks that fill the state history. -/
def Notification.state? : Notification → Option StateBlocks.Notification
  | stateAttribute key value => some (.state key value)
  | schedSwitch event prevTid nextTid => some (.schedSwitch event prevTid nextTid)
  | schedTtwu event => some (.schedTtwu event)
  | ust event => some (.ust event)
  | timestamp _ | executionBegin _ _ | executionEnd _ _ _ | critical _ | profiler _ _
  | special _ | threadNames _ => none

/-- A value or a reading of an ordinary thread. -/
def Setting.Spares (setting : Setting) : State.Op → Prop
  | .setUIntegerValue key _ => key ≠ setting.currentCpuKey kNetworkThread
  | .setPerfCounterCpuBaseValue key _ | .setPerfCounterCpuValue key _
  | .setPerfCounterThreadValue key _ => ∀ counter, key ≠ setting.counterKey kNetworkThread counter
  | .setTimestamp _ | .setULongValue _ _ | .cleanup _ => False

structure Unheard (setting : Setting) (h : StateHistory) : Prop where
  cpu : h.uIntegerHistory (setting.currentCpuKey kNetworkThread) = []
  counter : ∀ counter, h.uLongHistory (setting.counterKey kNetworkThread counter) = []

section Histories

variable {setting : Setting} {h h' : StateHistory} {now cutoff : ℕ}

theorem Unheard.record (hu : Unheard setting h) {key : AttributeKey}
    (hkey : ∀ counter, key ≠ setting.counterKey kNetworkThread counter) (source : Source)
    (reading value : UInt64) : Unheard setting (h.record key source reading value) := by
  refine ⟨hu.cpu, fun counter => ?_⟩
  rw [StateHistory.uLongHistory_record, Function.update_of_ne (hkey counter).symm]
  exact hu.counter counter

theorem Unheard.run (hu : Unheard setting h) {op : State.Op} (hop : setting.Spares op)
    (hrun : op.run h = some h') : Unheard setting h' := by
  cases op with
  | setUIntegerValue key value =>
      cases hrun
      refine ⟨?_, hu.counter⟩
      rw [← hu.cpu]
      exact Function.update_of_ne (Ne.symm hop) _ _
  | setPerfCounterCpuBaseValue key value | setPerfCounterCpuValue key value
  | setPerfCounterThreadValue key value =>
      rw [Op.run_reading rfl hrun]
      exact hu.record hop _ _ _
  | setTimestamp _ | setULongValue _ _ | cleanup _ => cases hop

/-- `h'` is `h` after cleanups, and neither has heard of the network thread. -/
structure Trails (setting : Setting) (now cutoff : ℕ) (h h' : StateHistory) : Prop where
  follows : State.Follows cutoff h h'
  unheard : Unheard setting h
  ts_le : h.ts ≤ now

theorem Trails.alikeFrom (ht : Trails setting now cutoff h h') {t : ℕ} (hle : cutoff ≤ t)
    (currentState : CurrentState) (hcpu : currentState.currentCpuKey = setting.currentCpuKey) :
    AlikeFrom t currentState setting.counterKey h h' where
  agree t' hle' := ht.follows.agreeFrom (hle.trans hle')
  noCpu ts := by
    have htrimmed := (ht.follows.uInteger _).trims.eq_nil_iff.mpr ht.unheard.cpu
    rw [hcpu, StateHistory.getUIntegerValue, StateHistory.getUIntegerValue, htrimmed,
      ht.unheard.cpu]
    exact ⟨rfl, rfl⟩
  noCounter counter ts := by
    have htrimmed := (ht.follows.uLongHistory_eq_nil _).mpr (ht.unheard.counter counter)
    rw [StateHistory.getULongValue, StateHistory.getULongValue, htrimmed,
      ht.unheard.counter counter]
    exact ⟨rfl, rfl⟩

/-- Calls on the two histories return both or not at all. -/
theorem Trails.runAll (ht : Trails setting now cutoff h h') {ops : List State.Op}
    (hops : ∀ op ∈ ops, setting.Spares op) :
    Option.Rel (Trails setting now cutoff) (State.runAll h ops) (State.runAll h' ops) := by
  induction ops generalizing h h' with
  | nil => exact .some ht
  | cons op ops ih =>
      rw [List.forall_mem_cons] at hops
      have hcutoff : op.cutoff? = none := by
        cases op <;> first | rfl | exact hops.1.elim
      have hclock : op.timestamp? = none := by
        cases op <;> first | rfl | exact hops.1.elim
      have hstep := ht.follows.run hcutoff fun ts hts => by
        rw [hclock] at hts
        cases hts
      rw [runAll_cons, runAll_cons]
      refine Runs.rel_bind hstep fun next next' hrun hfollows => ih ?_ hops.2
      refine ⟨hfollows, ht.unheard.run hops.1 hrun, ?_⟩
      rw [Op.run_ts hrun, hclock]
      exact ht.ts_le

/-- What a loop over counters calls. -/
theorem mem_forCounters {event : EventValue} {type : String} {counters : List String}
    {call : String → UInt64 → List State.Op} {op : State.Op}
    (hop : op ∈ PerfCountersBlock.forCounters event type counters call) :
    ∃ counter value, op ∈ call counter value := by
  obtain ⟨counter, -, hop⟩ := List.mem_flatMap.mp hop
  split at hop
  · cases hop
  · next value hvalue => exact ⟨counter, value, hop⟩

theorem Setting.KeysApart.ne (hkeys : setting.KeysApart) {tid : ℕ} (htid : tid ≠ kNetworkThread)
    (counter counter' : String) :
    setting.counterKey tid counter ≠ setting.counterKey kNetworkThread counter' :=
  fun hkey => htid (hkeys _ _ _ hkey)

/-- What the two blocks call the history with. -/
theorem spares_calls (hkeys : setting.KeysApart) {notification : Notification}
    (hspares : notification.SparesNetwork setting) (block : PerfCountersBlock) :
    ∀ stateNotification, notification.state? = some stateNotification →
      ∀ op ∈ (stateNotification.calls setting.counterKey block).2, setting.Spares op := by
  intro stateNotification hstate op hop
  cases notification with
  | stateAttribute key value =>
      cases hstate
      rw [List.mem_singleton.mp hop]
      exact hspares
  | schedSwitch event prevTid nextTid =>
      cases hstate
      obtain ⟨counter, value, hop⟩ := mem_forCounters hop
      rcases List.mem_cons.mp hop with rfl | hop
      · exact hkeys.ne hspares.1 counter
      · rw [List.mem_singleton.mp hop]
        exact hkeys.ne hspares.2 counter
  | schedTtwu event =>
      cases hstate
      obtain ⟨counter, value, hop⟩ := mem_forCounters hop
      rw [List.mem_singleton.mp hop]
      exact hkeys.ne hspares counter
  | ust event =>
      cases hstate
      obtain ⟨counter, value, hop⟩ := mem_forCounters hop
      rw [List.mem_singleton.mp hop]
      exact hkeys.ne hspares counter
  | timestamp _ | executionBegin _ _ | executionEnd _ _ _ | critical _ | profiler _ _
  | special _ | threadNames _ => cases hstate

end Histories

/-! ### The services -/

/-- The services of the build that keeps its history, with the history of the other one. -/
structure Served (setting : Setting) (now cutoff : ℕ) (services : Services)
    (h' : StateHistory) : Prop where
  history : Trails setting now cutoff services.recorder.stateHistory h'
  block : services.criticalBlock.WellLaid
  graphTs_le : services.criticalBlock.graph.ts ≤ now

/-- Both builds went wrong in the same way, or their services differ in the history. -/
inductive Unseen (setting : Setting) (now cutoff : UInt64) :
    Except Crash Services → Except Crash Services → Prop
  | crashed {crash : Crash} : Unseen setting now cutoff (.error crash) (.error crash)
  | served {services : Services} {h' : StateHistory}
      (h : Served setting now.toNat cutoff.toNat services h') :
      Unseen setting now cutoff (.ok services) (.ok (services.setStateHistory h'))

section Services

variable {setting : Setting} {now cutoff now' cutoff' : UInt64} {services : Services}
  {h' : StateHistory}

theorem Unseen.bind {s s' : Except Crash Services} (h : Unseen setting now cutoff s s')
    {f f' : Services → Except Crash Services}
    (hnext : ∀ services h', Served setting now.toNat cutoff.toNat services h' →
      Unseen setting now' cutoff' (f services) (f' (services.setStateHistory h'))) :
    Unseen setting now' cutoff' (s.bind f) (s'.bind f') := by
  cases h with
  | crashed => exact .crashed
  | served h => exact hnext _ _ h

theorem Served.setTimestamp {now cutoff : ℕ} (h : Served setting now cutoff services h') {ts : ℕ}
    (hle : now ≤ ts) :
    Served setting ts cutoff (services.setTimestamp ts) (h'.setTimestamp ts) where
  history :=
    { follows := h.history.follows.setTimestamp (h.history.ts_le.trans hle)
      unheard := ⟨h.history.unheard.cpu, h.history.unheard.counter⟩
      ts_le := le_rfl }
  block := h.block.setTimestamp (h.graphTs_le.trans hle)
  graphTs_le := le_rfl

/-- A cleanup of the graph goes wrong in both builds or in none. -/
theorem Served.cleanup (h : Served setting now.toNat cutoff.toNat services h') {ts : UInt64}
    (hle : cutoff ≤ ts) :
    Unseen setting now ts
      ((services.cleanup setting ts.toNat).map (·.setStateHistory services.recorder.stateHistory))
      ((services.setStateHistory h').cleanup setting ts.toNat) := by
  unfold Services.cleanup
  dsimp only [Services.setStateHistory]
  cases hclean : services.criticalBlock.graph.cleanup ts.toNat
      (setting.graphOrder services.criticalBlock.graph) with
  | error fault => exact .crashed
  | ok graph =>
      obtain ⟨hblock, hts⟩ := h.block.cleanup hclean
      have hfollows := h.history.follows.cleanup ts.toNat
      rw [Nat.max_eq_right (UInt64.le_iff_toNat_le.mp hle)] at hfollows
      exact .served ⟨⟨hfollows, h.history.unheard, h.history.ts_le⟩, hblock,
        hts.le.trans h.graphTs_le⟩

/-- The extraction for an execution behind the cutoff. -/
theorem Served.extract {now cutoff : ℕ} (h : Served setting now cutoff services h')
    {execution : Execution} (hle : cutoff ≤ execution.startTs.toNat) :
    (services.setStateHistory h').extract setting execution =
      (services.extract setting execution).map fun result =>
        (result.1, result.2.setStateHistory h') := by
  unfold Services.extract
  dsimp only [Services.setStateHistory]
  cases hpath : computeCriticalPath services.criticalBlock.graph setting.fuel
      execution.startTs.toNat execution.endTs.toNat execution.startThread.toNat with
  | error fault => rfl
  | ok path =>
      have halike := h.history.alikeFrom hle (services.sources setting).currentState rfl
      have hfrom := pathFrom_of_laid h.block.laid hpath
      have hstacks := extractStacks_alike h.block.laid halike setting.fuel setting.depth hfrom
      have hsources : (services.setStateHistory h').sources setting =
          (services.sources setting).withHistory h' := rfl
      rw [Services.setStateHistory] at hsources
      have hextractor : Services.extractor { services with
          recorder := { services.recorder with stateHistory := h' } } execution =
            services.extractor execution := rfl
      dsimp only
      rw [hsources, hstacks, hextractor]
      cases hrun : ((services.sources setting).extractStacks setting.fuel setting.depth
          path).runOn (services.extractor execution) with
      | mk result extractor =>
          cases result with
          | error fault => rfl
          | ok rest =>
              dsimp only
              rw [extractMetrics_alike halike hfrom]
              rfl

theorem Served.addExecution (h : Served setting now.toNat cutoff.toNat services h')
    (execution : Execution) :
    Unseen setting now cutoff (services.addExecution execution)
      ((services.setStateHistory h').addExecution execution) := by
  unfold Services.addExecution
  dsimp only [Services.setStateHistory]
  split
  · exact .crashed
  · exact .served ⟨h.history, h.block, h.graphTs_le⟩

/-! ### The other blocks -/

theorem Served.onCriticalEvent (h : Served setting now.toNat cutoff.toNat services h')
    (event : CriticalBlocks.Event) :
    Unseen setting now cutoff (services.onCriticalEvent setting event)
      ((services.setStateHistory h').onCriticalEvent setting event) := by
  unfold Services.onCriticalEvent
  dsimp only [Services.setStateHistory]
  cases hevent : services.criticalBlock.onEvent setting.kInvalidThread event with
  | error fault => exact .crashed
  | ok criticalBlock =>
      obtain ⟨hblock, hts⟩ := h.block.onEvent hevent
      exact .served ⟨h.history, hblock, hts.le.trans h.graphTs_le⟩

theorem Served.onProfilerEvent (h : Served setting now.toNat cutoff.toNat services h') (tid : ℕ)
    (event : StacksBlocks.ProfilerEvent) :
    Unseen setting now cutoff (services.onProfilerEvent tid event)
      ((services.setStateHistory h').onProfilerEvent tid event) := by
  unfold Services.onProfilerEvent
  dsimp only [Services.setStateHistory]
  split
  · exact .crashed
  · exact .served ⟨h.history, h.block, h.graphTs_le⟩

theorem Served.onStateNotification (h : Served setting now.toNat cutoff.toNat services h')
    {notification : StateBlocks.Notification}
    (hspares : ∀ op ∈ (notification.calls setting.counterKey services.recorder.block).2,
      setting.Spares op) :
    Unseen setting now cutoff (services.onStateNotification setting notification)
      ((services.setStateHistory h').onStateNotification setting notification) := by
  have hruns := h.history.runAll hspares
  unfold Services.onStateNotification Recorder.step
  dsimp only [Services.setStateHistory]
  generalize notification.calls setting.counterKey services.recorder.block = called at hruns ⊢
  obtain ⟨block, calls⟩ := called
  dsimp only at hruns ⊢
  generalize State.runAll services.recorder.stateHistory calls = ran at hruns ⊢
  generalize State.runAll h' calls = ran' at hruns ⊢
  cases hruns with
  | none => exact .crashed
  | some htrails => exact .served ⟨htrails, h.block, h.graphTs_le⟩

theorem Served.serve (hkeys : setting.KeysApart)
    (h : Served setting now.toNat cutoff.toNat services h') {notification : Notification}
    (hspares : notification.SparesNetwork setting) :
    Unseen setting now cutoff (notification.serve setting services)
      (notification.serve setting (services.setStateHistory h')) := by
  have hcalls := spares_calls hkeys hspares services.recorder.block
  cases notification with
  | critical event => exact h.onCriticalEvent event
  | profiler tid event => exact h.onProfilerEvent tid event
  | stateAttribute key value => exact h.onStateNotification (hcalls _ rfl)
  | schedSwitch event prevTid nextTid => exact h.onStateNotification (hcalls _ rfl)
  | schedTtwu event => exact h.onStateNotification (hcalls _ rfl)
  | ust event => exact h.onStateNotification (hcalls _ rfl)
  | threadNames currentNameForThread =>
      exact .served ⟨h.history, h.block, h.graphTs_le⟩
  | timestamp _ | executionBegin _ _ | executionEnd _ _ _ | special _ => exact .served h

theorem answerAlike (setting : Setting) :
    AnswerAlike (keepingHistory setting) (components setting) (Unseen setting) where
  setTimestamp h hle := h.bind fun _ _ hserved =>
    .served (hserved.setTimestamp (UInt64.le_iff_toNat_le.mp hle))
  terminate h := h.bind fun _ _ hserved =>
    .served ⟨hserved.history, hserved.block, hserved.graphTs_le⟩
  cleanup h hle := h.bind fun _ _ hserved => hserved.cleanup hle
  extract {now cutoff s s' execution} h hle := by
    cases h with
    | crashed => exact ⟨rfl, .crashed⟩
    | @served services h' h =>
        have hextract := h.extract (UInt64.le_iff_toNat_le.mp hle)
        simp only [components, keepingHistory, Except.bind, hextract]
        cases hrun : services.extract setting execution with
        | error crash => exact ⟨rfl, .crashed⟩
        | ok result =>
            obtain ⟨maps, services'⟩ := result
            obtain ⟨extractor, rfl⟩ := Services.extract_ok hrun
            exact ⟨rfl, .served ⟨h.history, h.block, h.graphTs_le⟩⟩
  addExecution execution h := h.bind fun _ _ hserved => hserved.addExecution execution
  order _ := rfl

end Services

/-! ### Whole runs -/

section Runs

variable {setting : Setting}

theorem serves_unseen (hkeys : setting.KeysApart) {notification : Notification}
    (hspares : notification.SparesNetwork setting) :
    Serves setting (Unseen setting) notification :=
  fun _ _ _ _ h => h.bind fun _ _ hserved => hserved.serve hkeys hspares

theorem trails_empty (setting : Setting) : Trails setting 0 0 {} {} :=
  ⟨follows_empty, ⟨rfl, fun _ => rfl⟩, le_rfl⟩

theorem sameBuild_initial (setting : Setting) (args : Arguments) (db : Database) :
    SameBuild (Unseen setting) (.initial args db) (.initial args db) :=
  ⟨rfl, rfl, lockstep_initial args.onlyShows (.served ⟨trails_empty setting,
    CriticalBlock.wellLaid_initial, le_rfl⟩)⟩

end Runs

/-- The services of both builds have the same database, or both builds went wrong in the same
way. -/
def SameDatabase : Except Crash Services → Except Crash Services → Prop
  | .ok services, .ok services' => services'.database = services.database
  | .error crash, .error crash' => crash' = crash
  | .ok _, .error _ | .error _, .ok _ => False

theorem Unseen.sameDatabase {setting : Setting} {now cutoff : UInt64}
    {s s' : Except Crash Services} (h : Unseen setting now cutoff s s') :
    SameDatabase s s' := by
  cases h with
  | crashed => exact rfl
  | served h => exact rfl

/-- When nothing is notified about the network thread, a build makes the same calls, prints the
same and leaves the same database as one that never cleans its state history: cleaning it changes
no sample and no metric of an execution. -/
theorem run_historyCleanups {setting : Setting} (hkeys : setting.KeysApart) (args : Arguments)
    (db : Database) {notifications : List Notification} (hclock : Ascending notifications)
    (hspares : ∀ notification ∈ notifications, notification.SparesNetwork setting) :
    let cleaned := TibeeBuild.run setting args db notifications
    let kept := TibeeBuild.runWith setting (keepingHistory setting) args db notifications
    cleaned.punchBlock = kept.punchBlock ∧ cleaned.specialBlock = kept.specialBlock ∧
      cleaned.buildBlock.calls = kept.buildBlock.calls ∧
      cleaned.buildBlock.numExecutions = kept.buildBlock.numExecutions ∧
      SameDatabase kept.buildBlock.components cleaned.buildBlock.components := by
  have hsame := (sameBuild_initial setting args db).foldl_step (answerAlike setting) args hclock
    (fun notification hmem => serves_unseen hkeys (hspares notification hmem))
    fun ts _ => UInt64.le_iff_toNat_le.mpr (Nat.zero_le _)
  have hend := hsame.buildBlock.onEnd (answerAlike setting)
  exact ⟨hsame.punchBlock, hsame.specialBlock, hend.calls, hend.numExecutions,
    hend.components.sameDatabase⟩

/-- Keys that are numbers of their paths, and hash tables of a few threads. -/
def pathSetting : Setting where
  kInvalidThread := 4294967295
  currentCpuKey tid := pathKey tid "cur_cpu"
  currentThreadKey cpu := pathKey cpu.toNat "cur_thread"
  counterKey := pathKey
  graphOrder graph := graph.tids
  executionsOrder := [7]
  fuel := 100
  depth := 2

/-- An execution on each side of a cleanup, with readings of a counter. -/
def twoSaves : List Notification :=
  [.timestamp 1, .critical (.threadStatus 7 (some .runUsermode)),
    .stateAttribute (pathKey 7 "cur_cpu") (some 0), .schedSwitch (csEvent 0 10) 0 7,
    .executionBegin 7 [], .timestamp 9000000000, .schedSwitch (csEvent 0 60) 7 0,
    .critical (.threadStatus 7 (some .waitForCpu)), .executionEnd 7 [] 9000000000,
    .timestamp 14000000000, .schedSwitch (csEvent 0 70) 0 7,
    .critical (.threadStatus 7 (some .runUsermode)), .executionBegin 7 [],
    .timestamp 20000000000, .schedSwitch (csEvent 0 90) 7 0,
    .critical (.threadStatus 7 (some .waitForCpu)), .executionEnd 7 [] 20000000000,
    .timestamp 27000000000, .stateAttribute (pathKey 7 "cur_cpu") none]

theorem run_historyCleanups_twoSaves :
    (TibeeBuild.run pathSetting {} {} twoSaves).buildBlock.calls =
      (TibeeBuild.runWith pathSetting (keepingHistory pathSetting) {} {}
        twoSaves).buildBlock.calls := by
  have hkeys : pathSetting.KeysApart := fun tid counter counter' hkey =>
    (distinguishes_pathKey _ _ _ _ hkey).1
  have hnetwork : 7 ≠ kNetworkThread ∧ 0 ≠ kNetworkThread := by decide
  have hcpu : pathKey 7 "cur_cpu" ≠ pathSetting.currentCpuKey kNetworkThread := fun hkey =>
    hnetwork.1 (distinguishes_pathKey _ _ _ _ hkey).1
  have hclock : Ascending twoSaves := by decide
  have hspares : ∀ notification ∈ twoSaves, notification.SparesNetwork pathSetting := by
    simp only [twoSaves, List.forall_mem_cons, Notification.SparesNetwork, List.not_mem_nil,
      false_implies, implies_true, and_true, true_and]
    exact ⟨hcpu, hnetwork.symm, hnetwork, hnetwork.symm, hnetwork, hcpu⟩
  exact (run_historyCleanups hkeys {} {} hclock hspares).2.2.1

end TibeeCompare.Build
