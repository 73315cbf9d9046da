import TibeeCompare.Build.TibeeBuild
import TibeeCompare.BuildBlocks.Lockstep

/-!
Runs of a build.

Two builds from the same notifications go on side by side, if what relates their services is kept
by the blocks. A build next to itself gives the invariants of the services, which may depend on
the time.
-/

namespace TibeeCompare.Build

open BuildBlocks Executions

def Notification.timestamp? : Notification → Option UInt64
  | timestamp ts => some ts
  | _ => none

/-- The clock of a trace does not go back. -/
def Ascending (notifications : List Notification) : Prop :=
  (notifications.filterMap Notification.timestamp?).Pairwise (· ≤ ·)

instance (notifications : List Notification) : Decidable (Ascending notifications) :=
  inferInstanceAs (Decidable (List.Pairwise _ _))

theorem ok_of_toOption {ε α : Type} {x : Except ε α} {a : α} (h : x.toOption = some a) :
    x = .ok a := by
  cases x with
  | error e => cases h
  | ok b =>
      cases h
      rfl

/-! ### Two builds -/

/-- The builds are the same but for their services, which are related. -/
structure SameBuild
    (r : UInt64 → UInt64 → Except Crash Services → Except Crash Services → Prop)
    (build build' : TibeeBuild) : Prop where
  punchBlock : build'.punchBlock = build.punchBlock
  specialBlock : build'.specialBlock = build.specialBlock
  buildBlock : Lockstep r build.buildBlock build'.buildBlock

section Runs

variable {setting : Setting} {c c' : Components (Except Crash Services)}
  {r : UInt64 → UInt64 → Except Crash Services → Except Crash Services → Prop}
  {build build' : TibeeBuild} {notification : Notification}

/-- What the other blocks do with a notification keeps the relation. -/
def Serves (setting : Setting)
    (r : UInt64 → UInt64 → Except Crash Services → Except Crash Services → Prop)
    (notification : Notification) : Prop :=
  ∀ now cutoff s s', r now cutoff s s' →
    r now cutoff (s.bind (notification.serve setting)) (s'.bind (notification.serve setting))

@[simp] theorem onBegin_ts (punchBlock : ExecutionBlocks.PunchBlock) (b : ExecutionsBuilder)
    (tid : UInt32) (threadName : Bytes) : (punchBlock.onBegin b tid threadName).ts = b.ts := by
  unfold ExecutionBlocks.PunchBlock.onBegin
  split <;> rfl

@[simp] theorem onEnd_ts (punchBlock : ExecutionBlocks.PunchBlock) (b : ExecutionsBuilder)
    (tid : UInt32) (threadName : Bytes) (stateTs : UInt64) :
    (punchBlock.onEnd b tid threadName stateTs).2.ts = b.ts := by
  rcases punchBlock.onEnd_cases b tid threadName stateTs with ⟨-, heq⟩ | ⟨-, heq, -⟩
  · rw [heq]
  · rw [heq, endExecution_ts]

theorem SameBuild.onNotification (hc : AnswerAlike c c' r) (h : SameBuild r build build')
    (hserves : Serves setting r notification)
    (hts : ∀ ts, notification.timestamp? = some ts → build.buildBlock.executionsBuilder.ts ≤ ts) :
    SameBuild r (build.onNotification setting c notification)
      (build'.onNotification setting c' notification) := by
  have hserved := hserves _ _ _ _ h.buildBlock.components
  cases notification with
  | timestamp ts =>
      exact ⟨h.punchBlock, h.specialBlock, h.buildBlock.onTimestamp hc (hts ts rfl)⟩
  | executionBegin tid threadName =>
      unfold TibeeBuild.onNotification
      rw [h.punchBlock, h.buildBlock.executionsBuilder]
      exact ⟨rfl, h.specialBlock, h.buildBlock.withExecutions (onBegin_ts _ _ _ _)⟩
  | executionEnd tid threadName stateTs =>
      unfold TibeeBuild.onNotification
      rw [h.punchBlock, h.buildBlock.executionsBuilder]
      exact ⟨rfl, h.specialBlock, h.buildBlock.withExecutions (onEnd_ts _ _ _ _ _)⟩
  | critical _ | profiler _ _ | stateAttribute _ _ | schedSwitch _ _ _ | schedTtwu _ | ust _
  | threadNames _ => exact ⟨h.punchBlock, h.specialBlock, h.buildBlock.withComponents hserved⟩
  | special event =>
      exact ⟨h.punchBlock, congrArg (·.onEvent event) h.specialBlock, h.buildBlock⟩

theorem onNotification_ts (c : Components (Except Crash Services)) (build : TibeeBuild)
    (notification : Notification) :
    (build.onNotification setting c notification).buildBlock.executionsBuilder.ts =
        build.buildBlock.executionsBuilder.ts ∨
      notification.timestamp? =
        some (build.onNotification setting c notification).buildBlock.executionsBuilder.ts := by
  cases notification with
  | timestamp ts =>
      have hts := Lockstep.onTimestamp_ts c build.buildBlock ts
      split at hts
      · exact .inl hts
      · exact .inr (congrArg some hts.symm)
  | executionBegin tid threadName => exact .inl (onBegin_ts _ _ _ _)
  | executionEnd tid threadName stateTs => exact .inl (onEnd_ts _ _ _ _ _)
  | critical _ | profiler _ _ | stateAttribute _ _ | schedSwitch _ _ _ | schedTtwu _ | ust _
  | special _ | threadNames _ => exact .inl rfl

theorem SameBuild.foldl_step (hc : AnswerAlike c c' r) (args : Arguments)
    {notifications : List Notification} (hclock : Ascending notifications)
    (hserves : ∀ notification ∈ notifications, Serves setting r notification)
    (hts : ∀ ts ∈ notifications.filterMap Notification.timestamp?,
      build.buildBlock.executionsBuilder.ts ≤ ts)
    (h : SameBuild r build build') :
    SameBuild r (notifications.foldl (TibeeBuild.step setting c args) build)
      (notifications.foldl (TibeeBuild.step setting c' args) build') := by
  induction notifications generalizing build build' with
  | nil => exact h
  | cons notification notifications ih =>
      rw [List.forall_mem_cons] at hserves
      have hclock' : Ascending notifications :=
        List.Pairwise.sublist ((List.sublist_cons_self _ _).filterMap _) hclock
      have hts' : ∀ ts ∈ notifications.filterMap Notification.timestamp?,
          build.buildBlock.executionsBuilder.ts ≤ ts := fun ts hmem =>
        hts ts (((List.sublist_cons_self _ _).filterMap _).subset hmem)
      rw [List.foldl_cons, List.foldl_cons]
      unfold TibeeBuild.step
      by_cases hblock : notification.block ∈ args.blocks
      · rw [if_pos hblock, if_pos hblock]
        refine ih hclock' hserves.2 ?_ (h.onNotification hc hserves.1 fun ts hnow =>
          hts ts (List.mem_filterMap.mpr ⟨notification, List.mem_cons_self, hnow⟩))
        intro ts hmem
        rcases onNotification_ts c build notification with hsame | hnow
        · rw [hsame]
          exact hts' ts hmem
        · rw [Ascending, List.filterMap_cons_some hnow] at hclock
          exact (List.pairwise_cons.mp hclock).1 ts hmem
      · rw [if_neg hblock, if_neg hblock]
        exact ih hclock' hserves.2 hts' h

end Runs

/-! ### Invariants of one build -/

/-- A property of the services at a time is kept by all that the blocks do. -/
structure KeptBy (setting : Setting) (inv : UInt64 → Services → Prop) : Prop where
  setTimestamp {now ts : UInt64} {services : Services} (h : inv now services) (hle : now ≤ ts) :
    inv ts (services.setTimestamp ts.toNat)
  terminate {now : UInt64} {services : Services} (h : inv now services) :
    inv now services.terminate
  cleanup {now ts : UInt64} {services services' : Services} (h : inv now services)
    (hrun : services.cleanup setting ts.toNat = .ok services') : inv now services'
  withDatabase {now : UInt64} {services : Services} (h : inv now services)
    (database : Db.Database) : inv now { services with database }
  afterExtraction {now : UInt64} {services : Services} (h : inv now services)
    (extractor : Extractor) : inv now (services.afterExtraction extractor)
  serve {now : UInt64} {services services' : Services} (h : inv now services)
    {notification : Notification} (hrun : notification.serve setting services = .ok services') :
    inv now services'

/-- The services have the property, unless something went wrong. -/
def Alone (inv : UInt64 → Services → Prop) (now : UInt64) (_cutoff : UInt64)
    (s s' : Except Crash Services) : Prop :=
  s' = s ∧ ∀ services, s = .ok services → inv now services

section Invariants

variable {setting : Setting} {inv : UInt64 → Services → Prop} {now cutoff now' cutoff' : UInt64}
  {s s' : Except Crash Services}

theorem Alone.bind (h : Alone inv now cutoff s s') {f : Services → Except Crash Services}
    (hf : ∀ services services', inv now services → f services = .ok services' →
      inv now' services') : Alone inv now' cutoff' (s.bind f) (s'.bind f) := by
  obtain ⟨rfl, hinv⟩ := h
  refine ⟨rfl, fun services' hrun => ?_⟩
  obtain ⟨services, rfl, hrun⟩ := Runs.bind_eq_ok.mp hrun
  exact hf services services' (hinv services rfl) hrun

/-- The path, the samples and the metrics of an execution that is saved. -/
theorem Services.extract_runs {services services' : Services} {execution : Execution}
    {metrics samples : IdMap}
    (hrun : services.extract setting execution = .ok ((metrics, samples), services')) :
    ∃ path left extractor,
      Critical.computeCriticalPath services.criticalBlock.graph setting.fuel
        execution.startTs.toNat execution.endTs.toNat execution.startThread.toNat = .ok path ∧
      ((services.sources setting).extractStacks setting.fuel setting.depth path).runOn
        (services.extractor execution) = (.ok left, extractor) ∧
      (let measured := (extractMetrics path services.recorder.stateHistory
        setting.counterKey extractor.execution).1
      metrics = measured.metrics ∧ samples = measured.samples) ∧
      services' = services.afterExtraction extractor := by
  unfold Services.extract at hrun
  split at hrun
  · cases hrun
  · next path hpath =>
      split at hrun
      · cases hrun
      · next left extractor hstacks =>
          cases hrun
          exact ⟨path, left, extractor, hpath, hstacks, ⟨rfl, rfl⟩, rfl⟩

/-- An extraction changes the database and the cache of concatenations only. -/
theorem Services.extract_ok {services services' : Services} {execution : Execution}
    {maps : IdMap × IdMap} (hrun : services.extract setting execution = .ok (maps, services')) :
    ∃ extractor, services' = services.afterExtraction extractor := by
  obtain ⟨-, -, extractor, -, -, -, hservices⟩ := Services.extract_runs hrun
  exact ⟨extractor, hservices⟩

theorem Services.addExecution_ok {services services' : Services} {execution : Execution}
    (hrun : services.addExecution execution = .ok services') :
    ∃ database, services' = { services with database } := by
  unfold Services.addExecution at hrun
  split at hrun
  · cases hrun
  · cases hrun
    exact ⟨_, rfl⟩

theorem KeptBy.answerAlike (hkept : KeptBy setting inv) :
    AnswerAlike (components setting) (components setting) (Alone inv) where
  setTimestamp h hle := h.bind fun _ _ hinv hrun => by
    cases hrun
    exact hkept.setTimestamp hinv hle
  terminate h := h.bind fun _ _ hinv hrun => by
    cases hrun
    exact hkept.terminate hinv
  cleanup h _ := h.bind fun _ _ hinv hrun => hkept.cleanup hinv hrun
  extract {now cutoff s s' execution} h _ := by
    obtain ⟨rfl, hinv⟩ := h
    refine ⟨rfl, rfl, fun services' hrun => ?_⟩
    cases s' with
    | error crash => cases hrun
    | ok services =>
        simp only [components, Except.bind] at hrun
        cases hextract : services.extract setting execution with
        | error crash => rw [hextract] at hrun; cases hrun
        | ok result =>
            rw [hextract] at hrun
            cases hrun
            obtain ⟨extractor, hafter⟩ := Services.extract_ok hextract
            rw [hafter]
            exact hkept.afterExtraction (hinv services rfl) extractor
  addExecution execution h := h.bind fun services _ hinv hrun => by
    obtain ⟨database, rfl⟩ := Services.addExecution_ok hrun
    exact hkept.withDatabase hinv database
  order _ := rfl

theorem KeptBy.serves (hkept : KeptBy setting inv) (notification : Notification) :
    Serves setting (Alone inv) notification :=
  fun _ _ _ _ h => h.bind fun _ _ hinv hrun => hkept.serve hinv hrun

/-- The property holds in every state that a build reaches. -/
theorem KeptBy.foldl_step (hkept : KeptBy setting inv) (args : Arguments) {db : Db.Database}
    (hinitial : inv 0 { database := Db.reopen db }) {notifications : List Notification}
    (hclock : Ascending notifications) :
    let build := notifications.foldl (TibeeBuild.step setting (components setting) args)
      (.initial args db)
    ∀ services, build.buildBlock.components = .ok services →
      inv build.buildBlock.executionsBuilder.ts services := by
  have hstart : SameBuild (Alone inv) (.initial args db) (.initial args db) := by
    refine ⟨rfl, rfl, lockstep_initial args.onlyShows ⟨rfl, ?_⟩⟩
    rintro _ ⟨⟩
    exact hinitial
  have hsame := hstart.foldl_step hkept.answerAlike args hclock
    (fun notification _ => hkept.serves notification)
    fun ts _ => UInt64.le_iff_toNat_le.mpr (Nat.zero_le _)
  exact hsame.buildBlock.components.2

end Invariants

end TibeeCompare.Build
