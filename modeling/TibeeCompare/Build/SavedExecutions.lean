import TibeeCompare.Build.HistoryCleanups
import TibeeCompare.BuildBlocks.Handovers
import TibeeCompare.Executions.StoredSamples

/-!
What a build leaves in its database.

The blocks of a build only add names and stacks to the database, and `BuildBlock` adds the
executions. So a history accounts for the database of a build, with the executions that were
handed over in their order, and their samples are of stacks that are there. The stacks of the
threads are there as well, so that none is missing when an execution is measured.
-/

namespace TibeeCompare.Build

open BuildBlocks Critical Db ExecutionBlocks Executions Ghosts Stacks StacksBlocks

/-! ### The stacks of threads -/

/-- All stacks that threads had are there. -/
def BuilderStored (history : List Db.Op) (b : StacksBuilder) : Prop :=
  ∀ thread, ∀ e ∈ b.stacksOf thread, WhileFits (StoredIn e.stackId) history

section Stacks

variable {history history' : List Db.Op} {b : StacksBuilder}

theorem builderStored_empty (history : List Db.Op) : BuilderStored history {} := by
  rintro thread e ⟨⟩

theorem BuilderStored.of_grows (h : BuilderStored history b)
    (hgrows : Grows (tables history) (tables history')) : BuilderStored history' b :=
  fun thread e he => (h thread e he).of_grows hgrows StoredIn.of_grows

theorem BuilderStored.updateThread (h : BuilderStored history b) {thread : ℕ}
    {entries : List StackWrapper}
    (hentries : ∀ e ∈ entries, WhileFits (StoredIn e.stackId) history) :
    BuilderStored history (b.updateThread thread entries) := by
  intro other e he
  unfold StacksBuilder.updateThread at he
  dsimp only at he
  by_cases hthread : other = thread
  · subst hthread
    rw [Function.update_self] at he
    exact hentries e he
  · rw [Function.update_of_ne hthread] at he
    exact h other e he

/-- The end of an entry moves, its stack does not. -/
theorem stackId_of_mem_closeBack {ts : ℕ} {entries : List StackWrapper} {e : StackWrapper}
    (he : e ∈ closeBack ts entries) : ∃ e' ∈ entries, e'.stackId = e.stackId := by
  unfold closeBack at he
  split at he
  · cases he
  · next back hback =>
      rcases List.mem_append.mp he with he | he
      · exact ⟨e, List.mem_of_mem_dropLast he, rfl⟩
      · rw [List.mem_singleton.mp he]
        exact ⟨back, List.mem_of_getLast? hback, rfl⟩

theorem BuilderStored.terminate (h : BuilderStored history b) :
    BuilderStored history b.terminate := by
  intro thread e he
  obtain ⟨e', he', hid⟩ := stackId_of_mem_closeBack he
  rw [← hid]
  exact h thread e' he'

theorem BuilderStored.cleanup (h : BuilderStored history b) (ts : ℕ) :
    BuilderStored history (b.cleanup ts) :=
  fun thread e he => h thread e (List.mem_of_mem_drop he)

theorem BuilderStored.setStack (h : BuilderStored history b) (thread : ℕ) {id : StackId}
    (hid : WhileFits (StoredIn id) history) (isSyscall : Bool) :
    BuilderStored history (b.setStack thread id isSyscall) := by
  have hclosed : ∀ e ∈ closeBack b.ts (b.stacksOf thread),
      WhileFits (StoredIn e.stackId) history := by
    intro e he
    obtain ⟨e', he', hsame⟩ := stackId_of_mem_closeBack he
    rw [← hsame]
    exact h thread e' he'
  refine h.updateThread fun e he => ?_
  unfold setEntry at he
  dsimp only at he
  split at he
  · exact hclosed e he
  · rcases List.mem_append.mp he with he | he
    · exact hclosed e he
    · rw [List.mem_singleton.mp he]
      exact hid

theorem BuilderStored.stacksKnown {sources : Sources}
    (h : BuilderStored history sources.stacksBuilder) : StacksKnown sources history where
  getStack thread ts := by
    unfold StacksBuilder.getStack
    dsimp only
    split
    · exact whileFits_empty history
    · next e he =>
        split
        · exact StoredIn.known (h thread e (List.mem_of_getElem? he))
        · exact whileFits_empty history
  enumerateStacks thread start end_ sample hsample := by
    obtain ⟨e, he, rfl⟩ := List.mem_map.mp hsample
    have hmem := List.mem_of_mem_drop ((List.takeWhile_prefix _).subset he)
    exact StoredIn.known (h thread e hmem)

/-- All stacks that threads had or that were put together are there. -/
structure StacksStored (history : List Db.Op) (b : StacksBuilder)
    (cache : StackId × StackId → Option StackId) : Prop where
  builder : BuilderStored history b
  cached : ∀ pair full, cache pair = some full → WhileFits (KnownIn full) history

theorem StacksStored.of_grows {cache : StackId × StackId → Option StackId}
    (h : StacksStored history b cache) (hgrows : Grows (tables history) (tables history')) :
    StacksStored history' b cache where
  builder := h.builder.of_grows hgrows
  cached pair full hfull := (h.cached pair full hfull).of_grows hgrows KnownIn.of_grows

/-! ### Handlers -/

theorem gives_getStackIdentifier (names : List Bytes) :
    Gives Replays Continues RunsOut (StacksBuilder.getStackIdentifier names) history
      fun id => WhileFits (StoredIn id) := by
  unfold StacksBuilder.getStackIdentifier
  have hne : (if names = [] then [str "empty"] else names.reverse) ≠ [] := by
    split
    · exact List.cons_ne_nil _ _
    · next hnames => exact fun hreverse => hnames (List.reverse_eq_nil_iff.mp hreverse)
  generalize (if names = [] then [str "empty"] else names.reverse) = functions at hne ⊢
  have hbelow : Gives Replays Continues RunsOut (functions.dropLast.foldlM
      (fun previousStackId function => do
        let function ← addFunctionName function
        addStack ⟨function, previousStackId⟩) kEmptyStackId) history
        fun id => WhileFits (KnownIn id) := by
    refine .foldlM ?_ (whileFits_empty history)
    intro name _ bottom history' _ hbottom
    exact (gives_push hbottom name).mono fun _ _ _ => StoredIn.known
  rw [← List.dropLast_append_getLast hne, List.foldlM_append]
  refine hbelow.bind fun bottom history' _ hbottom => ?_
  rw [List.foldlM_cons]
  exact (gives_push hbottom _).bind fun _ _ _ hid => .pure hid

/-- A stack of some names, for a thread. -/
theorem gives_setNames (h : BuilderStored history b) (thread : ℕ) (names : List Bytes)
    (isSyscall : Bool) :
    Gives Replays Continues RunsOut (do
      let stackId ← StacksBuilder.getStackIdentifier names
      pure (b.setStack thread stackId isSyscall)) history fun b history' =>
        BuilderStored history' b :=
  (gives_getStackIdentifier names).bind fun _ _ hcontinues hid =>
    .pure ((h.of_grows hcontinues.grows).setStack thread hid isSyscall)

theorem gives_endSytemCall (h : BuilderStored history b) (thread : ℕ) :
    Gives Replays Continues RunsOut (b.endSytemCall thread) history fun b history' =>
      BuilderStored history' b := by
  unfold StacksBuilder.endSytemCall
  split
  · exact .pure h
  · split
    · exact .pure h
    · split
      · exact gives_setNames h thread _ true
      · next previous hprevious =>
          have hmem := List.mem_of_mem_dropLast (List.mem_of_getLast? hprevious)
          exact .pure (h.setStack thread (h thread previous hmem) false)

theorem gives_setLastSystemCallStack (h : BuilderStored history b) (thread : ℕ) {id : StackId}
    (hid : WhileFits (StoredIn id) history) :
    Gives Replays Continues RunsOut (b.setLastSystemCallStack thread id) history fun b history' =>
      BuilderStored history' b := by
  unfold StacksBuilder.setLastSystemCallStack
  dsimp only
  split
  · exact .pure h
  · next i entry hentry =>
      obtain ⟨j, -, hj⟩ := Option.bind_eq_some_iff.mp hentry
      obtain ⟨entry', hentry', hpair⟩ := Option.map_eq_some_iff.mp hj
      obtain ⟨rfl, rfl⟩ := Prod.mk.inj hpair
      have hstored := h thread entry' (List.mem_of_getElem? hentry')
      split
      · exact .pure h
      · refine (gives_getStack hstored).bind fun stack history₁ h₁ hstack => ?_
        have hfull : Gives Replays Continues RunsOut (addStack ⟨stack.function, id⟩) history₁
            fun id => WhileFits (StoredIn id) :=
          gives_addStack (fun hfits => (hstack hfits).1)
            (KnownIn.continues h₁ (StoredIn.known hid))
        refine hfull.bind fun fullId history₂ h₂ hfullId => .pure ?_
        have hbuilder := (h.of_grows h₁.grows).of_grows h₂.grows
        refine hbuilder.updateThread fun e he => ?_
        rcases List.mem_or_eq_of_mem_set he with he | rfl
        · exact hbuilder thread e he
        · exact hfullId

theorem gives_onEvent (h : BuilderStored history b) (ts tid : ℕ) (event : ProfilerEvent) :
    Gives Replays Continues RunsOut (StacksBlocks.onEvent b ts tid event) history
      fun b history' => BuilderStored history' b := by
  cases event with
  | onCpuSample symbols => exact gives_setNames h tid _ false
  | offCpuSample symbols =>
      exact (gives_getStackIdentifier _).bind fun _ _ hcontinues hid =>
        gives_setLastSystemCallStack (h.of_grows hcontinues.grows) tid hid
  | syscallEntry name => exact gives_setNames h tid _ true
  | syscallExit => exact gives_endSytemCall h tid
  | syscallLatency duration =>
      have hrewound : BuilderStored history (b.setTimestamp (subU64 ts duration)) := h
      refine (gives_setNames hrewound tid _ true).bind fun b history' _ hb => ?_
      have hnow : BuilderStored history' (b.setTimestamp ts) := hb
      exact gives_endSytemCall hnow tid

end Stacks

/-! ### The services -/

/-- All stacks of the samples of an execution are there. -/
def SamplesKnown (execution : Execution) (t : Tables) : Prop :=
  ∀ entry ∈ execution.samples.entries, KnownIn entry.1 t

theorem SamplesKnown.of_grows {execution : Execution} (t t' : Tables) (hgrows : Grows t t')
    (h : SamplesKnown execution t) : SamplesKnown execution t' :=
  fun entry hentry => KnownIn.of_grows t t' hgrows (h entry hentry)

/-- The history tells the database of the services: some executions, with their stacks. -/
structure Stored (executions : List Execution) (history : List Db.Op) (database : Database) :
    Prop where
  replays : Replays history database
  added : history.filterMap Op.execution? = executions
  samples : ∀ e ∈ executions, WhileFits (SamplesKnown e) history

theorem stored_empty : Stored [] [] {} where
  replays := ⟨rfl, fun _ => Tables.wellFormed_empty⟩
  added := rfl
  samples _ he := by cases he

section Stored

variable {executions : List Execution} {history history' : List Db.Op} {database : Database}

/-- More names and stacks, and the same executions. -/
theorem Stored.continues (h : Stored executions history database) {database' : Database}
    (hcontinues : Continues history history') (hreplays : Replays history' database') :
    Stored executions history' database' :=
  ⟨hreplays, hcontinues.filterMap_execution?.trans h.added,
    fun e he => (h.samples e he).continues hcontinues SamplesKnown.of_grows⟩

theorem Stored.addExecution (h : Stored executions history database) (execution : Execution)
    (hknown : ∀ entry ∈ execution.samples.entries, WhileFits (KnownIn entry.1) history) :
    Stored (executions ++ [execution]) (history ++ [.addExecution execution])
      ((Db.addExecution execution).runOn database).2 := by
  have hgrows := grows_append history [.addExecution execution]
  have hsamples : ∀ e, WhileFits (SamplesKnown e) history →
      WhileFits (SamplesKnown e) (history ++ [.addExecution execution]) :=
    fun e he => he.of_grows hgrows SamplesKnown.of_grows
  refine ⟨⟨?_, fun hfits => ?_⟩, ?_, List.forall_mem_append.mpr
    ⟨fun e he => hsamples e (h.samples e he), List.forall_mem_singleton.mpr ?_⟩⟩
  · rw [after_append, h.replays.after]
    exact (DbM.snd_runOn_map (Db.addExecution execution) (fun _ => Reply.done) _).symm
  · have hwf := h.replays.wellFormed (hgrows.fits hfits)
    rw [tables_append]
    exact (hwf.addName execution.name).of_grows
      ⟨Interning.prefix_intern _ execution.trace, List.prefix_rfl⟩ rfl
  · rw [List.filterMap_append, h.added]
    rfl
  · exact hsamples execution fun hfits entry hentry => hknown entry hentry hfits

/-- An execution is added unless identifiers run out. -/
theorem Stored.runsOut_of_error (h : Stored executions history database) {execution : Execution}
    {e : FatalError} (herror : ((Db.addExecution execution).runOn database).1 = .error e) :
    RunsOut e (history ++ [.addExecution execution]) := by
  intro hfits
  have hfits' := (grows_append history [.addExecution execution]).fits hfits
  rw [tables_append] at hfits
  obtain ⟨db', hrun, -⟩ := addExecution_does hfits database (h.replays.represents hfits')
  rw [hrun] at herror
  cases herror

end Stored

/-- The metrics are apart from the samples. -/
theorem samples_extractMetrics (criticalPath : CriticalPath) (stateHistory : State.StateHistory)
    (counterKey : ℕ → String → State.AttributeKey) (execution : Execution) :
    (extractMetrics criticalPath stateHistory counterKey execution).1.samples =
      execution.samples := by
  have htiming : ∀ execution, (criticalPath.foldl addSegmentDuration execution).samples =
      execution.samples := fun execution => foldl_keeps Execution.samples (fun e segment => by
    unfold addSegmentDuration
    split <;> rfl) criticalPath execution
  have hcounters : ∀ execution,
      (extractPerformanceCounterMetrics criticalPath stateHistory counterKey execution).samples =
        execution.samples := by
    intro execution
    rw [extractPerformanceCounterMetrics_eq]
    refine foldl_keeps Execution.samples (fun e counter => ?_) _ execution
    refine foldl_keeps Execution.samples (fun e segment => ?_) criticalPath e
    unfold addSegmentValue
    split
    · rfl
    · dsimp only
      split <;> rfl
  unfold extractMetrics extractTimingMetrics
  dsimp only
  rw [hcounters, htiming]
  rfl

/-! ### What the blocks keep -/

/-- A fault of the database is explained by the history: identifiers ran out. -/
def BuildFault.Explained (history : List Db.Op) : BuildFault → Prop
  | fatalError e => RunsOut e history
  | extract fault => Faults fault history
  | critical _ | endless => True

/-- What a build leaves behind the earlier executions: those that it handed over or, once it went
wrong, some first ones of these. -/
inductive Tells (earlier executions : List Execution) : Except Crash Services → Prop
  | served {services : Services} {history : List Db.Op}
      (h : Stored (earlier ++ executions) history services.database)
      (hstacks : StacksStored history services.stacksBuilder services.concatenationCache) :
      Tells earlier executions (.ok services)
  | crashed {crash : Crash} {saved : List Execution} {history : List Db.Op}
      (hsaved : saved <+: executions) (h : Stored (earlier ++ saved) history crash.database)
      (hfault : crash.fault.Explained history) : Tells earlier executions (.error crash)

section Tells

variable {earlier executions : List Execution} {setting : Setting} {s : Except Crash Services}

theorem Tells.bind (h : Tells earlier executions s) {f : Services → Except Crash Services}
    (hf : ∀ services history, Stored (earlier ++ executions) history services.database →
      StacksStored history services.stacksBuilder services.concatenationCache →
        Tells earlier executions (f services)) :
    Tells earlier executions (s.bind f) := by
  cases h with
  | served h hstacks => exact hf _ _ h hstacks
  | crashed hsaved h hfault => exact .crashed hsaved h hfault

/-- A fault that leaves the database alone. -/
theorem tells_fault {history : List Db.Op} {fault : BuildFault} {database : Database}
    (h : Stored (earlier ++ executions) history database)
    (hfault : fault.Explained history) : Tells earlier executions (.error ⟨fault, database⟩) :=
  .crashed List.prefix_rfl h hfault

theorem Tells.serve (h : Tells earlier executions s) (setting : Setting)
    (notification : Notification) :
    Tells earlier executions (s.bind (notification.serve setting)) := by
  refine h.bind fun services history hstored hstacks => ?_
  have hstate : ∀ stateNotification,
      Tells earlier executions (services.onStateNotification setting stateNotification) := by
    intro stateNotification
    unfold Services.onStateNotification
    split
    · exact tells_fault hstored trivial
    · exact .served hstored hstacks
  cases notification with
  | critical event =>
      show Tells earlier executions (services.onCriticalEvent setting event)
      unfold Services.onCriticalEvent
      split
      · exact tells_fault hstored trivial
      · exact .served hstored hstacks
  | profiler tid event =>
      show Tells earlier executions (services.onProfilerEvent tid event)
      obtain ⟨history', hcontinues, hreplays, hreturns, hthrows⟩ := gives_onEvent
        hstacks.builder services.stacksBuilder.ts tid event services.database hstored.replays
      have hstored' := hstored.continues hcontinues hreplays
      unfold Services.onProfilerEvent
      split
      · next e database hrun =>
          have hdatabase : database = _ := (congrArg Prod.snd hrun).symm
          subst hdatabase
          exact tells_fault hstored' (hthrows e (congrArg Prod.fst hrun))
      · next stacksBuilder database hrun =>
          have hdatabase : database = _ := (congrArg Prod.snd hrun).symm
          subst hdatabase
          exact .served hstored' ⟨hreturns _ (congrArg Prod.fst hrun),
            (hstacks.of_grows hcontinues.grows).cached⟩
  | stateAttribute key value => exact hstate (.state key value)
  | schedSwitch event prevTid nextTid => exact hstate (.schedSwitch event prevTid nextTid)
  | schedTtwu event => exact hstate (.schedTtwu event)
  | ust event => exact hstate (.ust event)
  | special _ | threadNames _ | timestamp _ | executionBegin _ _ | executionEnd _ _ _ =>
      exact .served hstored hstacks

/-- An extraction leaves the executions, and its samples are of stacks that are there. -/
theorem Stored.extract (setting : Setting) {history : List Db.Op} {services : Services}
    (h : Stored executions history services.database)
    (hstacks : StacksStored history services.stacksBuilder services.concatenationCache)
    {execution : Execution} (hbare : bare execution = execution) :
    (∃ crash history', services.extract setting execution = .error crash ∧
        Stored executions history' crash.database ∧ crash.fault.Explained history') ∨
      ∃ maps services' history', services.extract setting execution = .ok (maps, services') ∧
        Stored executions history' services'.database ∧
        StacksStored history' services'.stacksBuilder services'.concatenationCache ∧
        ∀ entry ∈ maps.2.entries, WhileFits (KnownIn entry.1) history' := by
  -- A bare execution has no samples yet.
  have hstart : Samples (services.sources setting) history (services.extractor execution) := by
    refine ⟨h.replays, BuilderStored.stacksKnown hstacks.builder, hstacks.cached,
      fun entry hentry => ?_⟩
    rw [Services.extractor, ← hbare] at hentry
    cases hentry
  cases hpath : computeCriticalPath services.criticalBlock.graph setting.fuel
      execution.startTs.toNat execution.endTs.toNat execution.startThread.toNat with
  | error fault =>
      refine .inl ⟨⟨.critical fault, services.database⟩, history, ?_, h, trivial⟩
      rw [Services.extract, hpath]
  | ok path =>
      obtain ⟨history', hcontinues, hsamples, -, hthrows⟩ := gives_extractStacks
        (services.sources setting) setting.fuel setting.depth path _ hstart
      have hstored := h.continues hcontinues hsamples.replays
      cases hrun : ((services.sources setting).extractStacks setting.fuel setting.depth
          path).runOn (services.extractor execution) with
      | mk result extractor =>
          have hextractor : extractor = _ := (congrArg Prod.snd hrun).symm
          cases result with
          | error fault =>
              refine .inl ⟨⟨.extract fault, extractor.db⟩, history', ?_, ?_, ?_⟩
              · rw [Services.extract, hpath]
                dsimp only
                rw [hrun]
              · rw [hextractor]
                exact hstored
              · exact hthrows fault (congrArg Prod.fst hrun)
          | ok rest =>
              let measured := (extractMetrics path services.recorder.stateHistory
                setting.counterKey extractor.execution).1
              refine .inr ⟨(measured.metrics, measured.samples),
                services.afterExtraction extractor, history', ?_, ?_,
                ⟨hstacks.builder.of_grows hcontinues.grows, ?_⟩, ?_⟩
              · rw [Services.extract, hpath]
                dsimp only
                rw [hrun]
              · rw [hextractor]
                exact hstored
              · rw [hextractor]
                exact hsamples.cached
              · intro entry hentry
                rw [samples_extractMetrics, hextractor] at hentry
                exact hsamples.samples entry hentry

theorem accumulates_components (setting : Setting) (earlier : List Execution) :
    Accumulates (components setting) (Tells earlier) where
  setTimestamp ts h := h.bind fun _ _ hstored hstacks =>
    .served hstored ⟨hstacks.builder, hstacks.cached⟩
  terminate h := h.bind fun _ _ hstored hstacks =>
    .served hstored ⟨hstacks.builder.terminate, hstacks.cached⟩
  cleanup ts h := h.bind fun services history hstored hstacks => by
    show Tells _ _ (services.cleanup setting ts.toNat)
    unfold Services.cleanup
    split
    · exact tells_fault hstored trivial
    · exact .served hstored ⟨hstacks.builder.cleanup ts.toNat, hstacks.cached⟩
  save {executions s execution} hbare h := by
    have hlonger := List.prefix_append executions [(components setting).measure execution s]
    cases h with
    | crashed hsaved h hfault => exact .crashed (hsaved.trans hlonger) h hfault
    | @served services history hstored hstacks =>
        unfold Components.measure at hlonger ⊢
        simp only [components, Except.bind] at hlonger ⊢
        rcases hstored.extract setting hstacks hbare with
          ⟨crash, history', hrun, hstored', hfault⟩ |
          ⟨maps, services', history', hrun, hstored', hstacks', hknown⟩
        · rw [hrun] at hlonger ⊢
          exact .crashed hlonger hstored' hfault
        · rw [hrun]
          dsimp only
          let measured : Execution := { execution with metrics := maps.1, samples := maps.2 }
          have hadded := hstored'.addExecution measured hknown
          have hgrows := grows_append history' [.addExecution measured]
          rw [List.append_assoc] at hadded
          unfold Services.addExecution
          split
          · next e database hadd =>
              have hdatabase : database = _ := (congrArg Prod.snd hadd).symm
              subst hdatabase
              exact tells_fault hadded (hstored'.runsOut_of_error (congrArg Prod.fst hadd))
          · next database hadd =>
              have hdatabase : database = _ := (congrArg Prod.snd hadd).symm
              subst hdatabase
              exact .served hadded (hstacks'.of_grows hgrows)

end Tells

/-! ### Whole builds -/

section Builds

variable {setting : Setting} {earlier : List Execution} {build : TibeeBuild}

theorem unmeasured_onBegin {b : ExecutionsBuilder} (h : Unmeasured b) (punchBlock : PunchBlock)
    (tid : UInt32) (threadName : Bytes) : Unmeasured (punchBlock.onBegin b tid threadName) := by
  unfold PunchBlock.onBegin
  split
  · exact h
  · exact h.startExecution tid punchBlock.name true

theorem unmeasured_onEnd {b : ExecutionsBuilder} (h : Unmeasured b) (punchBlock : PunchBlock)
    (tid : UInt32) (threadName : Bytes) (stateTs : UInt64) :
    Unmeasured (punchBlock.onEnd b tid threadName stateTs).2 := by
  rcases punchBlock.onEnd_cases b tid threadName stateTs with ⟨-, heq⟩ | ⟨-, heq, -⟩
  · rw [heq]
    exact h
  · rw [heq]
    exact h.endExecution tid

/-- A notification leaves a history that accounts for the database: behind the earlier executions
are those that were handed over. -/
theorem holds_onNotification (h : Holds (Tells earlier) build.buildBlock)
    (notification : Notification) :
    Holds (Tells earlier)
      (build.onNotification setting (components setting) notification).buildBlock := by
  have hserved := h.components.serve setting notification
  cases notification with
  | timestamp ts => exact h.onTimestamp (accumulates_components setting earlier) ts
  | executionBegin tid threadName =>
      exact ⟨h.components, unmeasured_onBegin h.unmeasured build.punchBlock tid threadName⟩
  | executionEnd tid threadName stateTs =>
      exact ⟨h.components, unmeasured_onEnd h.unmeasured build.punchBlock tid threadName stateTs⟩
  | critical _ | profiler _ _ | stateAttribute _ _ | schedSwitch _ _ _ | schedTtwu _ | ust _
  | threadNames _ => exact ⟨hserved, h.unmeasured⟩
  | special _ => exact h

theorem stored_reopen {history : List Db.Op} {db : Database} (h : Stored earlier history db) :
    Stored earlier (history ++ [.reopen]) (Db.reopen db) := by
  refine h.continues (Continues.single rfl) ⟨?_, ?_⟩
  · exact (congrArg Db.reopen h.replays.after).trans (after_append history .reopen).symm
  · rw [WhileFits, tables_append]
    exact h.replays.wellFormed

theorem holds_initial (args : Arguments) {history : List Db.Op} {db : Database}
    (h : Stored earlier history db) :
    Holds (Tells earlier) (TibeeBuild.initial args db).buildBlock := by
  refine ⟨?_, unmeasured_empty⟩
  have hstored := stored_reopen h
  rw [← List.append_nil earlier] at hstored
  exact .served hstored ⟨builderStored_empty _, fun _ _ hfull => (by cases hfull)⟩

theorem holds_foldl (args : Arguments) (h : Holds (Tells earlier) build.buildBlock)
    (notifications : List Notification) :
    Holds (Tells earlier) (notifications.foldl
      (TibeeBuild.step setting (components setting) args) build).buildBlock := by
  induction notifications generalizing build with
  | nil => exact h
  | cons notification notifications ih =>
      rw [List.foldl_cons, TibeeBuild.step]
      split
      · exact ih (holds_onNotification h notification)
      · exact ih h

/-- Whatever is shown or tracked, a build leaves the database with the executions that it handed
over behind the earlier ones. -/
theorem tells_run (setting : Setting) (args : Arguments) {history : List Db.Op} {db : Database}
    (h : Stored earlier history db) (notifications : List Notification) :
    Tells earlier (handed (TibeeBuild.run setting args db notifications).buildBlock.calls)
      (TibeeBuild.run setting args db notifications).buildBlock.components :=
  ((holds_foldl args (holds_initial args h) notifications).onEnd
    (accumulates_components setting earlier)).components

end Builds

/-! ### Executions of a trace -/

/-- Executions are those of threads with a given name, or with any name. -/
def Arguments.analyzes (args : Arguments) (threadName : Bytes) : Bool :=
  args.exec.isEmpty || threadName == args.exec

/-- What a notification means to the builder of executions. -/
def Notification.op? (args : Arguments) : Notification → Option BuildBlocks.Op
  | timestamp ts => some (.timestamp ts)
  | executionBegin tid threadName =>
      if args.analyzes threadName then some (.startExecution tid args.name) else none
  | executionEnd tid threadName _ =>
      if args.analyzes threadName then some (.endExecution tid) else none
  | _ => none

def Arguments.ops (args : Arguments) (notifications : List Notification) : List BuildBlocks.Op :=
  notifications.filterMap (Notification.op? args)

theorem Arguments.ops_append_singleton (args : Arguments) (notifications : List Notification)
    (notification : Notification) : args.ops (notifications ++ [notification]) =
      args.ops notifications ++ (notification.op? args).toList := by
  have hsingle : [notification].filterMap (Notification.op? args) =
      (notification.op? args).toList := by
    cases hop : notification.op? args with
    | none => exact List.filterMap_cons_none hop
    | some op => exact List.filterMap_cons_some hop
  exact List.filterMap_append.trans (congrArg (args.ops notifications ++ ·) hsingle)

/-- What holds while a build that tracks executions reads a trace. -/
structure Tracks (args : Arguments) (past : List BuildBlocks.Op) (build : TibeeBuild) : Prop where
  name : build.punchBlock.name = args.name
  exec : build.punchBlock.exec = args.exec
  saving : Saving past build.buildBlock

section Tracks

variable {setting : Setting} {args : Arguments} {past : List BuildBlocks.Op} {build : TibeeBuild}

theorem mem_blocks (hshows : args.onlyShows = false) {block : Block} (hblock : block ≠ .special) :
    block ∈ args.blocks := by
  simp only [Arguments.onlyShows, Bool.or_eq_false_iff] at hshows
  obtain ⟨⟨hdump, hstats⟩, hspecial⟩ := hshows
  unfold Arguments.blocks
  rw [hdump, hstats, hspecial]
  cases block <;> simp at hblock ⊢

theorem Tracks.tidIsAnalyzed (h : Tracks args past build) (threadName : Bytes) :
    build.punchBlock.tidIsAnalyzed threadName = args.analyzes threadName := by
  rw [PunchBlock.tidIsAnalyzed, h.exec, Arguments.analyzes]

theorem Tracks.executionBegin (h : Tracks args past build) (tid : UInt32) (threadName : Bytes) :
    Tracks args (((Notification.executionBegin tid threadName).op? args).toList ++ past)
      (build.onNotification setting (components setting) (.executionBegin tid threadName)) := by
  unfold TibeeBuild.onNotification PunchBlock.onBegin Notification.op?
  dsimp only
  rw [h.tidIsAnalyzed]
  cases args.analyzes threadName with
  | false => exact h
  | true =>
      rw [if_pos rfl, if_neg (by decide), h.name]
      exact ⟨h.name, h.exec, h.saving.startExecution (c := components setting) tid args.name⟩

theorem Tracks.executionEnd (h : Tracks args past build) (tid : UInt32) (threadName : Bytes)
    (stateTs : UInt64) :
    Tracks args (((Notification.executionEnd tid threadName stateTs).op? args).toList ++ past)
      (build.onNotification setting (components setting)
        (.executionEnd tid threadName stateTs)) := by
  unfold TibeeBuild.onNotification Notification.op?
  dsimp only
  rcases build.punchBlock.onEnd_cases build.buildBlock.executionsBuilder tid threadName stateTs with
    ⟨hother, heq⟩ | ⟨hanalyzed, hended, hlines⟩
  · rw [h.tidIsAnalyzed] at hother
    rw [hother, if_neg (by decide), heq]
    exact h
  · rw [h.tidIsAnalyzed] at hanalyzed
    rw [hanalyzed, if_pos rfl]
    generalize build.punchBlock.onEnd build.buildBlock.executionsBuilder tid threadName stateTs =
      result at hended hlines ⊢
    obtain ⟨punchBlock, executionsBuilder⟩ := result
    dsimp only at hended hlines ⊢
    subst hended
    have hpunch : punchBlock.name = args.name ∧ punchBlock.exec = args.exec := by
      rcases hlines with rfl | ⟨-, -, rfl⟩
      · exact ⟨h.name, h.exec⟩
      · exact ⟨h.name, h.exec⟩
    exact ⟨hpunch.1, hpunch.2, h.saving.endExecution (c := components setting) tid⟩

theorem Tracks.onNotification (h : Tracks args past build) (notification : Notification)
    (hclock : ∀ ts, notification.op? args = some (.timestamp ts) → clock past ≤ ts)
    (hoverflow : ∀ ts, notification.op? args = some (.timestamp ts) →
      ts.toNat + kSaveInterval.toNat < U64) :
    Tracks args ((notification.op? args).toList ++ past)
      (build.onNotification setting (components setting) notification) := by
  cases notification with
  | timestamp ts => exact ⟨h.name, h.exec, h.saving.timestamp (hclock ts rfl) (hoverflow ts rfl)⟩
  | executionBegin tid threadName => exact h.executionBegin tid threadName
  | executionEnd tid threadName stateTs => exact h.executionEnd tid threadName stateTs
  | critical _ | profiler _ _ | stateAttribute _ _ | schedSwitch _ _ _ | schedTtwu _ | ust _
  | threadNames _ => exact ⟨h.name, h.exec, h.saving.withComponents _⟩
  | special _ => exact ⟨h.name, h.exec, h.saving⟩

/-- The one block that is not added gets no notification that means something to the builder. -/
theorem Tracks.step (hshows : args.onlyShows = false) (h : Tracks args past build)
    (notification : Notification)
    (hclock : ∀ ts, notification.op? args = some (.timestamp ts) → clock past ≤ ts)
    (hoverflow : ∀ ts, notification.op? args = some (.timestamp ts) →
      ts.toNat + kSaveInterval.toNat < U64) :
    Tracks args ((notification.op? args).toList ++ past)
      (build.step setting (components setting) args notification) := by
  unfold TibeeBuild.step
  split
  · exact h.onNotification notification hclock hoverflow
  · next hblock =>
      have hspecial : notification.block = .special := by
        by_contra hother
        exact hblock (mem_blocks hshows hother)
      have hop : notification.op? args = none := by
        cases notification <;> first | rfl | cases hspecial
      rw [hop]
      exact h

theorem tracks_initial (hshows : args.onlyShows = false) (db : Database) :
    Tracks args [] (.initial args db) := by
  have hpunch : Block.punch ∈ args.blocks := mem_blocks hshows (by decide)
  have hsaving : Saving [] (TibeeBuild.initial args db).buildBlock := by
    rw [TibeeBuild.initial, hshows]
    exact saving_initial _
  refine ⟨?_, ?_, hsaving⟩
  · rw [TibeeBuild.initial, if_pos hpunch]
    rfl
  · rw [TibeeBuild.initial, if_pos hpunch]
    rfl

theorem tracks_foldl (setting : Setting) (hshows : args.onlyShows = false) (db : Database)
    {notifications : List Notification}
    (hclock : BuildBlocks.NonDecreasing (args.ops notifications))
    (hoverflow : NoOverflow (args.ops notifications)) :
    Tracks args (args.ops notifications).reverse
      (notifications.foldl (TibeeBuild.step setting (components setting) args)
        (.initial args db)) := by
  induction notifications using List.reverseRecOn with
  | nil => exact tracks_initial hshows db
  | append_singleton notifications notification ih =>
      have hops := args.ops_append_singleton notifications notification
      rw [hops, BuildBlocks.NonDecreasing, List.filterMap_append, List.pairwise_append] at hclock
      rw [hops, NoOverflow, List.filterMap_append] at hoverflow
      obtain ⟨hbefore, -, hlater⟩ := hclock
      have htracks := ih hbefore fun ts hts => hoverflow ts (List.mem_append_left _ hts)
      have hreverse : (notification.op? args).toList.reverse = (notification.op? args).toList := by
        cases notification.op? args <;> rfl
      rw [hops, List.reverse_append, hreverse, List.foldl_append, List.foldl_cons, List.foldl_nil]
      have hmem : ∀ ts, notification.op? args = some (.timestamp ts) →
          ts ∈ (notification.op? args).toList.filterMap BuildBlocks.Op.timestamp? := by
        intro ts hts
        rw [hts]
        exact List.mem_cons_self
      refine htracks.step hshows notification (fun ts hts => ?_) fun ts hts =>
        hoverflow ts (List.mem_append_right _ (hmem ts hts))
      rcases clock_mem (args.ops notifications) with hzero | hclock
      · rw [hzero, UInt64.le_iff_toNat_le]
        exact Nat.zero_le _
      · exact hlater _ hclock ts (hmem ts hts)

end Tracks

end TibeeCompare.Build
