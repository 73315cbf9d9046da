import TibeeCompare.Build.SavedExecutions

/-!
What a build shows.

With statistics, `PunchBlock` is to print the duration of each execution that is longer than five
milliseconds. But the clock of the executions belongs to `BuildBlock`, which keeps still when it
is not to track executions: all executions then start and end at zero. `SpecialBlock` has times of
its own, and prints those of one update in ten.
-/

namespace TibeeCompare.Build

open BuildBlocks Db ExecutionBlocks Executions

/-- All executions of a builder start at zero, as it is zero. -/
structure AtZero (b : ExecutionsBuilder) : Prop where
  ts : b.ts = 0
  active : ∀ thread e, b.activeExecutions thread = some e → e.startTs = 0

namespace AtZero

variable {b : ExecutionsBuilder}

theorem startExecution (h : AtZero b) (thread : UInt32) (name : Bytes) (needsToEnd : Bool) :
    AtZero (b.startExecution thread name needsToEnd) where
  ts := h.ts
  active other e he := by
    unfold ExecutionsBuilder.startExecution at he
    dsimp only at he
    by_cases hthread : other = thread
    · subst hthread
      rw [Function.update_self] at he
      cases he
      exact h.ts
    · rw [Function.update_of_ne hthread] at he
      exact h.active other e he

/-- An execution that ends takes no time. -/
theorem endExecution (h : AtZero b) (thread : UInt32) :
    (b.endExecution thread).1 = 0 ∧ AtZero (b.endExecution thread).2 := by
  unfold ExecutionsBuilder.endExecution
  cases hactive : b.activeExecutions thread with
  | none => exact ⟨rfl, h⟩
  | some execution =>
      have hstart := h.active thread execution hactive
      refine ⟨?_, h.ts, fun other e he => ?_⟩
      · show b.ts - execution.startTs = 0
        rw [h.ts, hstart]
        rfl
      · dsimp only at he
        by_cases hthread : other = thread
        · subst hthread
          rw [Function.update_self] at he
          cases he
        · rw [Function.update_of_ne hthread] at he
          exact h.active other e he

end AtZero

/-- What holds of a build that printed some lines: statistics are only for builds that just show
something, and these stay at zero. -/
structure Prints (shows : Bool) (lines : List Line) (build : TibeeBuild) : Prop where
  lines : build.punchBlock.lines = lines
  stats : build.buildBlock.stats = shows
  punch : build.punchBlock.stats = true → shows = true
  atZero : shows = true → AtZero build.buildBlock.executionsBuilder
  calls : shows = true → build.buildBlock.calls = []

theorem stats_saveExecutions {σ : Type} (c : Components σ) (block : BuildBlock σ) :
    (block.saveExecutions c).stats = block.stats := by
  unfold BuildBlock.saveExecutions
  dsimp only
  exact (saves_foldl _ _).stats

theorem stats_onTimestamp {σ : Type} (c : Components σ) (block : BuildBlock σ) (ts : UInt64) :
    (block.onTimestamp c ts).stats = block.stats := by
  unfold BuildBlock.onTimestamp
  split
  · rfl
  · dsimp only
    split
    · rfl
    · split
      · exact stats_saveExecutions c _
      · rfl

section Prints

variable {setting : Setting} {c : Components (Except Crash Services)} {shows : Bool}
  {lines : List Line} {build : TibeeBuild}

theorem Prints.timestamp (h : Prints shows lines build) (ts : UInt64) :
    Prints shows lines (build.onNotification setting c (.timestamp ts)) := by
  have hstats := (stats_onTimestamp c build.buildBlock ts).trans h.stats
  cases hshows : shows with
  | true =>
      have hstill : build.buildBlock.onTimestamp c ts = build.buildBlock := by
        rw [BuildBlock.onTimestamp, if_pos (h.stats.trans hshows)]
      unfold TibeeBuild.onNotification
      dsimp only
      rw [hstill, ← hshows]
      exact h
  | false =>
      rw [hshows] at h hstats
      exact ⟨h.lines, hstats, h.punch, fun hfalse => (by cases hfalse),
        fun hfalse => (by cases hfalse)⟩

theorem Prints.executionBegin (h : Prints shows lines build) (tid : UInt32) (threadName : Bytes) :
    Prints shows lines (build.onNotification setting c (.executionBegin tid threadName)) := by
  refine ⟨h.lines, h.stats, h.punch, fun hshows => ?_, h.calls⟩
  show AtZero (build.punchBlock.onBegin build.buildBlock.executionsBuilder tid threadName)
  rw [PunchBlock.onBegin]
  split
  · exact h.atZero hshows
  · exact (h.atZero hshows).startExecution tid build.punchBlock.name true

theorem Prints.executionEnd (h : Prints shows lines build) (tid : UInt32) (threadName : Bytes)
    (stateTs : UInt64) :
    Prints shows lines (build.onNotification setting c (.executionEnd tid threadName stateTs)) := by
  rcases build.punchBlock.onEnd_cases build.buildBlock.executionsBuilder tid threadName stateTs with
    ⟨-, heq⟩ | ⟨-, hended, hlines⟩
  · unfold TibeeBuild.onNotification
    dsimp only
    rw [heq]
    exact h
  · -- a line would be about a duration that is not zero
    have hpunch : (build.punchBlock.onEnd build.buildBlock.executionsBuilder tid threadName
        stateTs).1 = build.punchBlock := by
      refine hlines.resolve_right fun hprinted => ?_
      have hzero := (h.atZero (h.punch hprinted.1)).endExecution tid
      exact hprinted.2.1 hzero.1
    unfold TibeeBuild.onNotification
    dsimp only
    rw [hended, hpunch]
    exact ⟨h.lines, h.stats, h.punch, fun hshows => ((h.atZero hshows).endExecution tid).2,
      h.calls⟩

theorem Prints.onNotification (h : Prints shows lines build) (notification : Notification) :
    Prints shows lines (build.onNotification setting c notification) := by
  cases notification with
  | timestamp ts => exact h.timestamp ts
  | executionBegin tid threadName => exact h.executionBegin tid threadName
  | executionEnd tid threadName stateTs => exact h.executionEnd tid threadName stateTs
  | critical _ | profiler _ _ | stateAttribute _ _ | schedSwitch _ _ _ | schedTtwu _ | ust _
  | special _ | threadNames _ => exact ⟨h.lines, h.stats, h.punch, h.atZero, h.calls⟩

theorem Prints.foldl (h : Prints shows lines build) (args : Arguments)
    (notifications : List Notification) :
    Prints shows lines (notifications.foldl (TibeeBuild.step setting c args) build) := by
  induction notifications generalizing build with
  | nil => exact h
  | cons notification notifications ih =>
      rw [List.foldl_cons, TibeeBuild.step]
      split
      · exact ih (h.onNotification notification)
      · exact ih h

end Prints

/-- The block that prints durations is there. -/
def Arguments.printsStats (args : Arguments) : Bool :=
  args.stats && !args.dumpStacks && !args.special

theorem punchBlock_initial (args : Arguments) (db : Database) :
    (TibeeBuild.initial args db).punchBlock.stats = args.printsStats ∧
      (TibeeBuild.initial args db).punchBlock.lines =
        if args.printsStats then [.header] else [] := by
  obtain ⟨name, exec, beginEvent, endEvent, dumpStacks, stats, special⟩ := args
  cases dumpStacks <;> cases stats <;> cases special <;> exact ⟨rfl, rfl⟩

theorem prints_initial (args : Arguments) (db : Database) :
    Prints args.onlyShows (if args.printsStats then [.header] else []) (.initial args db) := by
  obtain ⟨hstats, hlines⟩ := punchBlock_initial args db
  refine ⟨hlines, rfl, fun hprints => ?_, fun _ => ⟨rfl, fun _ _ h => (by cases h)⟩, fun _ => rfl⟩
  rw [hstats, Arguments.printsStats, Bool.and_eq_true, Bool.and_eq_true] at hprints
  rw [Arguments.onlyShows, hprints.1.1, Bool.or_true, Bool.true_or]

/-! ### The times of updates -/

/-- What `SpecialBlock` hears of. -/
def Notification.special? : Notification → Option TracekitEvent
  | special event => some event
  | _ => none

theorem special_mem_blocks (args : Arguments) :
    Block.special ∈ args.blocks ↔ args.special = true := by
  obtain ⟨name, exec, beginEvent, endEvent, dumpStacks, stats, special⟩ := args
  cases dumpStacks <;> cases stats <;> cases special <;> simp [Arguments.blocks]

theorem specialBlock_onNotification (setting : Setting) (c : Components (Except Crash Services))
    (build : TibeeBuild) (notification : Notification) :
    (build.onNotification setting c notification).specialBlock =
      notification.special?.toList.foldl SpecialBlock.onEvent build.specialBlock := by
  cases notification <;> rfl

theorem specialBlock_step (setting : Setting) (c : Components (Except Crash Services))
    (args : Arguments) (build : TibeeBuild) (notification : Notification) :
    (build.step setting c args notification).specialBlock =
      if args.special then
        notification.special?.toList.foldl SpecialBlock.onEvent build.specialBlock
      else build.specialBlock := by
  have hserved := specialBlock_onNotification setting c build notification
  unfold TibeeBuild.step
  cases notification with
  | special event =>
      by_cases hspecial : args.special = true
      · have hthere : (Notification.special event).block ∈ args.blocks :=
          (special_mem_blocks args).mpr hspecial
        rw [if_pos hspecial, if_pos hthere]
        exact hserved
      · have hgone : (Notification.special event).block ∉ args.blocks :=
          mt (special_mem_blocks args).mp hspecial
        rw [if_neg hspecial, if_neg hgone]
  | _ =>
      rw [apply_ite TibeeBuild.specialBlock, hserved]
      exact (ite_self _).trans (ite_self _).symm

/-- The block sees all events of the tool, when it is there. -/
theorem specialBlock_foldl (setting : Setting) (c : Components (Except Crash Services))
    (args : Arguments) (build : TibeeBuild) (notifications : List Notification) :
    (notifications.foldl (TibeeBuild.step setting c args) build).specialBlock =
      if args.special then
        (notifications.filterMap Notification.special?).foldl SpecialBlock.onEvent
          build.specialBlock
      else build.specialBlock := by
  induction notifications generalizing build with
  | nil => exact (ite_self _).symm
  | cons notification notifications ih =>
      have htail : (notification :: notifications).filterMap Notification.special? =
          notification.special?.toList ++ notifications.filterMap Notification.special? := by
        cases hevent : notification.special? with
        | none => exact List.filterMap_cons_none hevent
        | some event => exact List.filterMap_cons_some hevent
      rw [List.foldl_cons, ih, specialBlock_step, htail, List.foldl_append]
      cases args.special <;> rfl

/-- Times are printed for special only: a line for ten ends at most, each with the time from the
begin of an update to its end. -/
theorem specialBlock_run (setting : Setting) (args : Arguments) (db : Database)
    (notifications : List Notification) :
    let lines := (TibeeBuild.run setting args db notifications).specialBlock.lines
    let events := notifications.filterMap Notification.special?
    (∀ line ∈ lines, args.special = true ∧ Measured events line) ∧
      10 * lines.length ≤ numEnds events := by
  intro lines events
  have hblock : (TibeeBuild.run setting args db notifications).specialBlock = _ :=
    specialBlock_foldl setting (components setting) args (.initial args db) notifications
  split at hblock
  · next hspecial =>
      have hwatches : Watches events (events.foldl SpecialBlock.onEvent {}) :=
        watches_foldl watches_initial events
      have hlines : lines = (events.foldl SpecialBlock.onEvent {}).lines :=
        congrArg SpecialBlock.lines hblock
      rw [hlines]
      exact ⟨fun line hmem => ⟨hspecial, hwatches.lines line hmem⟩,
        (Nat.le_add_right _ _).trans hwatches.few⟩
  · have hlines : lines = [] := congrArg SpecialBlock.lines hblock
    rw [hlines]
    exact ⟨fun line hmem => absurd hmem List.not_mem_nil, Nat.zero_le _⟩

/-- In no run, with statistics or without, does a build print the duration of an execution: with
statistics it prints their header, and only with special times of updates. Of these it prints a
line for ten ends at most. A build that only shows something adds no execution, so that the
database has those that it had. -/
theorem run_silent (setting : Setting) (args : Arguments) {earlier : List Execution}
    {history : List Db.Op} {db : Database} (h : Stored earlier history db)
    (notifications : List Notification) :
    let build := TibeeBuild.run setting args db notifications
    let events := notifications.filterMap Notification.special?
    build.punchBlock.lines = (if args.printsStats then [.header] else []) ∧
      (∀ line ∈ build.specialBlock.lines, args.special = true ∧ Measured events line) ∧
      10 * build.specialBlock.lines.length ≤ numEnds events ∧
      (args.onlyShows = true →
        build.buildBlock.calls = [] ∧ Tells earlier [] build.buildBlock.components) := by
  have hprints : Prints args.onlyShows (if args.printsStats then [.header] else [])
      (notifications.foldl (TibeeBuild.step setting (components setting) args)
        (.initial args db)) := (prints_initial args db).foldl args notifications
  obtain ⟨hmeasured, hfew⟩ := specialBlock_run setting args db notifications
  refine ⟨hprints.lines, hmeasured, hfew, fun hshows => ?_⟩
  have hend : (TibeeBuild.run setting args db notifications).buildBlock.calls = [] := by
    unfold TibeeBuild.run TibeeBuild.runWith BuildBlock.onEnd
    dsimp only
    rw [if_pos (hprints.stats.trans hshows)]
    exact hprints.calls hshows
  have htells := tells_run setting args h notifications
  rw [hend] at htells
  exact ⟨hend, htells⟩

/-- Ten updates of a thread, of 5 ns each, with a lock of 2 ns. -/
def tenUpdates : List Notification :=
  (List.replicate 10 [.special ⟨10, 7, .begin_ kUpdate⟩, .special ⟨11, 7, .stepBegin (str "lock")⟩,
    .special ⟨13, 7, .stepEnd (str "lock")⟩, .special ⟨15, 7, .end_⟩]).flatten

theorem run_silent_tenUpdates :
    let build := TibeeBuild.run pathSetting { special := true } {} tenUpdates
    build.punchBlock.lines = [] ∧ build.specialBlock.lines = [⟨5, 2, 0⟩] ∧
      Measured (tenUpdates.filterMap Notification.special?) ⟨5, 2, 0⟩ ∧
      build.buildBlock.calls = [] := by
  have hprinted : (TibeeBuild.run pathSetting { special := true } {}
      tenUpdates).specialBlock.lines = [⟨5, 2, 0⟩] := by
    decide +kernel
  obtain ⟨hlines, hmeasured, -, hshows⟩ :=
    run_silent pathSetting { special := true } stored_empty tenUpdates
  rw [hprinted] at hmeasured
  exact ⟨hlines, hprinted, (hmeasured _ (List.mem_singleton_self _)).2, (hshows rfl).1⟩

end TibeeCompare.Build
