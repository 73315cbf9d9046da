import TibeeCompare.BuildBlocks.BuildBlock
import TibeeCompare.CriticalBlocks.CriticalBlock
import TibeeCompare.ExecutionBlocks.PunchBlock
import TibeeCompare.ExecutionBlocks.SpecialBlock
import TibeeCompare.Executions.ExtractStacks
import TibeeCompare.Executions.TimingMetrics
import TibeeCompare.StacksBlocks.ProfilerBlock
import TibeeCompare.StateBlocks.PerfCountersBlock

/-!
`TibeeBuild::run`: all blocks of a build, from the notifications of a trace to the database.

A build opens the database that earlier builds left. A run is a list of notifications, each for
one block. What the order of a hash table decides, the keys of attributes, and the bounds on loops
and recursions are in a `Setting`. A build goes on from its services or, once a part of it went
wrong, stays as that left it.
-/

namespace TibeeCompare.Build

open BuildBlocks Critical CriticalBlocks Db Disk ExecutionBlocks Executions Stacks StacksBlocks
  State StateBlocks

/-! ### The blocks of a build -/

structure Arguments where
  name : Bytes := []
  exec : Bytes := []
  beginEvent : Bytes := []
  endEvent : Bytes := []
  dumpStacks : Bool := false
  stats : Bool := false
  special : Bool := false

inductive Block
  | trace | punch | currentState | profiler | critical | linuxSchedState | stateHistory
  | perfCounters | special | build
deriving DecidableEq

namespace Arguments

variable (args : Arguments)

/-- What `BuildBlock` is told: not to track executions. -/
def onlyShows : Bool := args.dumpStacks || args.stats || args.special

/-- The blocks in the order in which the runner gets them. -/
def blocks : List Block :=
  [Block.trace] ++ (if !args.dumpStacks && !args.special then [Block.punch] else []) ++
    [Block.currentState, Block.profiler] ++
    (if !args.dumpStacks && !args.stats && !args.special then [Block.critical] else []) ++
    [Block.linuxSchedState] ++
    (if !args.dumpStacks && !args.stats && !args.special then [Block.stateHistory] else []) ++
    (if !args.dumpStacks && !args.stats && !args.special then [Block.perfCounters] else []) ++
    (if args.special then [Block.special] else []) ++ [Block.build]

def punchParams : PunchParams where
  name := some args.name
  exec := some args.exec
  begin_ := some args.beginEvent
  end_ := some args.endEvent
  stats := some args.stats

end Arguments

/-! ### The services -/

structure Setting where
  kInvalidThread : ℕ
  currentCpuKey : ℕ → AttributeKey
  currentThreadKey : UInt32 → AttributeKey
  counterKey : ℕ → String → AttributeKey
  /-- The order of the threads of the critical graph in their hash table. -/
  graphOrder : CriticalGraph → List ℕ
  /-- That of the threads of the executions. -/
  executionsOrder : List UInt32
  /-- The bounds on the recursions of the path search and of the extraction of stacks. -/
  fuel : ℕ
  depth : ℕ

inductive BuildFault
  | critical (fault : Fault)
  | extract (fault : ExtractFault)
  | fatalError (e : FatalError)
  /-- A call on the state history that does not return. -/
  | endless

/-- A build that went wrong, and the database as it left it. -/
structure Crash where
  fault : BuildFault
  database : Database

/-- The state of the blocks that fill the database or are read for it, and what they share. -/
structure Services where
  criticalBlock : CriticalBlock := .initial
  /-- `PerfCountersBlock` with the state history. -/
  recorder : Recorder := {}
  stacksBuilder : StacksBuilder := {}
  diskRequests : DiskRequests := {}
  database : Database := {}
  /-- The static cache of `ExtractStacks`. -/
  concatenationCache : StackId × StackId → Option StackId := fun _ => none
  /-- The names that the current state has for the threads. -/
  currentNameForThread : ℕ → Bytes := fun _ => []

namespace Services

variable (setting : Setting) (services : Services)

/-- What an extraction reads. -/
def sources : Sources where
  stacksBuilder := services.stacksBuilder
  graph := services.criticalBlock.graph
  stateHistory := services.recorder.stateHistory
  diskRequests := services.diskRequests
  currentState :=
    { currentNameForThread := services.currentNameForThread
      currentCpuKey := setting.currentCpuKey
      currentThreadKey := setting.currentThreadKey }

def setStateHistory (stateHistory : StateHistory) : Services :=
  { services with recorder := { services.recorder with stateHistory } }

/-! ### What `BuildBlock` asks for -/

def setTimestamp (ts : ℕ) : Services :=
  { services with
    criticalBlock := services.criticalBlock.setTimestamp ts
    recorder :=
      { services.recorder with stateHistory := services.recorder.stateHistory.setTimestamp ts }
    stacksBuilder := services.stacksBuilder.setTimestamp ts }

def terminate : Services := { services with stacksBuilder := services.stacksBuilder.terminate }

def cleanup (ts : ℕ) : Except Crash Services :=
  match services.criticalBlock.graph.cleanup ts
      (setting.graphOrder services.criticalBlock.graph) with
  | .error fault => .error ⟨.critical fault, services.database⟩
  | .ok graph => .ok { services with
      criticalBlock := { services.criticalBlock with graph }
      recorder :=
        { services.recorder with stateHistory := services.recorder.stateHistory.cleanup ts }
      stacksBuilder := services.stacksBuilder.cleanup ts
      diskRequests := services.diskRequests.cleanup ts }

/-- The `StacksExtractor` for an execution. -/
def extractor (execution : Execution) : Extractor where
  db := services.database
  concatenationCache := services.concatenationCache
  execution := execution

def afterExtraction (extractor : Extractor) : Services :=
  { services with
    database := extractor.db
    concatenationCache := extractor.concatenationCache }

/-- The body of the loop of `SaveExecutions`, up to the metrics. -/
def extract (execution : Execution) : Except Crash ((IdMap × IdMap) × Services) :=
  match computeCriticalPath services.criticalBlock.graph setting.fuel execution.startTs.toNat
      execution.endTs.toNat execution.startThread.toNat with
  | .error fault => .error ⟨.critical fault, services.database⟩
  | .ok criticalPath =>
      match ((services.sources setting).extractStacks setting.fuel setting.depth
          criticalPath).runOn (services.extractor execution) with
      | (.error fault, extractor) => .error ⟨.extract fault, extractor.db⟩
      | (.ok _, extractor) =>
          let execution := (extractMetrics criticalPath services.recorder.stateHistory
            setting.counterKey extractor.execution).1
          .ok ((execution.metrics, execution.samples), services.afterExtraction extractor)

def addExecution (execution : Execution) : Except Crash Services :=
  match (Db.addExecution execution).runOn services.database with
  | (.error e, database) => .error ⟨.fatalError e, database⟩
  | (.ok _, database) => .ok { services with database }

/-! ### What the other blocks do -/

/-- A handler of `CriticalBlock`, and the requests to the disk that it adds. -/
def onCriticalEvent (event : CriticalBlocks.Event) : Except Crash Services :=
  match services.criticalBlock.onEvent setting.kInvalidThread event with
  | .error fault => .error ⟨.critical fault, services.database⟩
  | .ok criticalBlock =>
      let added := criticalBlock.diskIntervals.drop services.criticalBlock.diskIntervals.length
      .ok { services with
        criticalBlock
        diskRequests := added.foldl (fun requests (start, end_, tid) =>
          requests.addInterval start end_ tid) services.diskRequests }

/-- A handler of `ProfilerBlock`, at the time of the event. -/
def onProfilerEvent (tid : ℕ) (event : ProfilerEvent) : Except Crash Services :=
  match (StacksBlocks.onEvent services.stacksBuilder services.stacksBuilder.ts tid event).runOn
      services.database with
  | (.error e, database) => .error ⟨.fatalError e, database⟩
  | (.ok stacksBuilder, database) => .ok { services with stacksBuilder, database }

/-- A handler of `PerfCountersBlock` or `StateHistoryBlock`. -/
def onStateNotification (notification : StateBlocks.Notification) : Except Crash Services :=
  match services.recorder.step setting.counterKey notification with
  | none => .error ⟨.endless, services.database⟩
  | some recorder => .ok { services with recorder }

end Services

/-- The services, as the components that `BuildBlock` drives. -/
def components (setting : Setting) : Components (Except Crash Services) where
  setTimestamp ts services := services.map (·.setTimestamp ts.toNat)
  terminate services := services.map (·.terminate)
  cleanup ts services := services.bind (·.cleanup setting ts.toNat)
  extract execution services :=
    match services.bind (·.extract setting execution) with
    | .error crash => ((IdMap.empty, IdMap.empty), .error crash)
    | .ok (maps, services) => (maps, .ok services)
  addExecution execution services := services.bind (·.addExecution execution)
  order _ := setting.executionsOrder

/-! ### Runs -/

inductive Notification
  | timestamp (ts : UInt64)
  | executionBegin (tid : UInt32) (threadName : Bytes)
  | executionEnd (tid : UInt32) (threadName : Bytes) (stateTs : UInt64)
  | critical (event : CriticalBlocks.Event)
  | profiler (tid : ℕ) (event : ProfilerEvent)
  | stateAttribute (key : AttributeKey) (value : Option UInt32)
  | schedSwitch (event : EventValue) (prevTid nextTid : ℕ)
  | schedTtwu (event : EventValue)
  | ust (event : EventValue)
  | special (event : TracekitEvent)
  | threadNames (currentNameForThread : ℕ → Bytes)

/-- The block that a notification is for. -/
def Notification.block : Notification → Block
  | timestamp _ => .build
  | executionBegin _ _ | executionEnd _ _ _ => .punch
  | critical _ => .critical
  | profiler _ _ => .profiler
  | stateAttribute _ _ => .stateHistory
  | schedSwitch _ _ _ | schedTtwu _ | ust _ => .perfCounters
  | special _ => .special
  | threadNames _ => .currentState

/-- What a notification does to the services. -/
def Notification.serve (setting : Setting) (services : Services) :
    Notification → Except Crash Services
  | critical event => services.onCriticalEvent setting event
  | profiler tid event => services.onProfilerEvent tid event
  | stateAttribute key value => services.onStateNotification setting (.state key value)
  | schedSwitch event prevTid nextTid =>
      services.onStateNotification setting (.schedSwitch event prevTid nextTid)
  | schedTtwu event => services.onStateNotification setting (.schedTtwu event)
  | ust event => services.onStateNotification setting (.ust event)
  | threadNames currentNameForThread => .ok { services with currentNameForThread }
  | timestamp _ | executionBegin _ _ | executionEnd _ _ _ | special _ => .ok services

structure TibeeBuild where
  punchBlock : PunchBlock
  specialBlock : SpecialBlock := {}
  buildBlock : BuildBlock (Except Crash Services)

namespace TibeeBuild

def initial (args : Arguments) (db : Database) : TibeeBuild where
  punchBlock :=
    if .punch ∈ args.blocks then ({} : PunchBlock).start args.punchParams else {}
  buildBlock := { stats := args.onlyShows, components := .ok { database := Db.reopen db } }

variable (setting : Setting) (c : Components (Except Crash Services))

/-- The block of the notification runs. `c` is what `BuildBlock` drives. -/
def onNotification (build : TibeeBuild) : Notification → TibeeBuild
  | .timestamp ts => { build with buildBlock := build.buildBlock.onTimestamp c ts }
  | .executionBegin tid threadName =>
      let executionsBuilder :=
        build.punchBlock.onBegin build.buildBlock.executionsBuilder tid threadName
      { build with buildBlock := { build.buildBlock with executionsBuilder } }
  | .executionEnd tid threadName stateTs =>
      let (punchBlock, executionsBuilder) :=
        build.punchBlock.onEnd build.buildBlock.executionsBuilder tid threadName stateTs
      { build with punchBlock, buildBlock := { build.buildBlock with executionsBuilder } }
  | .special event => { build with specialBlock := build.specialBlock.onEvent event }
  | notification =>
      let components := build.buildBlock.components.bind (notification.serve setting)
      { build with buildBlock := { build.buildBlock with components } }

/-- Blocks that were not added see nothing. -/
def step (args : Arguments) (build : TibeeBuild) (notification : Notification) : TibeeBuild :=
  if notification.block ∈ args.blocks then build.onNotification setting c notification else build

/-- A trace up to its end. -/
def runWith (args : Arguments) (db : Database) (notifications : List Notification) : TibeeBuild :=
  let build := notifications.foldl (step setting c args) (initial args db)
  { build with buildBlock := build.buildBlock.onEnd c }

def run (args : Arguments) (db : Database) (notifications : List Notification) : TibeeBuild :=
  runWith setting (components setting) args db notifications

end TibeeBuild

end TibeeCompare.Build
