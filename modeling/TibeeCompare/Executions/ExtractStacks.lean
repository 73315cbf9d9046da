import TibeeCompare.Critical.ComputeCriticalPath
import TibeeCompare.Db.Database
import TibeeCompare.Disk.DiskRequests
import TibeeCompare.Stacks.StacksBuilder
import TibeeCompare.State.StateHistory

/-!
`execution::ExtractStacks`: what the threads of a critical path were doing, as samples
of the execution.

The vector of threads is a list with the thread of the current segment apart from those
below it. The amounts that are given to `IncrementSample` are kept in a list. A segment
that waits for a processor is resolved by a recursive call, which is an argument of the
functions below; `extractStacks` closes the knot with a bound on the depth.
-/

namespace TibeeCompare.Executions

open Critical Db Disk Stacks State

/-- What the names and keys of `CurrentState` are used for. -/
structure CurrentState where
  currentNameForThread : ℕ → Bytes
  /-- The key of the processor that a thread is on. -/
  currentCpuKey : ℕ → AttributeKey
  /-- The key of the thread that is on a processor. -/
  currentThreadKey : UInt32 → AttributeKey

structure Sources where
  stacksBuilder : StacksBuilder
  graph : CriticalGraph
  stateHistory : StateHistory
  diskRequests : DiskRequests
  currentState : CurrentState

/-- The state of a `StacksExtractor`. -/
structure Extractor where
  db : Database
  concatenationCache : StackId × StackId → Option StackId := fun _ => none
  execution : Execution := {}
  /-- What `IncrementSample` was given. -/
  amounts : List ℕ := []

inductive ExtractFault
  | fatalError (e : FatalError)
  | divisionByZero
  | critical (fault : Fault)
  /-- The recursion, or the walk down a stack, goes on after the given number of rounds. -/
  | outOfFuel

abbrev ExtractM := ExceptT ExtractFault (StateM Extractor)

def ExtractM.runOn {α : Type} (x : ExtractM α) (s : Extractor) :
    Except ExtractFault α × Extractor :=
  x.run.run s

def liftDb {α : Type} (x : DbM α) : ExtractM α := do
  let s ← get
  match x.runOn s.db with
  | (.ok a, db) => do
      set { s with db }
      pure a
  | (.error e, db) => do
      set { s with db }
      throw (.fatalError e)

def incrementSample (stackId : StackId) (value : ℕ) : ExtractM Unit :=
  modify fun s => { s with
    execution := s.execution.incrementSample stackId (UInt64.ofNat value)
    amounts := s.amounts ++ [value] }

/-- `kMetricNames` from `kNumCustomMetrics` on. -/
def metricName : CriticalEdgeType → String
  | .unknown => "unknown"
  | .vertical => "vertical"
  | .run => "run"
  | .interrupted => "interrupted"
  | .waitCpu => "waitcpu"
  | .waitBlocked => "waitblocked"
  | .timer => "timer"
  | .network => "network"
  | .blockDevice => "blockdevice"
  | .userInput => "input"
  -- past the end of the table; the loop over the path goes on before it asks for this name
  | .epsilon => ""

def getStatusString (type : CriticalEdgeType) : Bytes := str "[" ++ str (metricName type) ++ str "]"

def CurrentState.threadName (state : CurrentState) (tid : ℕ) : Bytes :=
  str "[thread " ++ state.currentNameForThread tid ++ str "]"

/-! ### Stacks -/

def pushOnStack (bottom : StackId) (function : Bytes) : ExtractM StackId := liftDb do
  let function ← addFunctionName function
  addStack ⟨function, bottom⟩

/-- The functions of a stack, on top of those that were already read from above it. A stack
that is longer than there are identifiers goes through one of them twice, and never ends. -/
def topStackFunctions : ℕ → StackId → List FunctionNameId → ExtractM (List FunctionNameId)
  | rounds, top, functions =>
      if top = kEmptyStackId then pure functions
      else
        match rounds with
        | 0 => throw .outOfFuel
        | rounds + 1 => do
            let step ← liftDb (Db.getStack top)
            topStackFunctions rounds step.bottom (step.function :: functions)

def concatenateStacks (bottom top : StackId) : ExtractM StackId :=
  if top = kEmptyStackId then pure bottom
  else do
    let s ← get
    match s.concatenationCache (bottom, top) with
    | some fullStack => pure fullStack
    | none => do
        let functions ← topStackFunctions (2 ^ 32) top []
        let fullStack ← functions.foldlM (fun fullStack function =>
          liftDb (addStack ⟨function, fullStack⟩)) bottom
        modify fun s => { s with
          concatenationCache :=
            Function.update s.concatenationCache (bottom, top) (some fullStack) }
        pure fullStack

structure ThreadInfo where
  tid : ℕ
  stack : StackId
  cleanStack : StackId
deriving DecidableEq

def sampleCallback (back : ThreadInfo) (stackId : StackId) (value : ℕ) : ExtractM Unit := do
  let stackId ← concatenateStacks back.cleanStack stackId
  incrementSample stackId value

def extractOther (segment : CriticalPathSegment) (back : ThreadInfo) : ExtractM Unit := do
  let stackId ← pushOnStack back.cleanStack (getStatusString segment.type)
  incrementSample stackId (subU64 segment.endTs segment.startTs)

/-! ### Durations -/

/-- The sum of some durations, as the source adds them up. -/
def sumU64 (durations : List ℕ) : ℕ := durations.foldl addU64 0

/-- The duration of an interval. -/
def durationOf (interval : Containers.Interval × ℕ) : ℕ := subU64 interval.1.high interval.1.low

/-- `intervalsTotalDuration`, of the intervals of other threads than `tid`. -/
def intervalsTotalDuration (tid : ℕ) (intervals : List (Containers.Interval × ℕ)) : ℕ :=
  sumU64 ((intervals.filter (·.2 ≠ tid)).map durationOf)

/-- The part of a segment that is left for an interval, from its share of the total. -/
def stackDuration (segmentDuration intervalDuration totalDuration totalIncremented : ℕ) : ℕ :=
  min (mulU64 segmentDuration intervalDuration / totalDuration)
    (subU64 segmentDuration totalIncremented)

/-- A call of `ExtractStacks` on a path and a base stack. -/
abbrev Recursion := CriticalPath → StackId → ExtractM Unit

namespace Sources

variable (sources : Sources)

/-- `EnsureCurrentThreadIsOnThreadsStack`: the thread of the segment, and those below it. -/
def ensureCurrentThread (segment : CriticalPathSegment) (baseStackId : StackId)
    (threads : List ThreadInfo) : ExtractM (List ThreadInfo × ThreadInfo) := do
  let back ← match threads.find? (·.tid = segment.tid) with
    | some thread => pure thread
    | none => do
        let cleanStack ← pushOnStack ((threads.getLast?.map (·.stack)).getD baseStackId)
          (sources.currentState.threadName segment.tid)
        pure ⟨segment.tid, cleanStack, cleanStack⟩
  let stack ← concatenateStacks back.cleanStack
    (sources.stacksBuilder.getStack segment.tid segment.endTs)
  pure (threads.takeWhile (·.tid ≠ segment.tid), { back with stack })

/-- The stack of a thread, if it is not there yet. -/
def updateStack (segment : CriticalPathSegment) (back : ThreadInfo) : ExtractM ThreadInfo :=
  if back.stack = back.cleanStack then do
    let stack ← concatenateStacks back.cleanStack
      (sources.stacksBuilder.getStack segment.tid segment.startTs)
    pure { back with stack }
  else pure back

/-! ### Segments -/

def extractRun (segment : CriticalPathSegment) (back : ThreadInfo) : ExtractM Unit := do
  let segmentDuration := subU64 segment.endTs segment.startTs
  let samples := sources.stacksBuilder.enumerateStacks segment.tid segment.startTs segment.endTs
  samples.forM fun sample => sampleCallback back sample.1 sample.2
  let total := sumU64 (samples.map Prod.snd)
  if total < segmentDuration then do
    let stackId ← pushOnStack back.cleanStack (str "No stack")
    incrementSample stackId (subU64 segmentDuration total)

def extractWaitBlocked (segment : CriticalPathSegment) (back : ThreadInfo) :
    ExtractM ThreadInfo := do
  let back ← sources.updateStack segment back
  let stackId ← pushOnStack back.stack (getStatusString segment.type)
  incrementSample stackId (subU64 segment.endTs segment.startTs)
  pure back

/-- The loop over the intervals of other threads: what they were given in total, or `none`
where the loop returns from `ExtractStacks`. -/
def splitOverIntervals (tid segmentDuration totalDuration : ℕ) (diskStackId : StackId) :
    List (Containers.Interval × ℕ) → ℕ → ExtractM (Option ℕ)
  | [], totalIncremented => pure (some totalIncremented)
  | interval :: intervals, totalIncremented =>
      if interval.2 = tid then pure none
      else if totalDuration = 0 then throw .divisionByZero
      else do
        let stackDuration :=
          stackDuration segmentDuration (durationOf interval) totalDuration totalIncremented
        let stackId ← pushOnStack diskStackId
          (str "[" ++ sources.currentState.currentNameForThread interval.2 ++ str "]")
        let stackId ← concatenateStacks stackId
          (sources.stacksBuilder.getStack interval.2 interval.1.low)
        incrementSample stackId segmentDuration
        let totalIncremented := addU64 totalIncremented stackDuration
        if segmentDuration ≤ totalIncremented then pure (some totalIncremented)
        else
          splitOverIntervals tid segmentDuration totalDuration diskStackId intervals
            totalIncremented

def extractBlockDevice (segment : CriticalPathSegment) (back : ThreadInfo) :
    ExtractM (Option ThreadInfo) := do
  let back ← sources.updateStack segment back
  let diskStackId ← pushOnStack back.stack (getStatusString segment.type)
  let intervals := sources.diskRequests.getIntervals segment.startTs segment.endTs
  let criticalSegmentDuration := subU64 segment.endTs segment.startTs
  match ← sources.splitOverIntervals segment.tid criticalSegmentDuration
    (intervalsTotalDuration segment.tid intervals) diskStackId intervals 0 with
  | none => pure none
  | some totalIncremented => do
      incrementSample diskStackId (subU64 criticalSegmentDuration totalIncremented)
      pure (some back)

/-- `fuel` is the bound on the recursion of `ComputeCriticalPath`. -/
def preemptedCallback (fuel : ℕ) (recurse : Recursion) (baseStackId : StackId) (tid : UInt32)
    (start end_ : ℕ) : ExtractM ℕ :=
  if tid = -1 ∨ tid = 0 then pure 0
  else
    match computeCriticalPath sources.graph fuel start end_ tid.toNat with
    | .error fault => throw (.critical fault)
    | .ok criticalPath => do
        recurse criticalPath baseStackId
        pure (subU64 end_ start)

def extractWaitCpu (fuel : ℕ) (recurse : Recursion) (segment : CriticalPathSegment)
    (back : ThreadInfo) : ExtractM Unit := do
  let segmentDuration := subU64 segment.endTs segment.startTs
  let stackId ← pushOnStack back.cleanStack (getStatusString segment.type)
  let lastCpuKey := sources.currentState.currentCpuKey segment.tid
  match sources.stateHistory.getUIntegerValue lastCpuKey segment.startTs with
  | some lastCpu => do
      let curThreadKey := sources.currentState.currentThreadKey lastCpu
      let values := sources.stateHistory.enumerateUIntegerValues curThreadKey segment.startTs
        segment.endTs
      let total ← values.foldlM (fun total value => do
        let duration ← sources.preemptedCallback fuel recurse stackId value.1 value.2.1 value.2.2
        pure (addU64 total duration)) 0
      if total < segmentDuration then incrementSample stackId (subU64 segmentDuration total)
  | none => incrementSample stackId segmentDuration

/-- The samples of a segment other than an epsilon, and its thread; `none` where
`ExtractStacks` returns. -/
def extractSegment (fuel : ℕ) (recurse : Recursion) (segment : CriticalPathSegment)
    (back : ThreadInfo) : ExtractM (Option ThreadInfo) :=
  match segment.type with
  | .run => do
      sources.extractRun segment back
      pure (some back)
  | .waitBlocked | .timer | .network | .userInput => do
      let back ← sources.extractWaitBlocked segment back
      pure (some back)
  | .blockDevice => sources.extractBlockDevice segment back
  | .waitCpu => do
      sources.extractWaitCpu fuel recurse segment back
      pure (some back)
  | .unknown | .vertical | .interrupted | .epsilon => do
      extractOther segment back
      pure (some back)

/-- The loop over the path. It leaves the segments that are not processed. -/
def extractPath (fuel : ℕ) (recurse : Recursion) (baseStackId : StackId) :
    CriticalPath → List ThreadInfo → ExtractM CriticalPath
  | [], _ => pure []
  | segment :: path, threads => do
      let (below, back) ← sources.ensureCurrentThread segment baseStackId threads
      if segment.type = .epsilon then
        extractPath fuel recurse baseStackId path (below ++ [back])
      else
        match ← sources.extractSegment fuel recurse segment back with
        | none => pure (segment :: path)
        | some back => do
            let stack ← concatenateStacks back.cleanStack
              (sources.stacksBuilder.getStack segment.tid segment.endTs)
            extractPath fuel recurse baseStackId path (below ++ [{ back with stack }])

/-- The recursion, to a given depth. -/
def extractRecursive (fuel : ℕ) : ℕ → Recursion
  | 0 => fun _ _ => throw .outOfFuel
  | depth + 1 => fun criticalPath baseStackId => do
      let _ ← sources.extractPath fuel (extractRecursive fuel depth) baseStackId criticalPath []

/-- `ExtractStacks`, with the segments of the path that are not processed. -/
def extractStacks (fuel depth : ℕ) (criticalPath : CriticalPath) : ExtractM CriticalPath :=
  sources.extractPath fuel (sources.extractRecursive fuel depth) kEmptyStackId criticalPath []

end Sources

end TibeeCompare.Executions
