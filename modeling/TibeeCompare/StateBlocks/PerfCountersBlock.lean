import TibeeCompare.BuildBlocks.AbstractBuildBlock
import TibeeCompare.Executions.ExtractMetrics

/-!
The blocks that fill the state history: `PerfCountersBlock`, which gives it the readings of
performance counters, and `StateHistoryBlock`, which gives it the processor of each thread
and the thread of each processor.

The key of a counter of a thread, which the source finds with names and quarks, is an
argument. What a block calls the history with is a list of operations.
-/

namespace TibeeCompare.StateBlocks

open BuildBlocks Executions State

/-! ### `StateHistoryBlock` -/

/-- An attribute without a value is recorded as the greatest one. -/
def onState (key : AttributeKey) (value : Option UInt32) : State.Op :=
  .setUIntegerValue key (value.getD (-1))

/-! ### `PerfCountersBlock` -/

/-- The field of a counter in the contexts of events. -/
def getPerfFieldName (type str : String) : String :=
  "perf_" ++ type ++ "_" ++ str.map fun c => if c = '-' then '_' else c

structure PerfCountersBlock where
  ustInitialized : Bool := false
  kernelInitialized : Bool := false
  ustCounters : List String := []
  kernelCounters : List String := []
deriving DecidableEq

/-- The counters that an event has the fields of. -/
def presentCounters (type : String) (event : EventValue) : List String :=
  kPerformanceCounters.filter fun counter =>
    (event.uLong (getPerfFieldName type counter)).isSome

namespace PerfCountersBlock

variable (counterKey : ℕ → String → AttributeKey) (block : PerfCountersBlock) (event : EventValue)

/-- The first event of the kernel decides on the counters that are read. -/
def initializeKernel : PerfCountersBlock :=
  if block.kernelInitialized then block
  else { block with kernelCounters := presentCounters "cpu" event, kernelInitialized := true }

def initializeUst : PerfCountersBlock :=
  if block.ustInitialized then block
  else { block with ustCounters := presentCounters "thread" event, ustInitialized := true }

/-- The loops over counters: what `call` says of the counters that the event has a value for. -/
def forCounters (type : String) (counters : List String) (call : String → UInt64 → List State.Op) :
    List State.Op :=
  counters.flatMap fun counter =>
    match event.uLong (getPerfFieldName type counter) with
    | none => []
    | some value => call counter value

def onSchedSwitchEvent (prevTid nextTid : ℕ) : PerfCountersBlock × List State.Op :=
  let block := block.initializeKernel event
  (block, forCounters event "cpu" block.kernelCounters fun counter value =>
    [.setPerfCounterCpuValue (counterKey prevTid counter) value,
      .setPerfCounterCpuBaseValue (counterKey nextTid counter) value])

def onTTWUEvent : PerfCountersBlock × List State.Op :=
  let block := block.initializeKernel event
  (block, forCounters event "cpu" block.kernelCounters fun counter value =>
    [.setPerfCounterCpuValue (counterKey event.threadForEvent counter) value])

def onUstEvent : PerfCountersBlock × List State.Op :=
  let block := block.initializeUst event
  (block, forCounters event "thread" block.ustCounters fun counter value =>
    [.setPerfCounterThreadValue (counterKey event.threadForEvent counter) value])

end PerfCountersBlock

/-! ### Runs -/

/-- What the two blocks and `BuildBlock` do to the history. -/
inductive Notification
  | schedSwitch (event : EventValue) (prevTid nextTid : ℕ)
  | schedTtwu (event : EventValue)
  | ust (event : EventValue)
  | state (key : AttributeKey) (value : Option UInt32)
  | timestamp (ts : ℕ)
  | cleanup (ts : ℕ)

structure Recorder where
  block : PerfCountersBlock := {}
  stateHistory : StateHistory := {}

/-- The block behind a notification, and the calls that it leads to. -/
def Notification.calls (counterKey : ℕ → String → AttributeKey) (block : PerfCountersBlock) :
    Notification → PerfCountersBlock × List State.Op
  | schedSwitch event prevTid nextTid => block.onSchedSwitchEvent counterKey event prevTid nextTid
  | schedTtwu event => block.onTTWUEvent counterKey event
  | ust event => block.onUstEvent counterKey event
  | state key value => (block, [onState key value])
  | timestamp ts => (block, [.setTimestamp ts])
  | cleanup ts => (block, [.cleanup ts])

/-- The result is `none` if a call does not return. -/
def Recorder.step (counterKey : ℕ → String → AttributeKey) (recorder : Recorder)
    (notification : Notification) : Option Recorder := do
  let (block, calls) := notification.calls counterKey recorder.block
  let stateHistory ← runAll recorder.stateHistory calls
  pure { block, stateHistory }

/-- The block and the history after some notifications, the last one first. -/
def recorded (counterKey : ℕ → String → AttributeKey) : List Notification → Option Recorder
  | [] => some {}
  | notification :: past => do
      let recorder ← recorded counterKey past
      recorder.step counterKey notification

end TibeeCompare.StateBlocks
