import TibeeCompare.Executions.ExecutionsBuilder

/-!
`BuildBlock`: keeps the clock of all builders, and saves the executions that are complete
every 12 seconds and at the end of the trace.

What the block drives besides the builder of executions is `Components`, of any kind.
The block keeps a list of the cleanups that it asks for and of the executions that it
adds to the database.
-/

namespace TibeeCompare.BuildBlocks

open Db Executions

/-- 12 seconds. -/
def kSaveInterval : UInt64 := 12000000000

/-- The other builders, the critical graph, the histories and the database, in a state
of type `σ`. -/
structure Components (σ : Type) where
  /-- The clocks of the components. -/
  setTimestamp : UInt64 → σ → σ
  /-- The end of all stacks. -/
  terminate : σ → σ
  /-- The four cleanups. -/
  cleanup : UInt64 → σ → σ
  /-- What the critical path of an execution gives: its metrics and samples. -/
  extract : Execution → σ → (IdMap × IdMap) × σ
  addExecution : Execution → σ → σ
  /-- The order of the threads in a hash table of the builder of executions. -/
  order : σ → List UInt32

inductive Call
  | addExecution (execution : Execution)
  | cleanup (ts : UInt64)
deriving DecidableEq

structure BuildBlock (σ : Type) where
  stats : Bool := false
  executionsBuilder : ExecutionsBuilder := {}
  components : σ
  saveTs : UInt64 := 0
  lastCleanupTs : UInt64 := 0
  numExecutions : ℕ := 0
  calls : List Call := []

namespace BuildBlock

variable {σ : Type} (c : Components σ)

/-- The body of the loop of `SaveExecutions`. -/
def saveExecution (block : BuildBlock σ) (execution : Execution) : BuildBlock σ :=
  if execution.startTs < block.lastCleanupTs then block
  else
    let ((metrics, samples), components) := c.extract execution block.components
    let execution := { execution with metrics, samples }
    { block with
      components := c.addExecution execution components
      numExecutions := block.numExecutions + 1
      calls := block.calls ++ [.addExecution execution] }

def saveExecutions (block : BuildBlock σ) : BuildBlock σ :=
  let executionsBuilder := block.executionsBuilder.terminate (c.order block.components)
  let block := { block with executionsBuilder, components := c.terminate block.components }
  let block := executionsBuilder.completedExecutions.foldl (saveExecution c) block
  { block with executionsBuilder := block.executionsBuilder.flush }

def setTimestamp (block : BuildBlock σ) (ts : UInt64) : BuildBlock σ :=
  { block with
    executionsBuilder := block.executionsBuilder.setTimestamp ts
    components := c.setTimestamp ts block.components }

/-- Cleans everything that is `kSaveInterval` old. -/
def cleanup (block : BuildBlock σ) : BuildBlock σ :=
  { block with
    components := c.cleanup block.saveTs block.components
    calls := block.calls ++ [.cleanup block.saveTs]
    lastCleanupTs := block.saveTs }

def onTimestamp (block : BuildBlock σ) (ts : UInt64) : BuildBlock σ :=
  if block.stats then block
  else
    let block := block.setTimestamp c ts
    if block.saveTs = 0 then { block with saveTs := ts }
    else if block.saveTs + kSaveInterval < ts then
      { (block.saveExecutions c).cleanup c with saveTs := ts }
    else block

def onEnd (block : BuildBlock σ) : BuildBlock σ :=
  if block.stats then block else block.saveExecutions c

end BuildBlock

/-! ### Runs -/

/-- A timestamp notification, or a call of another block on the builder of executions. -/
inductive Op
  | timestamp (ts : UInt64)
  | startExecution (thread : UInt32) (name : Bytes)
  | endExecution (thread : UInt32)
deriving DecidableEq

def Op.run {σ : Type} (c : Components σ) (block : BuildBlock σ) : Op → BuildBlock σ
  | timestamp ts => block.onTimestamp c ts
  | startExecution thread name =>
      { block with
        executionsBuilder := block.executionsBuilder.startExecution thread name true }
  | endExecution thread =>
      { block with executionsBuilder := (block.executionsBuilder.endExecution thread).2 }

/-- The block after a trace. -/
def after {σ : Type} (c : Components σ) (components : σ) (ops : List Op) : BuildBlock σ :=
  (ops.foldl (Op.run c) { components }).onEnd c

def Op.timestamp? : Op → Option UInt64
  | timestamp ts => some ts
  | _ => none

end TibeeCompare.BuildBlocks
