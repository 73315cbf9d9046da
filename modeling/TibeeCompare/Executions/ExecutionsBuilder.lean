import TibeeCompare.Db.Records
import Mathlib.Logic.Function.Basic

/-!
`execution::ExecutionsBuilder`: the executions that threads are in, and those that they
completed.
-/

namespace TibeeCompare.Executions

open Db

structure ExecutionsBuilder where
  ts : UInt64 := 0
  completedExecutions : List Execution := []
  activeExecutions : UInt32 → Option Execution := fun _ => none
  needsToEnd : UInt32 → Option Bool := fun _ => none

namespace ExecutionsBuilder

def setTimestamp (b : ExecutionsBuilder) (ts : UInt64) : ExecutionsBuilder := { b with ts }

def startExecution (b : ExecutionsBuilder) (thread : UInt32) (name : Bytes) (needsToEnd : Bool) :
    ExecutionsBuilder :=
  { b with
    activeExecutions := Function.update b.activeExecutions thread (some
      { name, startTs := b.ts, startThread := thread, endTs := b.ts, endThread := thread })
    needsToEnd := Function.update b.needsToEnd thread (some needsToEnd) }

/-- The duration of the execution, with the builder that is left. -/
def endExecution (b : ExecutionsBuilder) (thread : UInt32) : UInt64 × ExecutionsBuilder :=
  match b.activeExecutions thread with
  | none => (0, b)
  | some execution =>
      (b.ts - execution.startTs,
        { b with
          completedExecutions :=
            b.completedExecutions ++ [{ execution with endTs := b.ts, endThread := thread }]
          activeExecutions := Function.update b.activeExecutions thread none })

/-- Completes active executions that do not need to end. `_needsToEnd` is a hash table,
so the order in which the threads are visited is an argument. -/
def terminate (b : ExecutionsBuilder) (order : List UInt32) : ExecutionsBuilder :=
  order.foldl (fun b thread =>
    if b.needsToEnd thread = some false then (b.endExecution thread).2 else b) b

def flush (b : ExecutionsBuilder) : ExecutionsBuilder := { b with completedExecutions := [] }

end ExecutionsBuilder

end TibeeCompare.Executions
