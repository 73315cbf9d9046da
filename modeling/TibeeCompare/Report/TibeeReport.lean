import TibeeCompare.Db.Sampling
import TibeeCompare.Report.WriteExecutions

/-!
`TibeeReport::run`: a report as one Json file, the executions of a name first, then the stacks
that their samples are of.

The file is taken to be open. What is read from the database comes before what is written for
it, and nothing is said of what is in a file when an exception ended the program.
-/

namespace TibeeCompare.Report

open Base Db

def kNumDesiredExecutions : UInt64 := 50000

/-! ### `WriteExecutions` -/

/-- The callback for one execution after the other: the calls, and the maps that are left. -/
def writeEach (rounds : ℕ) : StackMaps → List Execution → DbM (Option (StackMaps × List Call))
  | maps, [] => pure (some (maps, []))
  | maps, execution :: executions => do
      match ← writeExecution rounds maps execution with
      | none => pure none
      | some (maps, written) =>
          match ← writeEach rounds maps executions with
          | none => pure none
          | some (maps, calls) =>
              pure (some (maps, writeExecutionCalls execution written ++ calls))

/-! ### `WriteStacks` -/

/-- The entries of the map with keys below a bound, in the order of the keys. -/
def StackMaps.entriesBelow (maps : StackMaps) (bound : ℕ) : List (StackId × Stack) :=
  (List.range bound).filterMap fun id =>
    (maps.stacksMap (UInt32.ofNat id)).map (UInt32.ofNat id, ·)

/-- `std::map` is ordered by its keys. -/
def StackMaps.entries (maps : StackMaps) : List (StackId × Stack) := maps.entriesBelow (2 ^ 32)

def writeStackEntries : List (StackId × Stack) → DbM (List Call)
  | [] => pure []
  | (stackId, stack) :: entries => do
      let function ← getFunctionName stack.function
      let calls ← writeStackEntries entries
      pure ([.keyDictValue (decimalDigits stackId.toNat),
        .keyValue (str "b") (.number (decimal stack.bottom.toNat)),
        .keyValue (str "f") (.string function), .endDict] ++ calls)

def writeStacks (maps : StackMaps) : DbM (List Call) := do
  let calls ← writeStackEntries maps.entries
  pure ([.keyDictValue (str "stacks")] ++ calls ++ [.endDict])

/-! ### The report -/

/-- The calls of a report. The result is `none` where the enumeration divides by zero, or a loop
goes on for more than the given number of rounds. -/
def TibeeReport.run (sizes : ApproximateSizes) (rounds : ℕ) (name : Bytes) :
    DbM (Option (List Call)) := do
  match ← enumerateExecutionsDesired sizes name kNumDesiredExecutions with
  | none => pure none
  | some executions =>
      match ← writeEach rounds {} executions with
      | none => pure none
      | some (maps, calls) => do
          let stackCalls ← writeStacks maps
          pure (some ([.beginDict] ++ ([.keyArrayValue (str "executions")] ++ calls ++
            [.endArray]) ++ stackCalls ++ [.endDict]))

end TibeeCompare.Report
