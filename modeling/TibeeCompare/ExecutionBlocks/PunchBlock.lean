import TibeeCompare.Executions.ExecutionsBuilder

/-!
`PunchBlock`: executions that are delimited by a begin event and an end event.

What a handler reads from the event and the current state is its arguments: the thread, the
name of the thread, and the time.
-/

namespace TibeeCompare.ExecutionBlocks

open Executions

/-- What is printed with statistics. -/
inductive Line
  | header
  | duration (us ts : UInt64)
deriving DecidableEq, Repr

structure PunchBlock where
  name : Bytes := []
  exec : Bytes := []
  stats : Bool := false
  /-- `std::cout`, line by line. -/
  lines : List Line := []

/-- The fields of the parameters that are there. -/
structure PunchParams where
  name : Option Bytes
  exec : Option Bytes
  begin_ : Option Bytes
  end_ : Option Bytes
  stats : Option Bool

namespace PunchBlock

/-- A block that misses some parameters is left as it is. -/
def start (block : PunchBlock) (params : PunchParams) : PunchBlock :=
  match params.name, params.exec, params.begin_, params.end_, params.stats with
  | some name, some exec, some _, some _, some stats =>
      { name, exec, stats, lines := if stats then block.lines ++ [.header] else block.lines }
  | _, _, _, _, _ => block

def tidIsAnalyzed (block : PunchBlock) (threadName : Bytes) : Bool :=
  block.exec.isEmpty || threadName == block.exec

def onBegin (block : PunchBlock) (executions : ExecutionsBuilder) (tid : UInt32)
    (threadName : Bytes) : ExecutionsBuilder :=
  if !block.tidIsAnalyzed threadName then executions
  else executions.startExecution tid block.name true

def onEnd (block : PunchBlock) (executions : ExecutionsBuilder) (tid : UInt32)
    (threadName : Bytes) (stateTs : UInt64) : PunchBlock × ExecutionsBuilder :=
  if !block.tidIsAnalyzed threadName then (block, executions)
  else
    let (duration, executions) := executions.endExecution tid
    if block.stats ∧ duration ≠ 0 ∧ 5000000 < duration then
      ({ block with lines := block.lines ++ [.duration (duration / 1000) stateTs] }, executions)
    else (block, executions)

/-- The end of an execution prints at most a line. -/
theorem onEnd_cases (block : PunchBlock) (executions : ExecutionsBuilder) (tid : UInt32)
    (threadName : Bytes) (stateTs : UInt64) :
    (block.tidIsAnalyzed threadName = false ∧
        block.onEnd executions tid threadName stateTs = (block, executions)) ∨
      (block.tidIsAnalyzed threadName = true ∧
        (block.onEnd executions tid threadName stateTs).2 = (executions.endExecution tid).2 ∧
        ((block.onEnd executions tid threadName stateTs).1 = block ∨
          block.stats = true ∧ (executions.endExecution tid).1 ≠ 0 ∧
            (block.onEnd executions tid threadName stateTs).1 =
              { block with
                lines := block.lines ++
                  [.duration ((executions.endExecution tid).1 / 1000) stateTs] })) := by
  unfold onEnd
  cases hanalyzed : block.tidIsAnalyzed threadName with
  | false => exact .inl ⟨rfl, rfl⟩
  | true =>
      refine .inr ⟨rfl, ?_⟩
      rw [if_neg (by decide)]
      dsimp only
      split
      · next hprint => exact ⟨rfl, .inr ⟨hprint.1, hprint.2.1, rfl⟩⟩
      · exact ⟨rfl, .inl rfl⟩

end PunchBlock

end TibeeCompare.ExecutionBlocks
