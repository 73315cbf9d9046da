import TibeeCompare.Build.SavedExecutions
import TibeeCompare.Executions.SampleTotals
import TibeeCompare.Executions.StatusTotals

/-!
The samples of a saved execution beside its metrics.

The statuses are added up from the critical path and the samples from what the threads on it and
those that preempted them did, which the search, the stacks and the history tell apart from each
other. Both come to the duration of the execution.
-/

namespace TibeeCompare.Build

open BuildBlocks Critical Db Executions Intervals

theorem nonEpsilonDuration_of_thin {path : CriticalPath} (hthin : ThinPath path) :
    nonEpsilonDuration path = (path.map fun segment => segment.endTs - segment.startTs).sum := by
  induction path with
  | nil => rfl
  | cons segment path ih =>
      obtain ⟨hsegment, hpath⟩ := List.forall_mem_cons.mp hthin
      have ih := ih hpath
      unfold nonEpsilonDuration at ih ⊢
      rw [List.map_cons, List.sum_cons, ← ih]
      by_cases hepsilon : segment.type = .epsilon
      · rw [List.filter_cons_of_neg (by simpa using hepsilon), hsegment hepsilon, Nat.sub_self,
          Nat.zero_add]
      · rw [List.filter_cons_of_pos (by simpa using hepsilon), List.map_cons, List.sum_cons]

/-- Thread 1 waits for thread 2, which has no stacks. -/
def wokenServices : Services where
  criticalBlock := { CriticalBlocks.CriticalBlock.initial with graph := wokenPair }

def wokenExecution : Execution := { startTs := 2, startThread := 1, endTs := 10, endThread := 1 }

def shallowSetting : Setting := { pathSetting with fuel := 2, depth := 1 }

end TibeeCompare.Build
