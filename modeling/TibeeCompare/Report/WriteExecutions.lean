import TibeeCompare.Base.JsonWriter
import TibeeCompare.Db.Database
import TibeeCompare.Executions.ExtractMetrics
import Mathlib.Data.Nat.Digits.Lemmas

/-!
`report::WriteExecutions`: the executions of a name as Json, with the samples of each stack
summed up over the stacks on top of it.

The calls of the writer are listed. The worklist of `EnsureStacksInMap` is what the index of
the loop did not come to yet. The loop and the recursion are given a number of rounds, and the
result is `none` when they go on for longer.
-/

namespace TibeeCompare.Report

open Base Db Executions Lib

/-! ### Decimal numbers -/

/-- The characters that `std::to_string` gives for a number. -/
def decimalDigits (n : ℕ) : Bytes :=
  if n = 0 then [48] else (Nat.digits 10 n).reverse.map fun d => UInt8.ofNat (48 + d)

theorem eq_digit_of_mem {n : ℕ} {b : UInt8} (hb : b ∈ decimalDigits n) :
    ∃ d < 10, b = UInt8.ofNat (48 + d) := by
  rw [decimalDigits] at hb
  split at hb
  · exact ⟨0, by decide, List.mem_singleton.mp hb⟩
  · obtain ⟨d, hd, rfl⟩ := List.mem_map.mp hb
    exact ⟨d, Nat.digits_lt_base (by decide) (List.mem_reverse.mp hd), rfl⟩

/-- `std::to_string` as the text of a number. -/
def decimal (n : ℕ) : Numeral where
  val := decimalDigits n
  property := by
    constructor
    · rw [decimalDigits]
      split
      · exact List.cons_ne_nil _ _
      · next hn => simpa [Nat.digits_eq_nil_iff_eq_zero] using hn
    · refine List.all_eq_true.mpr fun b hb => ?_
      obtain ⟨d, hd, rfl⟩ := eq_digit_of_mem hb
      have hall : ∀ d < 10, (!isStructural (UInt8.ofNat (48 + d))) = true := by decide
      exact hall d hd

/-- The number is read back from its digits. -/
theorem ofDigits_decimalDigits (n : ℕ) :
    Nat.ofDigits 10 ((decimalDigits n).reverse.map fun b => b.toNat - 48) = n := by
  rw [decimalDigits]
  split
  · next hn => rw [hn]; rfl
  · have hdigit : ∀ d ∈ Nat.digits 10 n, (UInt8.ofNat (48 + d)).toNat - 48 = d := by
      intro d hd
      have hlt : d < 10 := Nat.digits_lt_base (by decide) hd
      have hall : ∀ d < 10, (UInt8.ofNat (48 + d)).toNat - 48 = d := by decide
      exact hall d hlt
    rw [← List.map_reverse, List.reverse_reverse, List.map_map, Function.comp_def,
      List.map_congr_left hdigit, List.map_id', Nat.ofDigits_digits]

theorem decimalDigits_injective : Function.Injective decimalDigits := by
  intro m n h
  rw [← ofDigits_decimalDigits m, h, ofDigits_decimalDigits]

/-! ### The stacks of the executions -/

structure StackMaps where
  /-- `StacksMap`. -/
  stacksMap : StackId → Option Stack := fun _ => none
  /-- `ReverseStacksMap`: the stacks right on top of a stack. -/
  reverseStacks : StackId → List StackId := fun _ => []

def StackMaps.add (maps : StackMaps) (stackId : StackId) (stack : Stack) : StackMaps where
  stacksMap := Function.update maps.stacksMap stackId (some stack)
  reverseStacks := Function.update maps.reverseStacks stack.bottom
    (maps.reverseStacks stack.bottom ++ [stackId])

/-- The loop of `EnsureStacksInMap`, with the rest of `stacksToDo`. -/
def ensureLoop : ℕ → List StackId → StackMaps → DbM (Option StackMaps)
  | _, [], maps => pure (some maps)
  | 0, _ :: _, _ => pure none
  | rounds + 1, stackId :: stacksToDo, maps =>
      if stackId = kEmptyStackId then ensureLoop rounds stacksToDo maps
      else
        match maps.stacksMap stackId with
        | some _ => ensureLoop rounds stacksToDo maps
        | none => do
            let stack ← getStack stackId
            ensureLoop rounds (stacksToDo ++ [stack.bottom]) (maps.add stackId stack)

def ensureStacksInMap (rounds : ℕ) (execution : Execution) (maps : StackMaps) :
    DbM (Option StackMaps) :=
  ensureLoop rounds (execution.samples.entries.map Prod.fst) maps

/-! ### The report of an execution -/

def sampleCall (stackId : StackId) (inclusiveCountMicroseconds : UInt64) : Call :=
  .keyValue (decimalDigits stackId.toNat) (.number (decimal inclusiveCountMicroseconds.toNat))

def writeSamples (execution : Execution) (reverseStacks : StackId → List StackId) :
    ℕ → StackId → Option (UInt64 × List Call)
  | 0, _ => none
  | rounds + 1, stackId => do
      let (childrenCount, calls) ← (reverseStacks stackId).foldlM
        (fun (childrenCount, calls) childStackId => do
          let (count, childCalls) ← writeSamples execution reverseStacks rounds childStackId
          pure (childrenCount + count, calls ++ childCalls))
        ((0 : UInt64), ([] : List Call))
      let inclusiveCount := execution.samples.get stackId + childrenCount
      let inclusiveCountMicroseconds := inclusiveCount / 1000
      pure (inclusiveCount,
        if stackId ≠ kEmptyStackId ∧ inclusiveCountMicroseconds ≠ 0 then
          calls ++ [sampleCall stackId inclusiveCountMicroseconds]
        else calls)

/-- A timing metric is written in microseconds, and its key is a letter. -/
def metricCall (metric : UInt32 × UInt64) : Call :=
  if metric.1 < kPerformanceCounterFirstMetricId then
    .keyValue [UInt8.ofNat (metric.1.toNat + 97)] (.number (decimal (metric.2 / 1000).toNat))
  else
    .keyValue (str "p" ++ decimalDigits (metric.1 - kPerformanceCounterFirstMetricId).toNat)
      (.number (decimal metric.2.toNat))

/-- What is written for the samples of an execution, and what `WriteSamples` returns. -/
structure Written where
  count : UInt64
  sampleCalls : List Call

def writeExecutionCalls (execution : Execution) (written : Written) : List Call :=
  [.beginDict] ++ execution.metrics.entries.map metricCall ++ [.keyDictValue (str "samples")] ++
    written.sampleCalls ++ [.endDict, .endDict]

def writeExecution (rounds : ℕ) (maps : StackMaps) (execution : Execution) :
    DbM (Option (StackMaps × Written)) := do
  match ← ensureStacksInMap rounds execution maps with
  | none => pure none
  | some maps =>
      match writeSamples execution maps.reverseStacks rounds kEmptyStackId with
      | none => pure none
      | some (count, sampleCalls) => pure (some (maps, ⟨count, sampleCalls⟩))

/-- `WriteExecution` for one execution after the other, with the same maps. -/
def writeExecutions (rounds : ℕ) : StackMaps → List Execution → DbM (Option (List Written))
  | _, [] => pure (some [])
  | maps, execution :: executions => do
      match ← writeExecution rounds maps execution with
      | none => pure none
      | some (maps, written) =>
          match ← writeExecutions rounds maps executions with
          | none => pure none
          | some rest => pure (some (written :: rest))

end TibeeCompare.Report
