import TibeeCompare.Critical.ComputeCriticalPath
import TibeeCompare.Db.Records
import TibeeCompare.State.CounterOrder

/-!
`ExtractPerformanceCounterMetrics`: what the performance counters rose by while a
critical path was running, as metrics of the execution.

The key of a counter of a thread, which the source finds with names and quarks, is an
argument.
-/

namespace TibeeCompare.Executions

open Critical State

def kNumMetrics : UInt32 := 12

/-- The metrics of the counters are behind the named ones. -/
def kPerformanceCounterFirstMetricId : UInt32 := kNumMetrics

def kPerformanceCounters : List String :=
  ["instructions", "cache-references", "cache-misses", "branch-instructions", "branches",
    "branch-misses", "L1-dcache-loads", "L1-dcache-load-misses", "L1-dcache-stores",
    "L1-dcache-store-misses", "L1-dcache-prefetches", "L1-dcache-prefetch-misses",
    "L1-icache-loads", "L1-icache-load-misses", "L1-icache-stores", "L1-icache-store-misses",
    "L1-icache-prefetches", "L1-icache-prefetch-misses", "LLC-loads", "LLC-load-misses",
    "LLC-stores", "LLC-store-misses", "LLC-prefetches", "LLC-prefetch-misses", "dTLB-loads",
    "perf:thread:dTLB-load-misses", "dTLB-stores", "dTLB-store-misses", "dTLB-prefetches",
    "dTLB-prefetch-misses", "iTLB-loads", "iTLB-load-misses", "branch-loads",
    "branch-load-misses", "cpu-clock", "task-clock", "page-fault", "faults", "major-faults",
    "minor-faults", "context-switches", "cs", "cpu-migrations", "migrations",
    "alignment-faults", "emulation-faults"]

/-- The values of a counter at the begin and at the end of a segment that runs. -/
def segmentValues (stateHistory : StateHistory) (counterKey : ℕ → String → AttributeKey)
    (counter : String) (segment : CriticalPathSegment) : Option (UInt64 × UInt64) := do
  if segment.type ≠ .run then none
  let key := counterKey segment.tid counter
  let beginValue ← stateHistory.getULongValue key segment.startTs
  let endValue ← stateHistory.getULongValue key segment.endTs
  pure (beginValue, endValue)

/-- A round of the loop over the segments. -/
def addSegmentValue (stateHistory : StateHistory) (counterKey : ℕ → String → AttributeKey)
    (counter : String) (metricId : UInt32) (execution : Execution)
    (segment : CriticalPathSegment) : Execution :=
  match segmentValues stateHistory counterKey counter segment with
  | none => execution
  | some (beginValue, endValue) =>
      let segmentValue := endValue - beginValue
      if segmentValue ≠ 0 then
        let currentValue := execution.metrics.get metricId
        execution.setMetric metricId (currentValue + segmentValue)
      else execution

def extractPerformanceCounterMetrics (criticalPath : CriticalPath) (stateHistory : StateHistory)
    (counterKey : ℕ → String → AttributeKey) (execution : Execution) : Execution :=
  kPerformanceCounters.zipIdx.foldl
    (fun execution (counter, i) =>
      let metricId := kPerformanceCounterFirstMetricId + UInt32.ofNat i
      criticalPath.foldl (addSegmentValue stateHistory counterKey counter metricId) execution)
    execution

/-- No subtraction of the extraction wraps around, whatever counter and segment it is for. -/
def SubtractsSmaller (criticalPath : CriticalPath) (stateHistory : StateHistory)
    (counterKey : ℕ → String → AttributeKey) : Prop :=
  ∀ counter ∈ kPerformanceCounters, ∀ segment ∈ criticalPath, ∀ beginValue endValue,
    segmentValues stateHistory counterKey counter segment = some (beginValue, endValue) →
      beginValue ≤ endValue

/-- The two lookups of a segment that runs. -/
theorem segmentValues_eq_some {stateHistory : StateHistory} {counterKey : ℕ → String → AttributeKey}
    {counter : String} {segment : CriticalPathSegment} {beginValue endValue : UInt64}
    (h : segmentValues stateHistory counterKey counter segment = some (beginValue, endValue)) :
    stateHistory.getULongValue (counterKey segment.tid counter) segment.startTs = some beginValue ∧
      stateHistory.getULongValue (counterKey segment.tid counter) segment.endTs =
        some endValue := by
  rw [segmentValues] at h
  split at h
  · cases h
  · obtain ⟨b, hbegin, h⟩ := Option.bind_eq_some_iff.mp h
    obtain ⟨e, hend, h⟩ := Option.bind_eq_some_iff.mp h
    cases h
    exact ⟨hbegin, hend⟩

/-- Lookups at two times, and the subtractions of the extraction. -/
theorem counters_rise {ops : List Op} {stateHistory : StateHistory}
    (hops : ∀ op ∈ ops, op.setsULong = false) (hclock : NonDecreasing ops)
    (hafter : after ops = some stateHistory) :
    (∀ key t₁ t₂ v₁ v₂, t₁ ≤ t₂ → stateHistory.getULongValue key t₁ = some v₁ →
        stateHistory.getULongValue key t₂ = some v₂ → v₁ ≤ v₂) ∧
      ∀ (counterKey : ℕ → String → AttributeKey) (criticalPath : CriticalPath),
        (∀ segment ∈ criticalPath, segment.startTs ≤ segment.endTs) →
          SubtractsSmaller criticalPath stateHistory counterKey := by
  have hlookup : ∀ key t₁ t₂ v₁ v₂, t₁ ≤ t₂ → stateHistory.getULongValue key t₁ = some v₁ →
      stateHistory.getULongValue key t₂ = some v₂ → v₁ ≤ v₂ := by
    intro key t₁ t₂ v₁ v₂ hle h₁ h₂
    exact (after_rising hops hclock hafter key).getValue_le hle h₁ h₂
  refine ⟨hlookup, ?_⟩
  intro counterKey criticalPath hpath counter _ segment hsegment beginValue endValue hvalues
  obtain ⟨hbegin, hend⟩ := segmentValues_eq_some hvalues
  exact hlookup _ _ _ _ _ (hpath segment hsegment) hbegin hend

/-- Readings of both sources that go back, a cleanup, and a set at the time of another. -/
def unevenReadings : List Op :=
  [.setTimestamp 10, .setPerfCounterCpuBaseValue 1 1000, .setPerfCounterThreadValue 1 500,
    .setTimestamp 20, .setPerfCounterCpuValue 1 2000, .setPerfCounterThreadValue 1 400,
    .cleanup 15, .setTimestamp 30, .setPerfCounterCpuValue 1 10]

theorem counters_rise_unevenReadings :
    ∃ stateHistory, after unevenReadings = some stateHistory ∧
      SubtractsSmaller [⟨10, 20, 1, .run⟩, ⟨20, 20, 1, .waitCpu⟩, ⟨20, 35, 1, .run⟩] stateHistory
        (fun tid _ => tid) :=
  ⟨_, rfl, (counters_rise (show ∀ op ∈ unevenReadings, op.setsULong = false by decide)
    (by decide) rfl).2 _ _ (by decide)⟩

end TibeeCompare.Executions
