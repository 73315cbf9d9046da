import TibeeCompare.Critical.Tiling
import TibeeCompare.Critical.PathBounds
import TibeeCompare.Executions.ExtractMetrics
import Mathlib.Algebra.BigOperators.Group.List.Lemmas
import Mathlib.Data.UInt

/-!
`ExtractMetrics`: the metrics of an execution.

The status of the critical path has one metric for each type of segment, the counters one
each behind these. `extractMetrics_measures` says what each of them is; if the path fills
the execution, then its statuses add up to the duration.
-/

namespace TibeeCompare.Executions

open Critical Db State

def kDurationMetricId : UInt32 := 0

def kTsMetricId : UInt32 := 1

def kNumCustomMetrics : UInt32 := 2

/-- The number of a type in its enumeration. -/
def typeNumber : CriticalEdgeType → UInt32
  | .unknown => 0
  | .vertical => 1
  | .run => 2
  | .interrupted => 3
  | .waitCpu => 4
  | .waitBlocked => 5
  | .timer => 6
  | .network => 7
  | .blockDevice => 8
  | .userInput => 9
  | .epsilon => 10

def segmentSpan (segment : CriticalPathSegment) : UInt64 :=
  UInt64.ofNat (subU64 segment.endTs segment.startTs)

/-- A round of the loop of `ExtractTimingMetrics`. -/
def addSegmentDuration (execution : Execution) (segment : CriticalPathSegment) : Execution :=
  if segment.type = .epsilon then execution
  else
    let metricId := kNumCustomMetrics + typeNumber segment.type
    let currentValue := execution.metrics.get metricId
    execution.setMetric metricId (currentValue + segmentSpan segment)

/-- `criticalPathDuration` of `ExtractTimingMetrics`. -/
def criticalPathDuration (criticalPath : CriticalPath) : UInt64 :=
  criticalPath.foldl (fun total segment =>
    if segment.type = .epsilon then total else total + segmentSpan segment) 0

/-- `ExtractTimingMetrics`, and whether it reports that the critical path is not the same
duration as the execution. -/
def extractTimingMetrics (criticalPath : CriticalPath) (execution : Execution) :
    Execution × Bool :=
  let duration := execution.endTs - execution.startTs
  let execution := execution.setMetric kDurationMetricId duration
  let execution := execution.setMetric kTsMetricId execution.startTs
  (criticalPath.foldl addSegmentDuration execution,
    duration ≠ criticalPathDuration criticalPath)

def extractMetrics (criticalPath : CriticalPath) (stateHistory : StateHistory)
    (counterKey : ℕ → String → AttributeKey) (execution : Execution) : Execution × Bool :=
  let (execution, differs) := extractTimingMetrics criticalPath execution
  (extractPerformanceCounterMetrics criticalPath stateHistory counterKey execution, differs)

/-! ### Setting one metric -/

theorem lookup_modify (entries : Entries) (id id' : UInt32) (f : UInt64 → UInt64) :
    ((entries.modify id f).lookup id').getD 0 =
      if id' = id then f ((entries.lookup id).getD 0) else (entries.lookup id').getD 0 := by
  induction entries with
  | nil =>
      rw [Entries.modify, List.lookup_cons, List.lookup_nil, List.lookup_nil]
      by_cases hid : id' = id
      · simp [hid]
      · simp [hid, beq_false_of_ne hid]
  | cons entry rest ih =>
      obtain ⟨key, value⟩ := entry
      rw [Entries.modify]
      by_cases hkey : key = id
      · subst hkey
        by_cases hid : id' = key
        · simp [hid]
        · simp [hid, beq_false_of_ne hid, List.lookup_cons]
      · rw [if_neg hkey, List.lookup_cons, List.lookup_cons, List.lookup_cons,
          beq_false_of_ne (Ne.symm hkey)]
        by_cases hid : id' = key
        · subst hid
          simp [hkey]
        · rw [beq_false_of_ne hid]
          exact ih

@[simp] theorem get_setMetric (execution : Execution) (id id' : UInt32) (value : UInt64) :
    (execution.setMetric id value).metrics.get id' =
      if id' = id then value else execution.metrics.get id' :=
  lookup_modify execution.metrics.entries id id' fun _ => value

/-- A loop that adds to a quantity in each round. -/
theorem foldl_adds {α β : Type} {step : β → α → β} (get : β → UInt64) {amount : α → UInt64}
    (hstep : ∀ b a, get (step b a) = get b + amount a) (as : List α) (b : β) :
    get (as.foldl step b) = get b + (as.map amount).sum := by
  induction as generalizing b with
  | nil => exact (UInt64.add_zero _).symm
  | cons a as ih => rw [List.foldl_cons, ih, hstep, List.map_cons, List.sum_cons, UInt64.add_assoc]

/-- A loop that leaves a quantity alone in each round. -/
theorem foldl_keeps {α β γ : Type} {step : β → α → β} (get : β → γ)
    (hstep : ∀ b a, get (step b a) = get b) (as : List α) (b : β) :
    get (as.foldl step b) = get b := by
  induction as generalizing b with
  | nil => rfl
  | cons a as ih => rw [List.foldl_cons, ih, hstep]

/-! ### What the metrics are -/

/-- What a segment adds to the metric of a type. -/
def statusAmount (type : CriticalEdgeType) (segment : CriticalPathSegment) : UInt64 :=
  if segment.type = type then segmentSpan segment else 0

/-- What a segment adds to the metric of a counter: what the counter rose by while it ran. -/
def counterAmount (stateHistory : StateHistory) (counterKey : ℕ → String → AttributeKey)
    (counter : String) (segment : CriticalPathSegment) : UInt64 :=
  match segmentValues stateHistory counterKey counter segment with
  | none => 0
  | some (beginValue, endValue) => endValue - beginValue

def statusMetricId (type : CriticalEdgeType) : UInt32 := kNumCustomMetrics + typeNumber type

def counterMetricId (i : ℕ) : UInt32 := kPerformanceCounterFirstMetricId + UInt32.ofNat i

theorem statusMetricId_injective {type type' : CriticalEdgeType}
    (h : statusMetricId type = statusMetricId type') : type = type' := by
  cases type <;> cases type' <;> first | rfl | exact absurd h (by decide)

theorem statusMetricId_lt {type : CriticalEdgeType} (h : type ≠ .epsilon) :
    2 ≤ (statusMetricId type).toNat ∧ (statusMetricId type).toNat < 12 := by
  cases type <;> first | exact absurd rfl h | decide

theorem toNat_counterMetricId {i : ℕ} (h : i < kPerformanceCounters.length) :
    (counterMetricId i).toNat = 12 + i := by
  have hlt : i < 46 := h
  rw [counterMetricId, UInt32.toNat_add, UInt32.toNat_ofNat']
  show (12 + i % 2 ^ 32) % 2 ^ 32 = 12 + i
  omega

theorem get_addSegmentDuration (execution : Execution) (segment : CriticalPathSegment)
    {type : CriticalEdgeType} (htype : type ≠ .epsilon) :
    (addSegmentDuration execution segment).metrics.get (statusMetricId type) =
      execution.metrics.get (statusMetricId type) + statusAmount type segment := by
  rw [addSegmentDuration, statusAmount]
  by_cases hepsilon : segment.type = .epsilon
  · rw [if_pos hepsilon, if_neg (by rw [hepsilon]; exact htype.symm), UInt64.add_zero]
  · rw [if_neg hepsilon]
    show (execution.setMetric (statusMetricId segment.type) _).metrics.get _ = _
    rw [get_setMetric]
    by_cases hsame : segment.type = type
    · rw [hsame, if_pos rfl, if_pos rfl]
      rfl
    · rw [if_neg hsame, if_neg fun h => hsame (statusMetricId_injective h).symm, UInt64.add_zero]

/-- A round for a segment leaves the metrics alone that are not for a type. -/
theorem get_addSegmentDuration_of_ne (execution : Execution) (segment : CriticalPathSegment)
    {id : UInt32} (hid : ∀ type ≠ .epsilon, id ≠ statusMetricId type) :
    (addSegmentDuration execution segment).metrics.get id = execution.metrics.get id := by
  rw [addSegmentDuration]
  split
  · rfl
  · next htype =>
      show (execution.setMetric (statusMetricId segment.type) _).metrics.get _ = _
      rw [get_setMetric, if_neg (hid _ htype)]

section Counters

variable (stateHistory : StateHistory) (counterKey : ℕ → String → AttributeKey)

theorem get_addSegmentValue (counter : String) (metricId : UInt32) (execution : Execution)
    (segment : CriticalPathSegment) :
    (addSegmentValue stateHistory counterKey counter metricId execution segment).metrics.get
        metricId =
      execution.metrics.get metricId + counterAmount stateHistory counterKey counter segment := by
  rw [addSegmentValue, counterAmount]
  cases segmentValues stateHistory counterKey counter segment with
  | none => exact (UInt64.add_zero _).symm
  | some values =>
      obtain ⟨beginValue, endValue⟩ := values
      dsimp only
      split
      · rw [get_setMetric, if_pos rfl]
      · next hzero =>
          rw [not_not] at hzero
          rw [hzero, UInt64.add_zero]

theorem get_addSegmentValue_of_ne (counter : String) {metricId id : UInt32} (hid : id ≠ metricId)
    (execution : Execution) (segment : CriticalPathSegment) :
    (addSegmentValue stateHistory counterKey counter metricId execution segment).metrics.get id =
      execution.metrics.get id := by
  rw [addSegmentValue]
  cases segmentValues stateHistory counterKey counter segment with
  | none => rfl
  | some values =>
      obtain ⟨beginValue, endValue⟩ := values
      dsimp only
      split
      · rw [get_setMetric, if_neg hid]
      · rfl

/-- The round of the outer loop for a counter. -/
def addCounter (criticalPath : CriticalPath) (execution : Execution) (counter : String × ℕ) :
    Execution :=
  criticalPath.foldl (addSegmentValue stateHistory counterKey counter.1 (counterMetricId counter.2))
    execution

theorem extractPerformanceCounterMetrics_eq (criticalPath : CriticalPath) (execution : Execution) :
    extractPerformanceCounterMetrics criticalPath stateHistory counterKey execution =
      kPerformanceCounters.zipIdx.foldl (addCounter stateHistory counterKey criticalPath)
        execution := rfl

/-- The rounds for other counters leave the metric of a counter alone. -/
theorem get_addCounters_of_ne (criticalPath : CriticalPath) {id : UInt32}
    {counters : List (String × ℕ)} (hid : ∀ counter ∈ counters, id ≠ counterMetricId counter.2)
    (execution : Execution) :
    (counters.foldl (addCounter stateHistory counterKey criticalPath) execution).metrics.get id =
      execution.metrics.get id := by
  induction counters generalizing execution with
  | nil => rfl
  | cons counter counters ih =>
      rw [List.forall_mem_cons] at hid
      rw [List.foldl_cons, ih hid.2, addCounter]
      exact foldl_keeps (fun e => e.metrics.get id)
        (get_addSegmentValue_of_ne stateHistory counterKey counter.1 hid.1) criticalPath execution

/-- The loops over counters whose metrics are all different. -/
theorem get_addCounters (criticalPath : CriticalPath) {counters : List String}
    (hids : ∀ i < counters.length, (counterMetricId i).toNat = 12 + i) {counter : String} {i : ℕ}
    (hi : counters[i]? = some counter) (execution : Execution) :
    (counters.zipIdx.foldl (addCounter stateHistory counterKey criticalPath)
        execution).metrics.get (counterMetricId i) =
      execution.metrics.get (counterMetricId i) +
        (criticalPath.map (counterAmount stateHistory counterKey counter)).sum := by
  obtain ⟨hlt, rfl⟩ := List.getElem?_eq_some_iff.mp hi
  have hne : ∀ j < counters.length, i ≠ j → counterMetricId i ≠ counterMetricId j := by
    intro j hj hij hsame
    have htoNat := congrArg UInt32.toNat hsame
    rw [hids i hlt, hids j hj] at htoNat
    omega
  have hsplit : counters.zipIdx = (counters.take i).zipIdx ++
      (counters[i], i) :: (counters.drop (i + 1)).zipIdx (i + 1) := by
    conv_lhs => rw [← List.take_append_drop i counters, List.drop_eq_getElem_cons hlt]
    rw [List.zipIdx_append, List.zipIdx_cons, List.length_take_of_le hlt.le, Nat.zero_add]
  have hbefore : ∀ other ∈ (counters.take i).zipIdx,
      counterMetricId i ≠ counterMetricId other.2 := by
    rintro ⟨name, j⟩ hother
    have hj := (List.mem_zipIdx' hother).1
    rw [List.length_take_of_le hlt.le] at hj
    exact hne j (by omega) (by omega)
  have hbehind : ∀ other ∈ (counters.drop (i + 1)).zipIdx (i + 1),
      counterMetricId i ≠ counterMetricId other.2 := by
    rintro ⟨name, j⟩ hother
    obtain ⟨hle, hj, -⟩ := List.mem_zipIdx hother
    rw [List.length_drop] at hj
    exact hne j (by omega) (by omega)
  have hcounter := foldl_adds (fun e => e.metrics.get (counterMetricId i))
    (get_addSegmentValue stateHistory counterKey counters[i] (counterMetricId i)) criticalPath
    ((counters.take i).zipIdx.foldl (addCounter stateHistory counterKey criticalPath) execution)
  rw [get_addCounters_of_ne _ _ _ hbefore] at hcounter
  rw [hsplit, List.foldl_append, List.foldl_cons, get_addCounters_of_ne _ _ _ hbehind]
  exact hcounter

end Counters

/-- What a segment adds to the duration of its path. -/
def durationAmount (segment : CriticalPathSegment) : UInt64 :=
  if segment.type = .epsilon then 0 else segmentSpan segment

theorem criticalPathDuration_eq (path : CriticalPath) :
    criticalPathDuration path = (path.map durationAmount).sum := by
  have hround : ∀ (total : UInt64) (segment : CriticalPathSegment),
      (if segment.type = .epsilon then total else total + segmentSpan segment) =
        total + durationAmount segment := by
    intro total segment
    rw [durationAmount]
    split
    · exact (UInt64.add_zero total).symm
    · rfl
  exact (foldl_adds id hround path 0).trans (UInt64.zero_add _)

/-- An execution but for its metrics. -/
def withoutMetrics (execution : Execution) : Execution :=
  { execution with metrics := IdMap.empty }

/-- What an execution has in its metrics, on top of what these were before. -/
structure Measures (criticalPath : CriticalPath) (stateHistory : StateHistory)
    (counterKey : ℕ → String → AttributeKey) (execution measured : Execution) : Prop where
  duration : measured.metrics.get kDurationMetricId = execution.endTs - execution.startTs
  ts : measured.metrics.get kTsMetricId = execution.startTs
  statuses : ∀ type ≠ .epsilon, measured.metrics.get (statusMetricId type) =
    execution.metrics.get (statusMetricId type) + (criticalPath.map (statusAmount type)).sum
  counters : ∀ i counter, kPerformanceCounters[i]? = some counter →
    measured.metrics.get (counterMetricId i) = execution.metrics.get (counterMetricId i) +
      (criticalPath.map (counterAmount stateHistory counterKey counter)).sum
  others : ∀ id : UInt32, 12 + kPerformanceCounters.length ≤ id.toNat →
    measured.metrics.get id = execution.metrics.get id
  kept : withoutMetrics measured = withoutMetrics execution

theorem withoutMetrics_addSegmentDuration (execution : Execution) (segment : CriticalPathSegment) :
    withoutMetrics (addSegmentDuration execution segment) = withoutMetrics execution := by
  rw [addSegmentDuration]
  split
  · rfl
  · rfl

theorem withoutMetrics_addSegmentValue (stateHistory : StateHistory)
    (counterKey : ℕ → String → AttributeKey) (counter : String) (metricId : UInt32)
    (execution : Execution) (segment : CriticalPathSegment) :
    withoutMetrics (addSegmentValue stateHistory counterKey counter metricId execution segment) =
      withoutMetrics execution := by
  rw [addSegmentValue]
  split
  · rfl
  · dsimp only
    split
    · rfl
    · rfl

/-- The metrics of the execution itself, before those of the counters. -/
theorem extractTimingMetrics_measures (criticalPath : CriticalPath) (execution : Execution) :
    let measured := (extractTimingMetrics criticalPath execution).1
    measured.metrics.get kDurationMetricId = execution.endTs - execution.startTs ∧
      measured.metrics.get kTsMetricId = execution.startTs ∧
      (∀ type ≠ .epsilon, measured.metrics.get (statusMetricId type) =
        execution.metrics.get (statusMetricId type) +
          (criticalPath.map (statusAmount type)).sum) ∧
      (∀ id : UInt32, 12 ≤ id.toNat → measured.metrics.get id = execution.metrics.get id) ∧
      withoutMetrics measured = withoutMetrics execution := by
  -- The loop over the path touches the metrics of the statuses only.
  have hloop : ∀ {id : UInt32}, (∀ type ≠ .epsilon, id ≠ statusMetricId type) → ∀ e : Execution,
      (criticalPath.foldl addSegmentDuration e).metrics.get id = e.metrics.get id := by
    intro id hid e
    exact foldl_keeps (fun e => e.metrics.get id)
      (fun e segment => get_addSegmentDuration_of_ne e segment hid) criticalPath e
  have hne : ∀ {id : UInt32}, id.toNat < 2 ∨ 12 ≤ id.toNat →
      ∀ type ≠ .epsilon, id ≠ statusMetricId type := by
    rintro id hid type htype rfl
    have hbounds := statusMetricId_lt htype
    omega
  rw [extractTimingMetrics]
  dsimp only
  refine ⟨?_, ?_, ?_, ?_, ?_⟩
  · rw [hloop (hne (Or.inl (by decide))), get_setMetric, if_neg (by decide), get_setMetric,
      if_pos rfl]
  · rw [hloop (hne (Or.inl (by decide))), get_setMetric, if_pos rfl]
    rfl
  · intro type htype
    have hbounds := statusMetricId_lt htype
    have hts : statusMetricId type ≠ kTsMetricId := by
      intro h
      rw [h] at hbounds
      exact absurd hbounds.1 (by decide)
    have hduration : statusMetricId type ≠ kDurationMetricId := by
      intro h
      rw [h] at hbounds
      exact absurd hbounds.1 (by decide)
    have hadds := foldl_adds (fun e => e.metrics.get (statusMetricId type))
      (fun e segment => get_addSegmentDuration e segment htype) criticalPath
    rw [hadds, get_setMetric, if_neg hts, get_setMetric, if_neg hduration]
  · intro id hid
    have hts : id ≠ kTsMetricId := by
      rintro rfl
      exact absurd hid (by decide)
    have hduration : id ≠ kDurationMetricId := by
      rintro rfl
      exact absurd hid (by decide)
    rw [hloop (hne (Or.inr hid)), get_setMetric, if_neg hts, get_setMetric, if_neg hduration]
  · exact foldl_keeps withoutMetrics withoutMetrics_addSegmentDuration criticalPath _

/-- The metrics of the counters lie behind those of the execution itself. -/
theorem get_extractMetrics_of_lt (criticalPath : CriticalPath) (stateHistory : StateHistory)
    (counterKey : ℕ → String → AttributeKey) (execution : Execution) {id : UInt32}
    (hid : id.toNat < 12) :
    (extractMetrics criticalPath stateHistory counterKey execution).1.metrics.get id =
      (extractTimingMetrics criticalPath execution).1.metrics.get id := by
  rw [extractMetrics]
  dsimp only
  rw [extractPerformanceCounterMetrics_eq]
  apply get_addCounters_of_ne
  rintro ⟨counter, i⟩ hcounter rfl
  have hi : i < kPerformanceCounters.length := (List.mem_zipIdx' hcounter).1
  rw [toNat_counterMetricId hi] at hid
  omega

/-- Each metric of an execution is what the segments of its critical path add up to: their
durations for each type, and what each counter rose by over the segments that run. That the path
is not the same duration is reported exactly when the durations add up to another one. -/
theorem extractMetrics_measures (criticalPath : CriticalPath) (stateHistory : StateHistory)
    (counterKey : ℕ → String → AttributeKey) (execution : Execution) :
    Measures criticalPath stateHistory counterKey execution
        (extractMetrics criticalPath stateHistory counterKey execution).1 ∧
      ((extractMetrics criticalPath stateHistory counterKey execution).2 = true ↔
        execution.endTs - execution.startTs ≠ (criticalPath.map durationAmount).sum) := by
  have hdiffers : (extractMetrics criticalPath stateHistory counterKey execution).2 =
      decide (execution.endTs - execution.startTs ≠ criticalPathDuration criticalPath) := rfl
  rw [hdiffers, decide_eq_true_iff, criticalPathDuration_eq]
  refine ⟨?_, Iff.rfl⟩
  obtain ⟨hduration, hts, hstatuses, hothers, hkept⟩ :=
    extractTimingMetrics_measures criticalPath execution
  have hlow := fun {id : UInt32} (hid : id.toNat < 12) =>
    get_extractMetrics_of_lt criticalPath stateHistory counterKey execution hid
  refine ⟨?_, ?_, ?_, ?_, ?_, ?_⟩
  · rw [hlow (by decide), hduration]
  · rw [hlow (by decide), hts]
  · intro type htype
    rw [hlow (statusMetricId_lt htype).2, hstatuses type htype]
  · intro i counter hi
    have hlt := (List.getElem?_eq_some_iff.mp hi).1
    rw [extractMetrics]
    dsimp only
    rw [extractPerformanceCounterMetrics_eq,
      get_addCounters _ _ _ (fun j hj => toNat_counterMetricId hj) hi, hothers]
    rw [toNat_counterMetricId hlt]
    omega
  · intro id hid
    have hne : ∀ counter ∈ kPerformanceCounters.zipIdx, id ≠ counterMetricId counter.2 := by
      rintro ⟨counter, i⟩ hcounter rfl
      have hi : i < kPerformanceCounters.length := (List.mem_zipIdx' hcounter).1
      rw [toNat_counterMetricId hi] at hid
      omega
    rw [extractMetrics]
    dsimp only
    rw [extractPerformanceCounterMetrics_eq, get_addCounters_of_ne _ _ _ hne]
    exact hothers id (Nat.le_trans (Nat.le_add_right 12 _) hid)
  · rw [← hkept, extractMetrics]
    dsimp only
    rw [extractPerformanceCounterMetrics_eq]
    apply foldl_keeps withoutMetrics
    intro e counter
    exact foldl_keeps withoutMetrics (withoutMetrics_addSegmentValue stateHistory counterKey
      counter.1 (counterMetricId counter.2)) criticalPath e

end TibeeCompare.Executions
