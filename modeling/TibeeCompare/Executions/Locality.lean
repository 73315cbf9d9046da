import TibeeCompare.CriticalBlocks.Provenance
import TibeeCompare.Executions.ExtractStacks
import TibeeCompare.Executions.TimingMetrics
import TibeeCompare.State.Cleanups

/-!
What an extraction asks the state history for.

A critical path starts no segment before its window, but for those of the network thread, for which
nothing is recorded. So two histories that answer alike from the start of an execution on give it
the same samples and metrics, however the recursion into preempting threads goes.
-/

namespace TibeeCompare.Executions

open Critical Db State

/-- The histories answer alike from `t` on, and have never heard of the network thread. -/
structure AlikeFrom (t : ℕ) (currentState : CurrentState)
    (counterKey : ℕ → String → AttributeKey) (h h' : StateHistory) : Prop where
  agree : ∀ t' ≥ t, AgreeFrom t' h h'
  noCpu : ∀ ts, h.getUIntegerValue (currentState.currentCpuKey kNetworkThread) ts = none ∧
    h'.getUIntegerValue (currentState.currentCpuKey kNetworkThread) ts = none
  noCounter : ∀ counter ts, h.getULongValue (counterKey kNetworkThread counter) ts = none ∧
    h'.getULongValue (counterKey kNetworkThread counter) ts = none

/-- A path that lies behind `t`, but for what it has of the network thread. -/
def PathFrom (t : ℕ) (path : CriticalPath) : Prop :=
  ∀ segment ∈ path, segment.tid = kNetworkThread ∨ t ≤ segment.startTs ∧ t ≤ segment.endTs

theorem PathFrom.mono {t t' : ℕ} (hle : t ≤ t') {path : CriticalPath} (h : PathFrom t' path) :
    PathFrom t path := by
  intro segment hsegment
  rcases h segment hsegment with hnetwork | ⟨hstart, hend⟩
  · exact .inl hnetwork
  · exact .inr ⟨hle.trans hstart, hle.trans hend⟩

/-- A search finds a path that lies behind its start. -/
theorem pathFrom_of_laid {g : CriticalGraph} (hg : g.Laid) {fuel startTs endTs tid : ℕ}
    {path : CriticalPath} (hrun : computeCriticalPath g fuel startTs endTs tid = .ok path) :
    PathFrom startTs path := by
  obtain ⟨pieces, rfl, hpieces⟩ := hg.insertsPieces hrun
  intro segment hsegment
  obtain ⟨⟨first, hfirst, -, htid, hstart⟩, last, hlast, -, htid', hend⟩ := mem_insertAll hsegment
  rw [← hstart, ← hend]
  rcases (hpieces first hfirst).le_startTs with hnetwork | hle
  · exact .inl (htid ▸ hnetwork)
  · rcases (hpieces last hlast).le_endTs with hnetwork | hle'
    · exact .inl (htid' ▸ hnetwork)
    · exact .inr ⟨hle, hle'⟩

/-! ### Samples -/

theorem le_of_mem_intervalsFrom {V : Type} {start end_ : ℕ} {entries : List (Entry V)}
    {value : V × ℕ × ℕ} (h : value ∈ intervalsFrom start end_ entries) : start ≤ value.2.1 := by
  induction entries with
  | nil => cases h
  | cons e rest ih =>
      rw [intervalsFrom] at h
      split at h
      · cases h
      · rcases List.mem_cons.mp h with rfl | h
        · exact le_max_right _ _
        · exact ih h

theorem foldlM_congr_of_mem {m : Type → Type} [Monad m] {α β : Type} {f f' : β → α → m β}
    {as : List α} (h : ∀ a ∈ as, ∀ b, f b a = f' b a) (b : β) : as.foldlM f b = as.foldlM f' b := by
  induction as generalizing b with
  | nil => rfl
  | cons a as ih =>
      rw [List.foldlM_cons, List.foldlM_cons, h a List.mem_cons_self]
      exact bind_congr fun b' => ih (fun a' ha' => h a' (List.mem_cons_of_mem _ ha')) b'

section Samples

variable {t : ℕ} {counterKey : ℕ → String → AttributeKey} {sources : Sources} {h' : StateHistory}

/-- The same sources, but for the history. -/
def Sources.withHistory (sources : Sources) (h' : StateHistory) : Sources :=
  { sources with stateHistory := h' }

/-- The recursive calls do the same on all paths that lie behind `t`. -/
def RecursesAlike (t : ℕ) (recurse recurse' : Recursion) : Prop :=
  ∀ path baseStackId, PathFrom t path → recurse path baseStackId = recurse' path baseStackId

theorem preemptedCallback_alike (hg : sources.graph.Laid) {fuel : ℕ}
    {recurse recurse' : Recursion} (hrec : RecursesAlike t recurse recurse') {start : ℕ}
    (hstart : t ≤ start) (baseStackId : StackId) (tid : UInt32) (end_ : ℕ) :
    (sources.withHistory h').preemptedCallback fuel recurse' baseStackId tid start end_ =
      sources.preemptedCallback fuel recurse baseStackId tid start end_ := by
  unfold Sources.preemptedCallback
  split
  · rfl
  · dsimp only [Sources.withHistory]
    cases hrun : computeCriticalPath sources.graph fuel start end_ tid.toNat with
    | error fault => rfl
    | ok path =>
        have hpath := (pathFrom_of_laid hg hrun).mono hstart
        dsimp only
        rw [hrec path baseStackId hpath]

theorem extractWaitCpu_alike (hg : sources.graph.Laid)
    (halike : AlikeFrom t sources.currentState counterKey sources.stateHistory h') {fuel : ℕ}
    {recurse recurse' : Recursion} (hrec : RecursesAlike t recurse recurse')
    {segment : CriticalPathSegment}
    (hsegment : segment.tid = kNetworkThread ∨ t ≤ segment.startTs) (back : ThreadInfo) :
    (sources.withHistory h').extractWaitCpu fuel recurse' segment back =
      sources.extractWaitCpu fuel recurse segment back := by
  have hcpu : h'.getUIntegerValue (sources.currentState.currentCpuKey segment.tid)
      segment.startTs = sources.stateHistory.getUIntegerValue
        (sources.currentState.currentCpuKey segment.tid) segment.startTs := by
    rcases hsegment with hnetwork | hstart
    · rw [hnetwork, (halike.noCpu _).1, (halike.noCpu _).2]
    · exact ((halike.agree _ hstart _).1).symm
  unfold Sources.extractWaitCpu
  dsimp only [Sources.withHistory]
  refine bind_congr fun stackId => ?_
  rw [hcpu]
  cases hlast : sources.stateHistory.getUIntegerValue
      (sources.currentState.currentCpuKey segment.tid) segment.startTs with
  | none => rfl
  | some lastCpu =>
      -- the thread of the network is on no processor, and does not come this far
      have hstart : t ≤ segment.startTs := by
        apply hsegment.resolve_left
        intro hnetwork
        rw [hnetwork, (halike.noCpu _).1] at hlast
        cases hlast
      have hvalues : h'.enumerateUIntegerValues (sources.currentState.currentThreadKey lastCpu)
          segment.startTs segment.endTs = sources.stateHistory.enumerateUIntegerValues
            (sources.currentState.currentThreadKey lastCpu) segment.startTs segment.endTs :=
        ((halike.agree _ hstart _).2.2 _).symm
      dsimp only
      rw [hvalues]
      congr 1
      apply foldlM_congr_of_mem
      intro value hvalue total
      exact congrArg (· >>= _) (preemptedCallback_alike hg hrec
        (hstart.trans (le_of_mem_intervalsFrom hvalue)) stackId value.1 value.2.2)

/-- The requests to the disk are shared without a look at the history. -/
theorem splitOverIntervals_withHistory (tid segmentDuration totalDuration : ℕ)
    (diskStackId : StackId) (intervals : List (Containers.Interval × ℕ)) (total : ℕ) :
    (sources.withHistory h').splitOverIntervals tid segmentDuration totalDuration diskStackId
      intervals total = sources.splitOverIntervals tid segmentDuration totalDuration diskStackId
        intervals total := by
  induction intervals generalizing total with
  | nil => rfl
  | cons interval intervals ih =>
      unfold Sources.splitOverIntervals
      simp only [ih]
      rfl

theorem extractSegment_alike (hg : sources.graph.Laid)
    (halike : AlikeFrom t sources.currentState counterKey sources.stateHistory h') {fuel : ℕ}
    {recurse recurse' : Recursion} (hrec : RecursesAlike t recurse recurse')
    {segment : CriticalPathSegment}
    (hsegment : segment.tid = kNetworkThread ∨ t ≤ segment.startTs) (back : ThreadInfo) :
    (sources.withHistory h').extractSegment fuel recurse' segment back =
      sources.extractSegment fuel recurse segment back := by
  unfold Sources.extractSegment
  split
  case h_6 =>
    unfold Sources.extractBlockDevice
    simp only [splitOverIntervals_withHistory]
    rfl
  case h_7 => rw [extractWaitCpu_alike hg halike hrec hsegment]
  all_goals rfl

theorem extractPath_alike (hg : sources.graph.Laid)
    (halike : AlikeFrom t sources.currentState counterKey sources.stateHistory h') {fuel : ℕ}
    {recurse recurse' : Recursion} (hrec : RecursesAlike t recurse recurse')
    (baseStackId : StackId) {path : CriticalPath} (hpath : PathFrom t path)
    (threads : List ThreadInfo) :
    (sources.withHistory h').extractPath fuel recurse' baseStackId path threads =
      sources.extractPath fuel recurse baseStackId path threads := by
  induction path generalizing threads with
  | nil => rfl
  | cons segment path ih =>
      rw [PathFrom, List.forall_mem_cons] at hpath
      have hsegment := hpath.1.imp_right And.left
      unfold Sources.extractPath
      refine bind_congr fun found => ?_
      obtain ⟨below, back⟩ := found
      dsimp only
      split
      · exact ih hpath.2 _
      · rw [extractSegment_alike hg halike hrec hsegment]
        refine bind_congr fun result => ?_
        cases result with
        | none => rfl
        | some back => exact bind_congr fun stack => ih hpath.2 _

/-- However deep the recursion goes. -/
theorem extractRecursive_alike (hg : sources.graph.Laid)
    (halike : AlikeFrom t sources.currentState counterKey sources.stateHistory h')
    (fuel depth : ℕ) :
    RecursesAlike t (sources.extractRecursive fuel depth)
      ((sources.withHistory h').extractRecursive fuel depth) := by
  induction depth with
  | zero => exact fun _ _ _ => rfl
  | succ depth ih =>
      intro path baseStackId hpath
      unfold Sources.extractRecursive
      rw [extractPath_alike hg halike ih baseStackId hpath]

theorem extractStacks_alike (hg : sources.graph.Laid)
    (halike : AlikeFrom t sources.currentState counterKey sources.stateHistory h')
    (fuel depth : ℕ) {path : CriticalPath} (hpath : PathFrom t path) :
    (sources.withHistory h').extractStacks fuel depth path =
      sources.extractStacks fuel depth path :=
  extractPath_alike hg halike (extractRecursive_alike hg halike fuel depth) kEmptyStackId hpath []

end Samples

/-! ### Metrics -/

theorem segmentValues_alike {t : ℕ} {currentState : CurrentState}
    {counterKey : ℕ → String → AttributeKey} {h h' : StateHistory}
    (halike : AlikeFrom t currentState counterKey h h') {segment : CriticalPathSegment}
    (hsegment : segment.tid = kNetworkThread ∨ t ≤ segment.startTs ∧ t ≤ segment.endTs)
    (counter : String) :
    segmentValues h' counterKey counter segment = segmentValues h counterKey counter segment := by
  unfold segmentValues
  split
  · rfl
  · rcases hsegment with hnetwork | ⟨hstart, hend⟩
    · dsimp only
      rw [hnetwork, (halike.noCounter _ _).1, (halike.noCounter _ _).2]
      rfl
    · dsimp only
      rw [(halike.agree _ hstart _).2.1, (halike.agree _ hend _).2.1]

theorem extractMetrics_alike {t : ℕ} {currentState : CurrentState}
    {counterKey : ℕ → String → AttributeKey} {h h' : StateHistory}
    (halike : AlikeFrom t currentState counterKey h h') {path : CriticalPath}
    (hpath : PathFrom t path) (execution : Execution) :
    extractMetrics path h' counterKey execution = extractMetrics path h counterKey execution := by
  have hloop : ∀ counter metricId (execution : Execution),
      path.foldl (addSegmentValue h' counterKey counter metricId) execution =
        path.foldl (addSegmentValue h counterKey counter metricId) execution := by
    intro counter metricId execution
    induction path generalizing execution with
    | nil => rfl
    | cons segment path ih =>
        rw [PathFrom, List.forall_mem_cons] at hpath
        rw [List.foldl_cons, List.foldl_cons, ih hpath.2, addSegmentValue, addSegmentValue,
          segmentValues_alike halike hpath.1]
  unfold extractMetrics
  dsimp only
  rw [extractPerformanceCounterMetrics_eq, extractPerformanceCounterMetrics_eq]
  have hadd : addCounter h' counterKey path = addCounter h counterKey path := by
    funext execution counter
    rw [addCounter, addCounter, hloop]
  rw [hadd]

end TibeeCompare.Executions
