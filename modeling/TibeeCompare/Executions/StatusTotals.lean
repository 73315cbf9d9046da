import TibeeCompare.Critical.PathBounds
import TibeeCompare.Critical.Tiling
import TibeeCompare.Executions.TimingMetrics
import Mathlib.Algebra.Order.BigOperators.Group.List

/-!
The statuses of an execution whose critical path fills it.

The segments of type `kEpsilon` are not counted, and they take no time: when the search extends
one, it does so at the time at which it is. So the statuses add up to the duration.
-/

namespace TibeeCompare.Critical

open Intervals CriticalGraph

/-- An epsilon segment takes no time. -/
def CriticalPathSegment.Thin (segment : CriticalPathSegment) : Prop :=
  segment.type = .epsilon → segment.startTs = segment.endTs

def ThinPath (path : CriticalPath) : Prop := ∀ segment ∈ path, segment.Thin

def Action.Thin : Action → Prop
  | .insert segment => segment.Thin
  | .lateStart _ segment _ => segment.Thin
  | .network _ _ segment _ _ => segment.Thin
  | .recurse .. => True

theorem thinPath_insert {lo : ℕ} {segment : CriticalPathSegment} {path : CriticalPath}
    (htiles : PathTiles lo path segment.startTs) (hpath : ThinPath path) (hsegment : segment.Thin) :
    ThinPath (insertCriticalPathSegment segment path) := by
  have happend : ∀ {init : CriticalPath} {last : CriticalPathSegment}, ThinPath init → last.Thin →
      ThinPath (init ++ [last]) := by
    intro init last hinit hlast other hother
    rcases List.mem_append.mp hother with hother | hother
    · exact hinit other hother
    · rw [List.mem_singleton.mp hother]
      exact hlast
  unfold insertCriticalPathSegment
  split
  · next back hback =>
      split
      · next hmerge =>
          have hsplit : path = path.dropLast ++ [back] :=
            (List.dropLast_append_getLast? back hback).symm
          rw [hsplit] at htiles
          obtain ⟨mid, -, -, -, hend⟩ := tiles_append.mp htiles
          apply happend fun other hother => hpath other (List.mem_of_mem_dropLast hother)
          intro hepsilon
          have hthin : back.startTs = back.endTs := hpath back (List.mem_of_getLast? hback) hepsilon
          have hlast : back.endTs = segment.startTs := hend
          exact hthin.trans (hlast.trans (hsegment (hmerge.1.symm.trans hepsilon)))
      · exact happend hpath hsegment
  · exact happend hpath hsegment

/-- A call that extends a tiling without widening its epsilon segments. -/
def ExtendsThin (call : Call) (path path' : CriticalPath) : Prop :=
  ∀ lo, call.startTs ≤ call.endTs → PathTiles lo path call.startTs → ThinPath path →
    PathTiles lo path' call.endTs ∧ ThinPath path'

theorem Script.run_extendsThin {recurse : Recursion} {script : Script}
    (hrec : RecursionKeeps recurse script ExtendsThin) {lo mid hi : ℕ}
    (hscript : script.Tiles mid hi) (hthin : script.All Action.Thin) {path path' : CriticalPath}
    (htiles : PathTiles lo path mid) (hpath : ThinPath path)
    (hrun : script.run recurse path = .ok path') : PathTiles lo path' hi ∧ ThinPath path' := by
  induction script generalizing mid path with
  | nil =>
      cases hrun
      exact ⟨(show mid = hi from hscript) ▸ htiles, hpath⟩
  | cons step script ih =>
      cases step with
      | error fault => cases hrun
      | ok action =>
          obtain ⟨hstart, hwindow, htail⟩ := hscript
          obtain ⟨middle, haction, hrest⟩ := Script.run_ok_cons_eq_ok hrun
          have hfirst := hthin action List.mem_cons_self
          have hothers : Script.All Action.Thin script :=
            fun other hmem => hthin other (List.mem_cons_of_mem _ hmem)
          subst hstart
          have hinsert : ∀ segment : CriticalPathSegment, segment.Thin →
              action.window = (segment.startTs, segment.endTs) →
              middle = insertCriticalPathSegment segment path →
              PathTiles lo middle action.window.2 ∧ ThinPath middle := by
            rintro segment hsegment hbounds rfl
            rw [hbounds] at htiles hwindow ⊢
            exact ⟨pathTiles_insert htiles hwindow, thinPath_insert htiles hpath hsegment⟩
          have hmiddle : PathTiles lo middle action.window.2 ∧ ThinPath middle := by
            cases action with
            | insert segment => exact hinsert segment hfirst rfl (by cases haction; rfl)
            | lateStart first segment endTs =>
                exact hinsert segment hfirst rfl (by cases haction; rfl)
            | network startNode endNode segment startTs endTs =>
                exact hinsert segment hfirst rfl (by cases haction; rfl)
            | recurse source startTs endTs tid =>
                exact hrec source startTs endTs tid List.mem_cons_self path middle haction lo
                  hwindow htiles hpath
          exact ih hrec.tail htail hothers hmiddle.1 hmiddle.2 hrest

/-! ### The scripts of a call -/

section scripts

variable {g : CriticalGraph} (hg : ∀ {e edge}, g.edges e = some edge → edge.type ≠ .epsilon)
include hg

theorem type_ne_of_getEdge {id : ℕ} {edge : CriticalEdge} (h : g.getEdge id = .ok edge) :
    edge.type ≠ .epsilon := by
  unfold getEdge at h
  split at h
  · next edge' hedge =>
      obtain rfl := Except.ok.inj h
      exact hg hedge
  · cases h

theorem blockedScript_thin {edge : CriticalEdge} (hedge : edge.type ≠ .epsilon)
    (startTs endTs : ℕ) : (blockedScript g edge startTs endTs).All Action.Thin := by
  have hsource : ∀ source tid, (sourceScript source startTs endTs tid).All Action.Thin :=
    fun _ _ => Script.all_cons (fun _ => rfl) (Script.all_cons trivial (Script.all_nil _))
  refine Script.all_reading fun toNode _ => ?_
  split
  · exact Script.all_cons (fun hepsilon => absurd hepsilon hedge) (Script.all_nil _)
  · refine Script.all_reading fun wakeUpEdge _ => Script.all_reading fun endNode _ => ?_
    dsimp only
    split
    · split
      · refine Script.all_reading fun networkEdge hnetworkEdge =>
          Script.all_reading fun startNode _ => ?_
        have hne := type_ne_of_getEdge hg hnetworkEdge
        split
        · refine Script.all_reading fun _ _ => Script.all_reading fun _ _ => ?_
          exact Script.all_cons trivial
            (Script.all_cons (fun hepsilon => absurd hepsilon hne) (Script.all_nil _))
        · exact hsource _ _
      · exact hsource _ _
    · exact hsource _ _

theorem traverseScript_thin (startTs endTs tid rounds : ℕ) (n : Option ℕ) :
    (traverseScript g startTs endTs tid rounds n).All Action.Thin := by
  induction rounds generalizing n with
  | zero =>
      cases n with
      | none => exact Script.all_nil _
      | some n =>
          intro action hmem
          cases List.mem_singleton.mp hmem
  | succ rounds ih =>
      cases n with
      | none => exact Script.all_nil _
      | some n =>
          refine Script.all_reading fun node _ => ?_
          split
          · split
            · exact Script.all_nil _
            · refine Script.all_reading fun edge hedge => Script.all_reading fun nextNode _ => ?_
              have hne := type_ne_of_getEdge hg hedge
              refine Script.all_append.mpr ⟨?_, ih _⟩
              unfold edgeScript
              split
              · exact blockedScript_thin hg hne _ _
              · split
                · exact Script.all_cons (fun hepsilon => absurd hepsilon hne) (Script.all_nil _)
                · exact Script.all_nil _
          · exact Script.all_nil _

theorem callScript_thin (startTs endTs tid : ℕ) :
    (callScript g startTs endTs tid).All Action.Thin := by
  have htraverse := traverseScript_thin hg startTs endTs tid g.rounds
  unfold callScript
  split
  · exact Script.all_nil _
  · refine Script.all_reading fun node _ => ?_
    cases node with
    | some node => exact htraverse _
    | none =>
        refine Script.all_reading fun hit _ => ?_
        cases hit with
        | some hit =>
            refine Script.all_reading fun _ _ => Script.all_reading fun _ _ =>
              Script.all_reading fun _ _ => ?_
            exact Script.all_cons trivial (htraverse _)
        | none =>
            refine Script.all_cons ?_ (htraverse _)
            rintro ⟨⟩

/-- A search for which the path fills the window has epsilon segments that take no time. -/
theorem thinPath_of_tiles {query : Call} (hle : query.startTs ≤ query.endTs)
    (hfills : ∀ call, Reaches g query call → call.startTs ≤ call.endTs →
      (call.script g).Tiles call.startTs call.endTs)
    {fuel : ℕ} {path : CriticalPath}
    (hrun : computeCriticalPath g fuel query.startTs query.endTs query.tid = .ok path) :
    PathTiles query.startTs path query.endTs ∧ ThinPath path := by
  have hself : Reaches g query query := .self
  have hkeeps := reaches_induction ExtendsThin (by
    intro call hcall recurse hrec path path' hscript lo hle htiles hpath
    exact Script.run_extendsThin hrec (hfills call hcall hle)
      (callScript_thin hg call.startTs call.endTs call.tid) htiles hpath hscript) fuel hself hrun
  exact hkeeps query.startTs hle rfl (by rintro segment ⟨⟩)

end scripts

end TibeeCompare.Critical

namespace TibeeCompare.Executions

open Critical Critical.CriticalGraph Db State

/-- The types whose time is counted. -/
def statusTypes : List CriticalEdgeType :=
  [.unknown, .vertical, .run, .interrupted, .waitCpu, .waitBlocked, .timer, .network,
    .blockDevice, .userInput]

theorem mem_statusTypes {type : CriticalEdgeType} : type ∈ statusTypes ↔ type ≠ .epsilon := by
  cases type <;> decide

/-- What a segment adds to the metric of a type, if nothing wraps around. -/
def timeOn (type : CriticalEdgeType) (segment : CriticalPathSegment) : ℕ :=
  if segment.type = type then segment.endTs - segment.startTs else 0

theorem sum_timeOn {segment : CriticalPathSegment} (hthin : segment.Thin) :
    (statusTypes.map fun type => timeOn type segment).sum = segment.endTs - segment.startTs := by
  obtain ⟨startTs, endTs, tid, type⟩ := segment
  cases type
  case epsilon =>
    rw [show startTs = endTs from hthin rfl]
    simp [statusTypes, timeOn]
  all_goals simp [statusTypes, timeOn]

/-- Summed over the types and then over the segments, or the other way round. -/
theorem sum_statuses {path : CriticalPath} (hthin : ThinPath path) :
    (statusTypes.map fun type => (path.map (timeOn type)).sum).sum =
      (path.map fun segment => segment.endTs - segment.startTs).sum := by
  induction path with
  | nil => rfl
  | cons segment path ih =>
      rw [ThinPath, List.forall_mem_cons] at hthin
      have hsum := sum_timeOn hthin.1
      simp only [List.map_cons, List.sum_cons, List.sum_map_add]
      rw [hsum, ih hthin.2]

theorem toNat_sum {xs : List UInt64} (h : (xs.map UInt64.toNat).sum < U64) :
    xs.sum.toNat = (xs.map UInt64.toNat).sum := by
  induction xs with
  | nil => rfl
  | cons x xs ih =>
      rw [List.map_cons, List.sum_cons] at h ⊢
      rw [List.sum_cons, UInt64.toNat_add, ih (by omega)]
      exact Nat.mod_eq_of_lt h

theorem toNat_segmentDuration {segment : CriticalPathSegment}
    (hle : segment.startTs ≤ segment.endTs) (hend : segment.endTs < U64) :
    (segmentSpan segment).toNat = segment.endTs - segment.startTs := by
  rw [segmentSpan, subU64_of_le hle]
  exact Nat.mod_eq_of_lt ((Nat.sub_le _ _).trans_lt hend)

theorem toNat_statusAmount {type : CriticalEdgeType} {segment : CriticalPathSegment}
    (hle : segment.startTs ≤ segment.endTs) (hend : segment.endTs < U64) :
    (statusAmount type segment).toNat = timeOn type segment := by
  rw [statusAmount, timeOn]
  split
  · exact toNat_segmentDuration hle hend
  · rfl

/-- No sum over the segments of a path that fills an execution wraps around. -/
theorem toNat_sum_amounts {path : CriticalPath} {amount : CriticalPathSegment → UInt64}
    {time : CriticalPathSegment → ℕ}
    (htime : ∀ segment ∈ path, (amount segment).toNat = time segment)
    (hle : ∀ segment ∈ path, time segment ≤ segment.endTs - segment.startTs)
    (hsum : (path.map fun segment => segment.endTs - segment.startTs).sum < U64) :
    (path.map amount).sum.toNat = (path.map time).sum := by
  have hmap : (path.map amount).map UInt64.toNat = path.map time := by
    rw [List.map_map]
    exact List.map_congr_left htime
  have hlt : (path.map time).sum < U64 := (List.sum_le_sum hle).trans_lt hsum
  rw [toNat_sum (by rwa [hmap]), hmap]

/-- The path of a thread that is known over the whole window. -/
theorem tiles_of_anchored {g : CriticalGraph} (hbuilt : g.Built) (hg : g.Threaded)
    (hlevel : g.Level) (hnetwork : g.nodesOf kNetworkThread = [])
    (hepsilon : ∀ e edge, g.edges e = some edge → edge.type ≠ .epsilon) {query : Critical.Call}
    (hquery : g.Anchored query) {fuel : ℕ} {path : CriticalPath}
    (hrun : computeCriticalPath g fuel query.startTs query.endTs query.tid = .ok path) :
    PathTiles query.startTs path query.endTs ∧ ThinPath path :=
  thinPath_of_tiles (fun hedge => hepsilon _ _ hedge) hquery.le
    (fun _ hcall => (reaches_fills hbuilt hg hlevel hnetwork hquery hcall).1) hrun

/-- The statuses over a path that fills the execution. -/
theorem sum_statuses_of_tiles {execution : Execution} {path : CriticalPath}
    (hmetrics : execution.metrics = IdMap.empty) (hwindow : execution.startTs ≤ execution.endTs)
    (htiles : PathTiles execution.startTs.toNat path execution.endTs.toNat) (hthin : ThinPath path)
    (stateHistory : StateHistory) (counterKey : ℕ → String → AttributeKey) :
    let measured := extractMetrics path stateHistory counterKey execution
    (statusTypes.map fun type => (measured.1.metrics.get (statusMetricId type)).toNat).sum =
      (measured.1.metrics.get kDurationMetricId).toNat ∧ measured.2 = false := by
  have hsum := htiles.sum_durations
  have hend := execution.endTs.toNat_lt
  -- The sums of the source are of machine integers, and the window leaves them no way to wrap.
  have hlt : (path.map fun segment => segment.endTs - segment.startTs).sum < U64 := by
    rw [hsum]
    exact (Nat.sub_le _ _).trans_lt hend
  have hbounds : ∀ segment ∈ path, segment.startTs ≤ segment.endTs ∧ segment.endTs < U64 := by
    intro segment hsegment
    obtain ⟨-, hle, hlast⟩ := htiles.ordered.bounds hsegment
    exact ⟨hle, hlast.trans_lt hend⟩
  obtain ⟨hduration, -, hstatuses, -, -⟩ := extractTimingMetrics_measures path execution
  have hdurationNat : (execution.endTs - execution.startTs).toNat =
      execution.endTs.toNat - execution.startTs.toNat :=
    UInt64.toNat_sub_of_le _ _ hwindow
  have hempty : ∀ id, execution.metrics.get id = 0 := by
    intro id
    rw [hmetrics]
    rfl
  refine ⟨?_, ?_⟩
  · have hstatus : ∀ type ∈ statusTypes,
        ((extractMetrics path stateHistory counterKey execution).1.metrics.get
          (statusMetricId type)).toNat = (path.map (timeOn type)).sum := by
      intro type htype
      have htype := mem_statusTypes.mp htype
      rw [get_extractMetrics_of_lt _ _ _ _ (statusMetricId_lt htype).2, hstatuses type htype,
        hempty, UInt64.zero_add]
      apply toNat_sum_amounts _ _ hlt
      · exact fun segment hsegment =>
          toNat_statusAmount (hbounds segment hsegment).1 (hbounds segment hsegment).2
      · intro segment _
        rw [timeOn]
        split
        · exact le_rfl
        · exact Nat.zero_le _
    rw [List.map_congr_left hstatus, sum_statuses hthin, hsum,
      get_extractMetrics_of_lt _ _ _ _ (by decide), hduration, hdurationNat]
  · show decide (execution.endTs - execution.startTs ≠ criticalPathDuration path) = false
    rw [decide_eq_false_iff_not, not_not, ← UInt64.toNat_inj, criticalPathDuration_eq,
      hdurationNat, ← hsum]
    symm
    apply toNat_sum_amounts _ (fun _ _ => le_rfl) hlt
    intro segment hsegment
    rw [durationAmount]
    split
    · next htype =>
        rw [hthin segment hsegment htype, Nat.sub_self]
        rfl
    · exact toNat_segmentDuration (hbounds segment hsegment).1 (hbounds segment hsegment).2

/-- The statuses of an execution add up to its duration, and it is not reported that the critical
path is not the same duration, when the graph is that of a path that fills its window. -/
theorem statuses_sum {g : CriticalGraph} (hbuilt : g.Built) (hg : g.Threaded) (hlevel : g.Level)
    (hnetwork : g.nodesOf kNetworkThread = [])
    (hepsilon : ∀ e edge, g.edges e = some edge → edge.type ≠ .epsilon)
    {execution : Execution} (hmetrics : execution.metrics = IdMap.empty)
    (hwindow : execution.startTs < execution.endTs) {tid : ℕ}
    (hbegin : ∃ n ∈ g.nodesOf tid, g.tsOf n ≤ execution.startTs.toNat)
    (hreach : ∃ n ∈ g.nodesOf tid, execution.endTs.toNat ≤ g.tsOf n)
    (hinside : ¬ g.InsideBlocked tid execution.endTs.toNat) {fuel : ℕ}
    (hends : computeCriticalPath g fuel execution.startTs.toNat execution.endTs.toNat tid ≠
      .error .outOfFuel) (stateHistory : StateHistory) (counterKey : ℕ → String → AttributeKey) :
    ∃ path measured differs,
      computeCriticalPath g fuel execution.startTs.toNat execution.endTs.toNat tid = .ok path ∧
      extractMetrics path stateHistory counterKey execution = (measured, differs) ∧
      (statusTypes.map fun type => (measured.metrics.get (statusMetricId type)).toNat).sum =
        (measured.metrics.get kDurationMetricId).toNat ∧ differs = false := by
  have hquery : g.Anchored ⟨execution.startTs.toNat, execution.endTs.toNat, tid⟩ :=
    ⟨(UInt64.lt_iff_toNat_lt.mp hwindow).le, hreach, hinside, .inl hbegin⟩
  have hfaults := fun {call} (hcall : Critical.Reaches g ⟨_, _, tid⟩ call) =>
    (reaches_fills hbuilt hg hlevel hnetwork hquery hcall).2
  cases hrun : computeCriticalPath g fuel execution.startTs.toNat execution.endTs.toNat tid with
  | error fault =>
      have hfuel := reaches_fault _
        (fun call hcall fault hmem => absurd hmem (hfaults hcall fault)) fuel .self hrun
      rw [hfuel] at hrun
      exact absurd hrun hends
  | ok path =>
      obtain ⟨htiles, hthin⟩ := tiles_of_anchored hbuilt hg hlevel hnetwork hepsilon hquery hrun
      have hsum := sum_statuses_of_tiles hmetrics (UInt64.le_of_lt hwindow) htiles hthin
        stateHistory counterKey
      exact ⟨path, _, _, rfl, rfl, hsum⟩

theorem noEpsilon_wokenPair (e : ℕ) (edge : CriticalEdge) (hedge : wokenPair.edges e = some edge) :
    edge.type ≠ .epsilon := by
  have he : e < 3 := built_wokenPair.slotsSound.fresh hedge
  obtain rfl | rfl | rfl : e = 0 ∨ e = 1 ∨ e = 2 := by omega
  all_goals
    cases hedge
    decide

def waitingExecution : Execution := { startTs := 2, endTs := 10 }

/-- Thread 1 waits for thread 2 over the whole of the execution. -/
theorem statuses_sum_wokenPair :
    ∃ path measured differs, computeCriticalPath wokenPair 2 2 10 1 = .ok path ∧
      extractMetrics path {} (fun _ _ => 0) waitingExecution = (measured, differs) ∧
      (statusTypes.map fun type => (measured.metrics.get (statusMetricId type)).toNat).sum =
        (measured.metrics.get kDurationMetricId).toNat ∧ differs = false := by
  refine statuses_sum built_wokenPair threaded_wokenPair level_wokenPair rfl noEpsilon_wokenPair
    (show waitingExecution.metrics = IdMap.empty from rfl) (by decide) ⟨0, by decide, by decide⟩
    ⟨2, by decide, by decide⟩ ?_ (by decide) {} fun _ _ => 0
  exact not_insideBlocked_of_node threaded_wokenPair (n := 2) (by decide)

end TibeeCompare.Executions
