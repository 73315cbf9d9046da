import TibeeCompare.Critical.Calls
import TibeeCompare.Critical.GraphInvariants
import TibeeCompare.Lib.Cycles
import Mathlib.Order.Interval.Finset.Nat

/-!
What a search gives does not depend on the bound of its depth, and the bounds of its segments
are not later than the latest node and the bounds of the query.

A segment can leave the window of the query, so that the window alone is not a bound.
-/

namespace TibeeCompare.Critical

open CriticalGraph

/-! ### The depth -/

/-- Calls that give more paths make the script give more. -/
theorem Script.run_mono {first second : Recursion} {script : Script}
    (h : ∀ startTs endTs tid path path', first startTs endTs tid path = .ok path' →
      second startTs endTs tid path = .ok path') {path path' : CriticalPath}
    (hrun : script.run first path = .ok path') : script.run second path = .ok path' := by
  induction script generalizing path with
  | nil => exact hrun
  | cons step script ih =>
      cases step with
      | error fault => cases hrun
      | ok action =>
          obtain ⟨middle, haction, hrest⟩ := Script.run_ok_cons_eq_ok hrun
          have haction' : action.perform second path = .ok middle := by
            cases action with
            | recurse source startTs endTs tid => exact h startTs endTs tid path middle haction
            | insert | lateStart | network => exact haction
          rw [Script.run_ok_cons, haction']
          exact ih hrest

theorem computeCriticalPathRecursive_mono {g : CriticalGraph} {fuel fuel' : ℕ}
    (hle : fuel ≤ fuel') {startTs endTs tid : ℕ} {path path' : CriticalPath}
    (hrun : computeCriticalPathRecursive g fuel startTs endTs tid path = .ok path') :
    computeCriticalPathRecursive g fuel' startTs endTs tid path = .ok path' := by
  induction fuel generalizing fuel' startTs endTs tid path path' with
  | zero => cases hrun
  | succ fuel ih =>
      obtain ⟨fuel', rfl⟩ : ∃ n, fuel' = n + 1 := ⟨fuel' - 1, by omega⟩
      rw [computeCriticalPathRecursive_succ] at hrun ⊢
      refine Script.run_mono ?_ hrun
      intro startTs endTs tid path path' hrec
      exact ih (by omega) hrec

/-- `ComputeCriticalPath` returns the path, for some depth of its recursion. -/
def PathOf (g : CriticalGraph) (call : Call) (path : CriticalPath) : Prop :=
  ∃ fuel, computeCriticalPath g fuel call.startTs call.endTs call.tid = .ok path

theorem PathOf.unique {g : CriticalGraph} {call : Call} {path path' : CriticalPath}
    (h : PathOf g call path) (h' : PathOf g call path') : path = path' := by
  obtain ⟨fuel, hrun⟩ := h
  obtain ⟨fuel', hrun'⟩ := h'
  have hmax := computeCriticalPathRecursive_mono (le_max_left fuel fuel') hrun
  rw [computeCriticalPathRecursive_mono (le_max_right fuel fuel') hrun'] at hmax
  exact (Except.ok.inj hmax).symm

/-- One depth is enough for finitely many calls. -/
theorem exists_fuel {g : CriticalGraph} {calls : Set Call} (hfinite : calls.Finite)
    (hpaths : ∀ call ∈ calls, ∃ path, PathOf g call path) (enough : ℕ) :
    ∃ fuel ≥ enough, ∀ call ∈ calls, ∃ path,
      computeCriticalPath g fuel call.startTs call.endTs call.tid = .ok path := by
  let Found (fuel : ℕ) (call : Call) : Prop :=
    ∃ path, computeCriticalPath g fuel call.startTs call.endTs call.tid = .ok path
  have hmono : ∀ n m call, n ≤ m → Found n call → Found m call :=
    fun _ _ _ hle ⟨path, hpath⟩ => ⟨path, computeCriticalPathRecursive_mono hle hpath⟩
  obtain ⟨fuel, hfuel⟩ := Cycles.exists_enough hfinite hmono fun call hcall => by
    obtain ⟨path, fuel, hpath⟩ := hpaths call hcall
    exact ⟨fuel, path, hpath⟩
  refine ⟨max enough fuel, le_max_left .., fun call hcall => ?_⟩
  exact hmono _ _ call (le_max_right ..) (hfuel call hcall)

/-! ### The bounds of segments -/

def CriticalPathSegment.EndsBy (segment : CriticalPathSegment) (bound : ℕ) : Prop :=
  segment.startTs ≤ bound ∧ segment.endTs ≤ bound

def Action.EndsBy (bound : ℕ) (action : Action) : Prop :=
  action.window.1 ≤ bound ∧ action.window.2 ≤ bound

section bounds

variable {g : CriticalGraph} {bound : ℕ}

theorem exists_bound (ho : g.Owned) : ∃ bound, ∀ n, g.tsOf n ≤ bound := by
  obtain ⟨bound, hbound⟩ := ((Set.finite_Iio g.nextNode).image g.tsOf).bddAbove
  refine ⟨bound, fun n => ?_⟩
  by_cases hn : n < g.nextNode
  · exact hbound (Set.mem_image_of_mem g.tsOf hn)
  · cases hlabel : g.label n with
    | some label => exact absurd (ho.lt_next hlabel) hn
    | none =>
        have hdead : g.heap n = none := Option.map_eq_none_iff.mp hlabel
        rw [tsOf, hdead]
        exact Nat.zero_le bound

variable (hg : ∀ n, g.tsOf n ≤ bound)
include hg

theorem ts_le_of_deref {n : ℕ} {node : CriticalNode} (hnode : g.deref n = .ok node) :
    node.ts ≤ bound := by
  unfold deref at hnode
  split at hnode
  · next node' hheap =>
      obtain rfl := Except.ok.inj hnode
      exact tsOf_of_heap hheap ▸ hg n
  · cases hnode

theorem blockedScript_endsBy (edge : CriticalEdge) {startTs endTs : ℕ} (hstart : startTs ≤ bound)
    (hend : endTs ≤ bound) : (blockedScript g edge startTs endTs).All (Action.EndsBy bound) := by
  have hsource : ∀ source tid,
      (sourceScript source startTs endTs tid).All (Action.EndsBy bound) := fun _ _ =>
    Script.all_cons ⟨hstart, hstart⟩ (Script.all_cons ⟨hstart, hend⟩ (Script.all_nil _))
  refine Script.all_reading fun toNode _ => ?_
  split
  · exact Script.all_cons ⟨hstart, hend⟩ (Script.all_nil _)
  · refine Script.all_reading fun wakeUpEdge _ => Script.all_reading fun endNode hendNode => ?_
    dsimp only
    split
    · split
      · refine Script.all_reading fun networkEdge _ =>
          Script.all_reading fun startNode hstartNode => ?_
        have hsent := ts_le_of_deref hg hstartNode
        have hreceived := ts_le_of_deref hg hendNode
        split
        · refine Script.all_reading fun _ _ => Script.all_reading fun _ _ => ?_
          exact Script.all_cons ⟨hstart, hsent⟩
            (Script.all_cons ⟨hsent, hreceived⟩ (Script.all_nil _))
        · exact hsource _ _
      · exact hsource _ _
    · exact hsource _ _

theorem traverseScript_endsBy {startTs endTs : ℕ} (hstart : startTs ≤ bound)
    (hend : endTs ≤ bound) (tid rounds : ℕ) (n : Option ℕ) :
    (traverseScript g startTs endTs tid rounds n).All (Action.EndsBy bound) := by
  induction rounds generalizing n with
  | zero =>
      cases n with
      | none => exact Script.all_nil _
      | some n =>
          intro action hmem
          cases List.mem_singleton.mp hmem
  | succ rounds ih =>
      cases n with
      | none => exact Script.all_nil _
      | some n =>
          refine Script.all_reading fun node hnode => ?_
          have hts := ts_le_of_deref hg hnode
          split
          · split
            · exact Script.all_nil _
            · refine Script.all_reading fun edge _ => Script.all_reading fun nextNode _ => ?_
              have hfrom := max_le hstart hts
              have hto := (min_le_left endTs nextNode.ts).trans hend
              refine Script.all_append.mpr ⟨?_, ih _⟩
              unfold edgeScript
              split
              · exact blockedScript_endsBy hg edge hfrom hto
              · split
                · exact Script.all_cons ⟨hfrom, hto⟩ (Script.all_nil _)
                · exact Script.all_nil _
          · exact Script.all_nil _

theorem callScript_endsBy {startTs endTs : ℕ} (hstart : startTs ≤ bound) (hend : endTs ≤ bound)
    (tid : ℕ) : (callScript g startTs endTs tid).All (Action.EndsBy bound) := by
  have htraverse := traverseScript_endsBy hg hstart hend tid g.rounds
  unfold callScript
  split
  · exact Script.all_nil _
  · refine Script.all_reading fun node _ => ?_
    cases node with
    | some node => exact htraverse _
    | none =>
        refine Script.all_reading fun hit _ => ?_
        cases hit with
        | some hit =>
            refine Script.all_reading fun node hnode => Script.all_reading fun _ _ =>
              Script.all_reading fun _ _ => ?_
            exact Script.all_cons ⟨hstart, ts_le_of_deref hg hnode⟩ (htraverse _)
        | none =>
            refine Script.all_cons ⟨hstart, ?_⟩ (htraverse _)
            dsimp only [Action.window]
            split
            · exact hg _
            · exact hend

end bounds

theorem endsBy_insert {bound : ℕ} {segment : CriticalPathSegment} {path : CriticalPath}
    (hsegment : segment.EndsBy bound) (hpath : ∀ other ∈ path, other.EndsBy bound) :
    ∀ other ∈ insertCriticalPathSegment segment path, other.EndsBy bound := by
  rcases insertCriticalPathSegment_cases segment path with h | ⟨init, back, rfl, h⟩ <;> rw [h]
  · exact List.forall_mem_append.mpr ⟨hpath, List.forall_mem_singleton.mpr hsegment⟩
  · obtain ⟨hinit, hback⟩ := List.forall_mem_append.mp hpath
    exact List.forall_mem_append.mpr ⟨hinit, List.forall_mem_singleton.mpr
      ⟨(List.forall_mem_singleton.mp hback).1, hsegment.2⟩⟩

theorem Script.run_endsBy {recurse : Recursion} {bound : ℕ}
    (hrecurse : ∀ startTs endTs tid path path', startTs ≤ bound → endTs ≤ bound →
      (∀ segment ∈ path, segment.EndsBy bound) → recurse startTs endTs tid path = .ok path' →
      ∀ segment ∈ path', segment.EndsBy bound) {script : Script}
    (hscript : script.All (Action.EndsBy bound)) {path path' : CriticalPath}
    (hpath : ∀ segment ∈ path, segment.EndsBy bound) (hrun : script.run recurse path = .ok path') :
    ∀ segment ∈ path', segment.EndsBy bound := by
  induction script generalizing path with
  | nil =>
      cases hrun
      exact hpath
  | cons step script ih =>
      cases step with
      | error fault => cases hrun
      | ok action =>
          obtain ⟨middle, haction, hrest⟩ := Script.run_ok_cons_eq_ok hrun
          have hends := hscript action List.mem_cons_self
          refine ih (fun other hmem => hscript other (List.mem_cons_of_mem _ hmem)) ?_ hrest
          unfold Action.EndsBy at hends
          rcases Action.perform_ok_cases haction with
            ⟨segment, hwindow, rfl⟩ | ⟨source, startTs, endTs, tid, rfl, hrec⟩
          · rw [hwindow] at hends
            exact endsBy_insert hends hpath
          · exact hrecurse startTs endTs tid path middle hends.1 hends.2 hpath hrec

/-- The segments of a search from a bounded query are bounded, whatever the windows are. -/
theorem PathOf.endsBy {g : CriticalGraph} {bound : ℕ} (hg : ∀ n, g.tsOf n ≤ bound) {call : Call}
    (hstart : call.startTs ≤ bound) (hend : call.endTs ≤ bound) {path : CriticalPath}
    (h : PathOf g call path) : ∀ segment ∈ path, segment.EndsBy bound := by
  obtain ⟨fuel, hrun⟩ := h
  have hall : ∀ startTs endTs tid path path', startTs ≤ bound → endTs ≤ bound →
      (∀ segment ∈ path, segment.EndsBy bound) →
      computeCriticalPathRecursive g fuel startTs endTs tid path = .ok path' →
      ∀ segment ∈ path', segment.EndsBy bound := by
    clear hrun
    induction fuel with
    | zero =>
        intro _ _ _ _ _ _ _ _ hrun
        cases hrun
    | succ fuel ih =>
        intro startTs endTs tid path path' hstart hend hpath hrun
        rw [computeCriticalPathRecursive_succ] at hrun
        exact Script.run_endsBy ih (callScript_endsBy hg hstart hend tid) hpath hrun
  exact hall _ _ _ [] path hstart hend (List.forall_mem_nil _) hrun

end TibeeCompare.Critical
