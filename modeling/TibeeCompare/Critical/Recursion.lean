import TibeeCompare.Critical.CallSteps
import TibeeCompare.Lib.Cycles
import Mathlib.Data.Finite.Prod
import Mathlib.Order.Interval.Finset.Nat

/-!
When the recursion of a path search ends.

A call that is made again from within itself repeats itself for ever: nothing
that it depends on has changed. The windows of the calls of a search have their
bounds among the timestamps of the nodes and the bounds of the query, so there are
only finitely many of them, and this is the only way in which a search can fail
to end.
-/

namespace TibeeCompare.Critical

open Relation CriticalGraph

/-- One call makes the other. -/
def Leads (g : CriticalGraph) (call next : Call) : Prop :=
  ∃ source, .ok (.recurse source next.startTs next.endTs next.tid) ∈ call.script g

theorem reaches_iff {g : CriticalGraph} {query call : Call} :
    Reaches g query call ↔ ReflTransGen (Leads g) query call := by
  constructor
  · intro h
    induction h with
    | self => exact .refl
    | recurse _ hmem ih => exact ih.tail ⟨_, hmem⟩
  · intro h
    induction h with
    | refl => exact .self
    | tail _ hleads ih =>
        obtain ⟨source, hmem⟩ := hleads
        exact ih.recurse hmem

variable {g : CriticalGraph}

theorem Leads.start_le {call next : Call} (h : Leads g call next) :
    call.startTs ≤ next.startTs := by
  obtain ⟨source, hmem⟩ := h
  exact callScript_recursesFrom g call.startTs call.endTs call.tid _ hmem

/-! ### Calls that come back to themselves -/

/-- The call does not run out of the given fuel, for some path. -/
def Ends (g : CriticalGraph) (fuel : ℕ) (call : Call) : Prop :=
  ∃ path, computeCriticalPathRecursive g fuel call.startTs call.endTs call.tid path ≠
    .error .outOfFuel

/-- A script that does not run out of fuel gets to each of its calls. -/
theorem Script.run_reaches {recurse : Recursion} {script : Script}
    (hclean : ∀ fault, .error fault ∉ script)
    (hfault : ∀ startTs endTs tid path fault,
      recurse startTs endTs tid path = .error fault → fault = .outOfFuel)
    {path : CriticalPath} (hrun : script.run recurse path ≠ .error .outOfFuel)
    {source startTs endTs tid : ℕ} (hmem : .ok (.recurse source startTs endTs tid) ∈ script) :
    ∃ path, recurse startTs endTs tid path ≠ .error .outOfFuel := by
  induction script generalizing path with
  | nil => cases hmem
  | cons step script ih =>
      cases step with
      | error fault => exact absurd List.mem_cons_self (hclean fault)
      | ok action =>
          rw [Script.run_ok_cons] at hrun
          rcases List.mem_cons.mp hmem with heq | hmem
          · obtain rfl := Except.ok.inj heq
            refine ⟨path, ?_⟩
            intro hfuel
            simp only [Action.perform, hfuel] at hrun
            exact hrun rfl
          · cases haction : action.perform recurse path with
            | ok middle =>
                rw [haction] at hrun
                exact ih (fun fault hf => hclean fault (List.mem_cons_of_mem _ hf)) hrun hmem
            | error fault =>
                rw [haction] at hrun
                cases action with
                | recurse source' startTs' endTs' tid' =>
                    obtain rfl := hfault _ _ _ _ _ haction
                    exact absurd rfl hrun
                | insert | lateStart | network => cases haction

theorem Ends.leads (hg : g.Navigable) {fuel : ℕ} {call next : Call} (h : Ends g (fuel + 1) call)
    (hleads : Leads g call next) : Ends g fuel next := by
  obtain ⟨path, hrun⟩ := h
  obtain ⟨source, hmem⟩ := hleads
  rw [computeCriticalPathRecursive_succ] at hrun
  refine Script.run_reaches (fun fault => callScript_fault hg call) ?_ hrun hmem
  intro startTs endTs tid path fault hfault
  exact reaches_fault ⟨startTs, endTs, tid⟩
    (fun call _ _ hx => absurd hx (callScript_fault hg call)) fuel .self hfault

theorem not_ends_of_cycle (hg : g.Navigable) (fuel : ℕ) {call : Call}
    (hcycle : TransGen (Leads g) call call) : ¬ Ends g fuel call := by
  induction fuel generalizing call with
  | zero =>
      rintro ⟨path, hrun⟩
      exact hrun rfl
  | succ fuel ih =>
      intro h
      obtain ⟨next, hleads, hback⟩ := TransGen.head'_iff.mp hcycle
      exact ih (TransGen.tail' hback hleads) (h.leads hg hleads)

theorem Ends.reaches (hg : g.Navigable) {fuel : ℕ} {query call : Call} (h : Ends g fuel query)
    (hreaches : Reaches g query call) : ∃ fuel', Ends g fuel' call := by
  induction hreaches with
  | self => exact ⟨fuel, h⟩
  | recurse _ hmem ih =>
      obtain ⟨fuel', h'⟩ := ih
      cases fuel' with
      | zero =>
          obtain ⟨path, hrun⟩ := h'
          exact absurd rfl hrun
      | succ fuel' => exact ⟨fuel', h'.leads hg ⟨_, hmem⟩⟩

/-! ### Finitely many calls -/

/-- The timestamps of a graph and those of a bound of the query. -/
def timestamps (g : CriticalGraph) (bound : ℕ) : Set ℕ :=
  insert bound (g.tsOf '' Set.Iio g.nextNode)

theorem finite_timestamps (g : CriticalGraph) (bound : ℕ) : (timestamps g bound).Finite :=
  ((Set.finite_Iio _).image _).insert _

theorem tsOf_mem_timestamps (hg : g.Navigable) {n : ℕ} {node : CriticalNode}
    (hnode : g.heap n = some node) (bound : ℕ) : node.ts ∈ timestamps g bound := by
  rw [← tsOf_of_heap hnode]
  exact .inr ⟨n, hg.lt_nextNode hnode, rfl⟩

theorem max_mem_timestamps {a b bound : ℕ} (ha : a ∈ timestamps g bound)
    (hb : b ∈ timestamps g bound) : max a b ∈ timestamps g bound := by
  rcases max_choice a b with h | h
  · rwa [h]
  · rwa [h]

theorem min_mem_timestamps {a b bound : ℕ} (ha : a ∈ timestamps g bound)
    (hb : b ∈ timestamps g bound) : min a b ∈ timestamps g bound := by
  rcases min_choice a b with h | h
  · rwa [h]
  · rwa [h]

/-- The calls over windows with such bounds, on the threads of the graph. -/
def calls (g : CriticalGraph) (query : Call) : Set Call :=
  {call | call.startTs ∈ timestamps g query.startTs ∧ call.endTs ∈ timestamps g query.endTs ∧
    call.tid ∈ query.tid :: g.tids}

theorem finite_callsOver {starts ends tids : Set ℕ} (hstarts : starts.Finite)
    (hends : ends.Finite) (htids : tids.Finite) :
    {call : Call | call.startTs ∈ starts ∧ call.endTs ∈ ends ∧ call.tid ∈ tids}.Finite := by
  have hproduct := (hstarts.prod (hends.prod htids)).image
    fun bounds : ℕ × ℕ × ℕ => (⟨bounds.1, bounds.2.1, bounds.2.2⟩ : Call)
  refine hproduct.subset ?_
  rintro ⟨startTs, endTs, tid⟩ hcall
  exact ⟨(startTs, endTs, tid), hcall, rfl⟩

theorem finite_calls (g : CriticalGraph) (query : Call) : (calls g query).Finite :=
  finite_callsOver (finite_timestamps g query.startTs) (finite_timestamps g query.endTs)
    (List.finite_toSet (query.tid :: g.tids))

theorem traverseStep_recurse (hg : g.Navigable) {query call : Call} (hcall : call ∈ calls g query)
    {n source startTs endTs tid : ℕ}
    (h : TraverseStep g call.startTs call.endTs n (.ok (.recurse source startTs endTs tid))) :
    startTs ∈ timestamps g query.startTs ∧ endTs ∈ timestamps g query.endTs ∧
      g.label source = some (g.tsOf source, tid) := by
  cases h with
  | @wait k id edge toNode _ _ hslot _ _ _ hto hmem =>
      obtain ⟨rfl, hlabel, hend⟩ := blockedScript_recurse hg hto hmem
      obtain ⟨node, hnode, -⟩ := Option.bind_eq_some_iff.mp hslot
      refine ⟨max_mem_timestamps hcall.1 ?_, ?_, hlabel⟩
      · rw [tsOf_of_heap hnode]
        exact tsOf_mem_timestamps hg hnode _
      · rcases hend with ⟨-, rfl⟩ | ⟨w, p, sent, -, -, -, hsent, rfl⟩
        · refine min_mem_timestamps hcall.2.1 ?_
          rw [tsOf_of_heap hto]
          exact tsOf_mem_timestamps hg hto _
        · exact tsOf_mem_timestamps hg hsent _

theorem Leads.mem_calls (hg : g.Navigable) {query call next : Call} (h : Leads g call next)
    (hcall : call ∈ calls g query) : next ∈ calls g query := by
  obtain ⟨startTs, endTs, tid⟩ := next
  obtain ⟨source, hmem⟩ := h
  have htid : ∀ {ts}, g.label source = some (ts, tid) → tid ∈ query.tid :: g.tids := by
    intro ts hlabel
    exact List.mem_cons_of_mem _ (hg.owned.keys (hg.owned.mem_nodesOf.mpr ⟨ts, hlabel⟩))
  have htraverse : ∀ {n}, TraverseStep g call.startTs call.endTs n
      (.ok (.recurse source startTs endTs tid)) → ⟨startTs, endTs, tid⟩ ∈ calls g query := by
    intro n hstep
    obtain ⟨hstart, hend, hlabel⟩ := traverseStep_recurse hg hcall hstep
    exact ⟨hstart, hend, htid hlabel⟩
  cases mem_callScript hg hmem with
  | late _ _ _ _ hhit _ hsource =>
      exact ⟨hcall.1, tsOf_mem_timestamps hg hhit _, htid (label_of_heap hsource)⟩
  | traverse _ _ hstep => exact htraverse hstep
  | lateTraverse _ _ _ hstep => exact htraverse hstep

theorem reaches_mem_calls (hg : g.Navigable) {query call : Call} (h : Reaches g query call) :
    call ∈ calls g query := by
  have hpath := reaches_iff.mp h
  clear h
  induction hpath with
  | refl => exact ⟨.inl rfl, .inl rfl, List.mem_cons_self⟩
  | tail _ hleads ih => exact hleads.mem_calls hg ih

/-! ### Calls that end -/

/-- With enough fuel the call never runs out of it. -/
def Halts (g : CriticalGraph) (call : Call) : Prop :=
  ∃ enough, ∀ fuel ≥ enough, ∀ path,
    computeCriticalPathRecursive g fuel call.startTs call.endTs call.tid path ≠
      .error .outOfFuel

/-- Finitely many calls need no more fuel than the one that needs most. -/
theorem halts_all {calls : List Call} (h : ∀ call ∈ calls, Halts g call) :
    ∃ enough, ∀ fuel ≥ enough, ∀ call ∈ calls, ∀ path,
      computeCriticalPathRecursive g fuel call.startTs call.endTs call.tid path ≠
        .error .outOfFuel := by
  induction calls with
  | nil => exact ⟨0, fun _ _ call hmem => absurd hmem List.not_mem_nil⟩
  | cons call calls ih =>
      obtain ⟨first, hfirst⟩ := h call List.mem_cons_self
      obtain ⟨rest, hrest⟩ := ih fun call hmem => h call (List.mem_cons_of_mem _ hmem)
      refine ⟨max first rest, ?_⟩
      intro fuel hfuel call' hmem
      rcases List.mem_cons.mp hmem with rfl | hmem
      · exact hfirst fuel (le_trans (le_max_left ..) hfuel)
      · exact hrest fuel (le_trans (le_max_right ..) hfuel) call' hmem

theorem Halts.of_leads (hg : g.Navigable) {call : Call}
    (h : ∀ next, Leads g call next → Halts g next) : Halts g call := by
  have hcalls : ∀ next ∈ (call.script g).calls, Halts g next := by
    intro next hnext
    obtain ⟨step, hmem, hstep⟩ := List.mem_filterMap.mp hnext
    split at hstep
    · next source startTs endTs tid =>
        obtain rfl := Option.some.inj hstep
        exact h _ ⟨source, hmem⟩
    · cases hstep
  obtain ⟨enough, henough⟩ := halts_all hcalls
  refine ⟨enough + 1, ?_⟩
  intro fuel hfuel path hrun
  obtain ⟨fuel, rfl⟩ : ∃ fuel', fuel = fuel' + 1 := ⟨fuel - 1, by omega⟩
  rw [computeCriticalPathRecursive_succ] at hrun
  rcases Script.run_fault hrun with hmem | ⟨source, startTs, endTs, tid, path, hmem, hrec⟩
  · exact callScript_fault hg call hmem
  · refine henough fuel (by omega) ⟨startTs, endTs, tid⟩ ?_ path hrec
    exact List.mem_filterMap.mpr ⟨_, hmem, rfl⟩

/-- A call from which no call leads back to itself ends. -/
theorem halts_of_acyclic (hg : g.Navigable) {query : Call}
    (hacyclic : ∀ call, Reaches g query call → ¬ TransGen (Leads g) call call) :
    Halts g query := by
  have hfinite : {call | Reaches g query call}.Finite :=
    (finite_calls g query).subset fun _ hcall => reaches_mem_calls hg hcall
  refine Cycles.induction_of_acyclic hfinite ?_ hacyclic ?_ query .self
  · rintro call hcall next ⟨source, hmem⟩
    exact hcall.recurse hmem
  · exact fun call _ ih => .of_leads hg ih

/-- A search ends exactly when none of its calls is made again from within itself. -/
theorem ends_iff_acyclic (hg : g.Navigable) {startTs endTs tid : ℕ} :
    (∃ fuel, computeCriticalPath g fuel startTs endTs tid ≠ .error .outOfFuel) ↔
      ∀ call, Reaches g ⟨startTs, endTs, tid⟩ call → ¬ TransGen (Leads g) call call := by
  constructor
  · rintro ⟨fuel, hfuel⟩ call hreaches hcycle
    have hends : Ends g fuel ⟨startTs, endTs, tid⟩ := ⟨[], hfuel⟩
    obtain ⟨fuel', hcall⟩ := hends.reaches hg hreaches
    exact not_ends_of_cycle hg fuel' hcycle hcall
  · intro hacyclic
    obtain ⟨enough, henough⟩ := halts_of_acyclic hg hacyclic
    exact ⟨enough, henough enough le_rfl []⟩

end TibeeCompare.Critical
