import TibeeCompare.Critical.CallScript
import TibeeCompare.Lib.Intervals

/-!
Induction over the calls of a search, and what a script does to a path.

`Reaches` is the relation between a query and the calls it leads to. A property
of the search is proved by showing, for one reached call, that its script keeps
it when the recursive calls do. Two properties of scripts are carried over to
paths here: filling a window without a gap, and staying inside of it in order.
-/

namespace TibeeCompare.Critical

open Intervals

/-- The arguments of one call of `ComputeCriticalPathRecursive`. -/
structure Call where
  startTs : ℕ
  endTs : ℕ
  tid : ℕ
  deriving DecidableEq, Repr

def Call.script (g : CriticalGraph) (call : Call) : Script :=
  callScript g call.startTs call.endTs call.tid

/-- The calls that a query leads to. -/
inductive Reaches (g : CriticalGraph) (query : Call) : Call → Prop
  | self : Reaches g query query
  | recurse {call : Call} {source : ℕ} {startTs endTs : ℕ} {tid : ℕ} :
      Reaches g query call →
      .ok (.recurse source startTs endTs tid) ∈ call.script g →
      Reaches g query ⟨startTs, endTs, tid⟩

/-- The recursive calls of a script. -/
def Script.calls (script : Script) : List Call :=
  script.filterMap fun
    | .ok (.recurse _ startTs endTs tid) => some ⟨startTs, endTs, tid⟩
    | _ => none

/-- A list of calls that is closed under recursion has all calls of a search. -/
theorem reaches_mem {g : CriticalGraph} {query call : Call} (calls : List Call)
    (hquery : query ∈ calls)
    (hclosed : ∀ call ∈ calls, ∀ next ∈ (call.script g).calls, next ∈ calls)
    (h : Reaches g query call) : call ∈ calls := by
  induction h with
  | self => exact hquery
  | recurse _ hmem ih => exact hclosed _ ih _ (List.mem_filterMap.mpr ⟨_, hmem, rfl⟩)

/-! ### The start of the window never moves back -/

def Action.RecursesFrom (startTs : ℕ) : Action → Prop
  | .recurse _ startTs' _ _ => startTs ≤ startTs'
  | .insert _ | .lateStart .. | .network .. => True

theorem blockedScript_recursesFrom (g : CriticalGraph) (edge : CriticalEdge) (startTs endTs : ℕ) :
    (blockedScript g edge startTs endTs).All (Action.RecursesFrom startTs) := by
  have hsource : ∀ source tid,
      (sourceScript source startTs endTs tid).All (Action.RecursesFrom startTs) := fun _ _ =>
    Script.all_cons trivial (Script.all_cons (le_refl startTs) (Script.all_nil _))
  refine Script.all_reading fun toNode _ => ?_
  split
  · exact Script.all_cons trivial (Script.all_nil _)
  · refine Script.all_reading fun wakeUpEdge _ => Script.all_reading fun endNode _ => ?_
    dsimp only
    split
    · split
      · refine Script.all_reading fun networkEdge _ => Script.all_reading fun startNode _ => ?_
        split
        · refine Script.all_reading fun _ _ => Script.all_reading fun _ _ => ?_
          exact Script.all_cons (le_refl startTs) (Script.all_cons trivial (Script.all_nil _))
        · exact hsource _ _
      · exact hsource _ _
    · exact hsource _ _

theorem Action.RecursesFrom.mono {lo hi : ℕ} (hle : lo ≤ hi) {action : Action}
    (h : action.RecursesFrom hi) : action.RecursesFrom lo := by
  cases action with
  | recurse => exact hle.trans h
  | insert | lateStart | network => trivial

theorem traverseScript_recursesFrom (g : CriticalGraph) (startTs endTs tid rounds : ℕ)
    (n : Option ℕ) :
    (traverseScript g startTs endTs tid rounds n).All (Action.RecursesFrom startTs) := by
  induction rounds generalizing n with
  | zero =>
      cases n with
      | none => exact Script.all_nil _
      | some n =>
          intro action hmem
          cases List.mem_singleton.mp hmem
  | succ rounds ih =>
      cases n with
      | none => exact Script.all_nil _
      | some n =>
          refine Script.all_reading fun node _ => ?_
          split
          · split
            · exact Script.all_nil _
            · refine Script.all_reading fun edge _ => Script.all_reading fun nextNode _ => ?_
              refine Script.all_append.mpr ⟨?_, ih _⟩
              unfold edgeScript
              split
              · intro action hmem
                exact (blockedScript_recursesFrom g edge _ _ action hmem).mono (le_max_left ..)
              · split
                · exact Script.all_cons trivial (Script.all_nil _)
                · exact Script.all_nil _
          · exact Script.all_nil _

theorem callScript_recursesFrom (g : CriticalGraph) (startTs endTs tid : ℕ) :
    (callScript g startTs endTs tid).All (Action.RecursesFrom startTs) := by
  have htraverse := traverseScript_recursesFrom g startTs endTs tid g.rounds
  unfold callScript
  split
  · exact Script.all_nil _
  · refine Script.all_reading fun node _ => ?_
    cases node with
    | some node => exact htraverse _
    | none =>
        refine Script.all_reading fun hit _ => ?_
        cases hit with
        | some hit =>
            refine Script.all_reading fun _ _ => Script.all_reading fun _ _ =>
              Script.all_reading fun _ _ => ?_
            exact Script.all_cons (le_refl startTs) (htraverse _)
        | none => exact Script.all_cons trivial (htraverse _)

theorem Reaches.start_le {g : CriticalGraph} {query call : Call} (h : Reaches g query call) :
    query.startTs ≤ call.startTs := by
  induction h with
  | self => exact le_rfl
  | @recurse call _ _ _ _ _ hmem ih =>
      exact ih.trans (callScript_recursesFrom g call.startTs call.endTs call.tid _ hmem)

/-- The recursive calls of a script keep a relation between the path before and
the path after. -/
def RecursionKeeps (recurse : Recursion) (script : Script)
    (Keeps : Call → CriticalPath → CriticalPath → Prop) : Prop :=
  ∀ source startTs endTs tid, .ok (.recurse source startTs endTs tid) ∈ script →
    ∀ path path', recurse startTs endTs tid path = .ok path' →
      Keeps ⟨startTs, endTs, tid⟩ path path'

theorem RecursionKeeps.tail {recurse : Recursion} {step : Except Fault Action} {script : Script}
    {Keeps : Call → CriticalPath → CriticalPath → Prop}
    (h : RecursionKeeps recurse (step :: script) Keeps) : RecursionKeeps recurse script Keeps :=
  fun source startTs endTs tid hmem => h source startTs endTs tid (List.mem_cons_of_mem _ hmem)

/-- Induction on the depth of the search: what the script of every reached call
keeps, provided its recursive calls do, the search keeps. -/
theorem reaches_induction {g : CriticalGraph} {query : Call}
    (Keeps : Call → CriticalPath → CriticalPath → Prop)
    (hstep : ∀ call, Reaches g query call → ∀ recurse,
      RecursionKeeps recurse (call.script g) Keeps →
      ∀ path path', (call.script g).run recurse path = .ok path' → Keeps call path path')
    (fuel : ℕ) {call : Call} (hcall : Reaches g query call) {path path' : CriticalPath}
    (hrun : computeCriticalPathRecursive g fuel call.startTs call.endTs call.tid path =
      .ok path') : Keeps call path path' := by
  induction fuel generalizing call path path' with
  | zero => cases hrun
  | succ fuel ih =>
      rw [computeCriticalPathRecursive_succ] at hrun
      refine hstep call hcall _ ?_ path path' hrun
      intro source startTs endTs tid hmem path path' hrec
      exact ih (hcall.recurse hmem) hrec

/-- A script whose own steps have no fault ends with a path, or with the fault of
one of its recursive calls. -/
theorem Script.run_fault {recurse : Recursion} {script : Script} {path : CriticalPath}
    {fault : Fault} (hrun : script.run recurse path = .error fault) :
    .error fault ∈ script ∨ ∃ source startTs endTs tid path,
      .ok (.recurse source startTs endTs tid) ∈ script ∧
        recurse startTs endTs tid path = .error fault := by
  induction script generalizing path with
  | nil => cases hrun
  | cons step script ih =>
      cases step with
      | error fault' =>
          cases hrun
          exact .inl List.mem_cons_self
      | ok action =>
          rw [Script.run_ok_cons] at hrun
          cases haction : action.perform recurse path with
          | error fault' =>
              rw [haction] at hrun
              cases hrun
              cases action with
              | recurse source startTs endTs tid =>
                  exact .inr ⟨source, startTs, endTs, tid, path, List.mem_cons_self, haction⟩
              | insert | lateStart | network => cases haction
          | ok middle =>
              rw [haction] at hrun
              rcases ih hrun with h | ⟨source, startTs, endTs, tid, path, hmem, hrec⟩
              · exact .inl (List.mem_cons_of_mem _ h)
              · exact .inr ⟨source, startTs, endTs, tid, path, List.mem_cons_of_mem _ hmem, hrec⟩

/-- When no reached script has a fault of its own, the search can only run out of
fuel. -/
theorem reaches_fault {g : CriticalGraph} (query : Call)
    (hclean : ∀ call, Reaches g query call → ∀ fault, .error fault ∈ call.script g →
      fault = .outOfFuel)
    (fuel : ℕ) {call : Call} (hcall : Reaches g query call) {path : CriticalPath}
    {fault : Fault}
    (hrun : computeCriticalPathRecursive g fuel call.startTs call.endTs call.tid path =
      .error fault) : fault = .outOfFuel := by
  induction fuel generalizing call path with
  | zero => cases hrun; rfl
  | succ fuel ih =>
      rw [computeCriticalPathRecursive_succ] at hrun
      rcases Script.run_fault hrun with h | ⟨source, startTs, endTs, tid, path, hmem, hrec⟩
      · exact hclean call hcall fault h
      · exact ih (hcall.recurse hmem) hrec

/-! ### Inserting a segment -/

abbrev PathOrdered (lo : ℕ) (path : CriticalPath) (hi : ℕ) : Prop :=
  Ordered CriticalPathSegment.startTs CriticalPathSegment.endTs lo path hi

abbrev PathTiles (lo : ℕ) (path : CriticalPath) (hi : ℕ) : Prop :=
  Tiles CriticalPathSegment.startTs CriticalPathSegment.endTs lo path hi

/-- Inserting either appends the segment or extends the last one to its end. -/
theorem insertCriticalPathSegment_cases (segment : CriticalPathSegment) (path : CriticalPath) :
    insertCriticalPathSegment segment path = path ++ [segment] ∨
      ∃ init back, path = init ++ [back] ∧
        insertCriticalPathSegment segment path =
          init ++ [{ back with endTs := segment.endTs }] := by
  unfold insertCriticalPathSegment
  cases hback : path.getLast? with
  | none => exact .inl rfl
  | some back =>
      have hpath : path = path.dropLast ++ [back] :=
        (List.dropLast_append_getLast? back hback).symm
      simp only
      split
      · exact .inr ⟨path.dropLast, back, hpath, rfl⟩
      · exact .inl rfl

theorem pathOrdered_insert {lo hi : ℕ} {path : CriticalPath}
    {segment : CriticalPathSegment} (hpath : PathOrdered lo path hi)
    (hhi : hi ≤ segment.startTs) (hsegment : segment.startTs ≤ segment.endTs) :
    PathOrdered lo (insertCriticalPathSegment segment path) segment.endTs := by
  rcases insertCriticalPathSegment_cases segment path with h | ⟨init, back, rfl, h⟩ <;> rw [h]
  · exact ordered_append.mpr ⟨hi, hpath, hhi, hsegment, le_refl _⟩
  · obtain ⟨mid, hinit, hmid, hback, hlast⟩ := ordered_append.mp hpath
    exact ordered_append.mpr ⟨mid, hinit, hmid,
      hback.trans (le_trans hlast (hhi.trans hsegment)), le_refl _⟩

theorem pathTiles_insert {lo : ℕ} {path : CriticalPath}
    {segment : CriticalPathSegment} (hpath : PathTiles lo path segment.startTs)
    (hsegment : segment.startTs ≤ segment.endTs) :
    PathTiles lo (insertCriticalPathSegment segment path) segment.endTs := by
  rcases insertCriticalPathSegment_cases segment path with h | ⟨init, back, rfl, h⟩ <;> rw [h]
  · exact tiles_append.mpr ⟨segment.startTs, hpath, rfl, hsegment, rfl⟩
  · obtain ⟨mid, hinit, hmid, hback, hlast⟩ := tiles_append.mp hpath
    have hend : back.endTs = segment.startTs := hlast
    exact tiles_append.mpr ⟨mid, hinit, hmid, (hend ▸ hback).trans hsegment, rfl⟩

/-! ### Scripts that fill a window, and scripts that stay in one -/

/-- The window of a step: that of the segment it inserts or of the call it makes. -/
def Action.window : Action → ℕ × ℕ
  | .insert segment => (segment.startTs, segment.endTs)
  | .lateStart _ segment _ => (segment.startTs, segment.endTs)
  | .network _ _ segment _ _ => (segment.startTs, segment.endTs)
  | .recurse _ startTs endTs _ => (startTs, endTs)

/-- The windows of the steps fill the span from `lo` to `hi`, and no step is a fault. -/
def Script.Tiles : ℕ → Script → ℕ → Prop
  | lo, [], hi => lo = hi
  | lo, .ok action :: script, hi =>
      action.window.1 = lo ∧ lo ≤ action.window.2 ∧ Script.Tiles action.window.2 script hi
  | _, .error _ :: _, _ => False

/-- The windows of the steps lie between `lo` and `hi`, one after the other. -/
def Script.Ordered : ℕ → Script → ℕ → Prop
  | lo, [], hi => lo ≤ hi
  | lo, .ok action :: script, hi =>
      lo ≤ action.window.1 ∧ action.window.1 ≤ action.window.2 ∧
        Script.Ordered action.window.2 script hi
  | _, .error _ :: _, _ => True

theorem Script.Tiles.append {lo mid hi : ℕ} {first second : Script}
    (hfirst : first.Tiles lo mid) (hsecond : second.Tiles mid hi) :
    Script.Tiles lo (first ++ second) hi := by
  induction first generalizing lo with
  | nil => exact (show lo = mid from hfirst) ▸ hsecond
  | cons step first ih =>
      cases step with
      | error fault => exact hfirst.elim
      | ok action => exact ⟨hfirst.1, hfirst.2.1, ih hfirst.2.2⟩

theorem Script.Tiles.clean {lo hi : ℕ} {script : Script} (h : script.Tiles lo hi)
    (fault : Fault) : .error fault ∉ script := by
  induction script generalizing lo with
  | nil => exact List.not_mem_nil
  | cons step script ih =>
      cases step with
      | error fault => exact h.elim
      | ok action =>
          intro hmem
          rcases List.mem_cons.mp hmem with hmem | hmem
          · cases hmem
          · exact ih h.2.2 hmem

theorem Script.Ordered.weaken {lo lo' hi : ℕ} {script : Script}
    (h : script.Ordered lo hi) (hlo : lo' ≤ lo) : script.Ordered lo' hi := by
  cases script with
  | nil => exact le_trans hlo h
  | cons step script =>
      cases step with
      | error fault => trivial
      | ok action => exact ⟨hlo.trans h.1, h.2⟩

theorem Script.Ordered.append {lo mid hi : ℕ} {first second : Script}
    (hfirst : first.Ordered lo mid) (hsecond : second.Ordered mid hi) :
    Script.Ordered lo (first ++ second) hi := by
  induction first generalizing lo with
  | nil => exact hsecond.weaken hfirst
  | cons step first ih =>
      cases step with
      | error fault => trivial
      | ok action => exact ⟨hfirst.1, hfirst.2.1, ih hfirst.2.2⟩

/-- A call that extends a tiling up to its start into one up to its end. -/
def ExtendsTiling (call : Call) (path path' : CriticalPath) : Prop :=
  ∀ lo, call.startTs ≤ call.endTs → PathTiles lo path call.startTs → PathTiles lo path' call.endTs

/-- A call that keeps the path in order, up to its end. -/
def ExtendsOrder (call : Call) (path path' : CriticalPath) : Prop :=
  ∀ lo, call.startTs ≤ call.endTs → PathOrdered lo path call.startTs →
    PathOrdered lo path' call.endTs

theorem Action.perform_ok_cases {recurse : Recursion} {action : Action}
    {path path' : CriticalPath} (h : action.perform recurse path = .ok path') :
    (∃ segment, action.window = (segment.startTs, segment.endTs) ∧
        path' = insertCriticalPathSegment segment path) ∨
      ∃ source startTs endTs tid, action = .recurse source startTs endTs tid ∧
        recurse startTs endTs tid path = .ok path' := by
  cases action with
  | insert segment => exact .inl ⟨segment, rfl, by cases h; rfl⟩
  | lateStart _ segment => exact .inl ⟨segment, rfl, by cases h; rfl⟩
  | network _ _ segment => exact .inl ⟨segment, rfl, by cases h; rfl⟩
  | recurse source startTs endTs tid => exact .inr ⟨source, startTs, endTs, tid, rfl, h⟩

theorem Script.run_extendsTiling {recurse : Recursion} {script : Script}
    (hrec : RecursionKeeps recurse script ExtendsTiling) {lo mid hi : ℕ}
    (hscript : script.Tiles mid hi) {path path' : CriticalPath}
    (hpath : PathTiles lo path mid) (hrun : script.run recurse path = .ok path') :
    PathTiles lo path' hi := by
  induction script generalizing mid path with
  | nil =>
      cases hrun
      exact (show mid = hi from hscript) ▸ hpath
  | cons step script ih =>
      cases step with
      | error fault => cases hrun
      | ok action =>
          obtain ⟨hstart, hwindow, htail⟩ := hscript
          obtain ⟨middle, haction, hrest⟩ := Script.run_ok_cons_eq_ok hrun
          refine ih hrec.tail htail ?_ hrest
          subst hstart
          rcases Action.perform_ok_cases haction with
            ⟨segment, hseg, rfl⟩ | ⟨source, startTs, endTs, tid, rfl, hcall⟩
          · rw [hseg] at hpath hwindow ⊢
            exact pathTiles_insert hpath hwindow
          · exact hrec source startTs endTs tid List.mem_cons_self path middle hcall lo hwindow
              hpath

theorem Script.run_extendsOrder {recurse : Recursion} {script : Script}
    (hrec : RecursionKeeps recurse script ExtendsOrder) {lo mid hi : ℕ}
    (hscript : script.Ordered mid hi) {path path' : CriticalPath}
    (hpath : PathOrdered lo path mid) (hrun : script.run recurse path = .ok path') :
    PathOrdered lo path' hi := by
  induction script generalizing mid path with
  | nil =>
      cases hrun
      exact hpath.mono hscript
  | cons step script ih =>
      cases step with
      | error fault => cases hrun
      | ok action =>
          obtain ⟨hstart, hwindow, htail⟩ := hscript
          obtain ⟨middle, haction, hrest⟩ := Script.run_ok_cons_eq_ok hrun
          refine ih hrec.tail htail ?_ hrest
          rcases Action.perform_ok_cases haction with
            ⟨segment, hseg, rfl⟩ | ⟨source, startTs, endTs, tid, rfl, hcall⟩
          · rw [hseg] at hstart hwindow ⊢
            exact pathOrdered_insert hpath hstart hwindow
          · exact hrec source startTs endTs tid List.mem_cons_self path middle hcall lo hwindow
              (hpath.mono hstart)

end TibeeCompare.Critical
