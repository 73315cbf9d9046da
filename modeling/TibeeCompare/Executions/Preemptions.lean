import TibeeCompare.Critical.PathBounds
import TibeeCompare.Critical.Recursion
import TibeeCompare.Executions.ExtractStacks
import TibeeCompare.Lib.Cycles

/-!
The recursion of `ExtractStacks` through `PreemptedCallback`.

For a segment that waits for a processor, the history tells which threads were on it, and the
critical path of each of them over its interval is extracted in turn. Which calls are made does
not depend on the stacks, on the disk or on the database. The windows of the calls have their
bounds below the latest node and the end of the first path, so that there are only finitely many
calls, and a recursion that never comes back to a call has an end.
-/

namespace TibeeCompare.Executions

open Critical Db Relation State

/-! ### Calls -/

namespace Sources

variable (sources : Sources)

/-- The paths that `PreemptedCallback` asks for, for a segment that waits for a processor. -/
def preempting (segment : CriticalPathSegment) : List Call :=
  if segment.type = .waitCpu then
    match sources.stateHistory.getUIntegerValue
        (sources.currentState.currentCpuKey segment.tid) segment.startTs with
    | some lastCpu =>
        ((sources.stateHistory.enumerateUIntegerValues
          (sources.currentState.currentThreadKey lastCpu) segment.startTs segment.endTs).filter
            fun value => ¬(value.1 = -1 ∨ value.1 = 0)).map
          fun value => ⟨value.2.1, value.2.2, value.1.toNat⟩
    | none => []
  else []

/-- The critical path of the first call has a segment that leads to the second one: over this
window, the thread was preempted by the other one, or it waited for a thread that was. -/
def Preempts (call next : Call) : Prop :=
  ∃ path, PathOf sources.graph call path ∧ ∃ segment ∈ path, next ∈ sources.preempting segment

/-- The calls that the extraction of a path leads to. -/
def LeadsTo (path : CriticalPath) (call : Call) : Prop :=
  ∃ segment ∈ path, ∃ first ∈ sources.preempting segment, ReflTransGen sources.Preempts first call

/-- The recursion, with something else in place of the calls at the given depth. -/
def extractOver (fuel : ℕ) (below : Recursion) : ℕ → Recursion
  | 0 => below
  | depth + 1 => fun criticalPath baseStackId => do
      let _ ← sources.extractPath fuel (extractOver fuel below depth) baseStackId criticalPath []

theorem extractRecursive_eq (fuel depth : ℕ) :
    sources.extractRecursive fuel depth =
      sources.extractOver fuel (fun _ _ => throw .outOfFuel) depth := by
  induction depth with
  | zero => rfl
  | succ depth ih =>
      funext path baseStackId
      rw [extractRecursive, ih]
      rfl

/-- The recursion has an end: there is a depth at which no call is made, so that it makes no
difference what such a call would do. -/
def RecursionEnds (path : CriticalPath) (s : Extractor) : Prop :=
  ∃ depth enough, ∀ fuel ≥ enough, ∀ below,
    (sources.extractPath fuel (sources.extractOver fuel below depth) kEmptyStackId path []).runOn
      s = (sources.extractStacks fuel depth path).runOn s

variable {sources}

theorem extractOver_add (fuel : ℕ) (below : Recursion) (depth more : ℕ) :
    sources.extractOver fuel below (depth + more) =
      sources.extractOver fuel (sources.extractOver fuel below more) depth := by
  induction depth with
  | zero => rw [Nat.zero_add, extractOver]
  | succ depth ih =>
      funext path baseStackId
      rw [Nat.succ_add, extractOver, ih]
      rfl

/-- From the depth on at which the recursion ends, more of it changes nothing. -/
theorem RecursionEnds.extractStacks_eq {path : CriticalPath} {s : Extractor}
    (h : sources.RecursionEnds path s) : ∃ depth enough, ∀ fuel ≥ enough, ∀ more ≥ depth,
      (sources.extractStacks fuel more path).runOn s =
        (sources.extractStacks fuel depth path).runOn s := by
  obtain ⟨depth, enough, hends⟩ := h
  refine ⟨depth, enough, ?_⟩
  intro fuel hfuel more hmore
  obtain ⟨rest, rfl⟩ := Nat.exists_eq_add_of_le hmore
  rw [← hends fuel hfuel (sources.extractOver fuel (fun _ _ => throw .outOfFuel) rest),
    ← extractOver_add, extractStacks, extractRecursive_eq]

/-! ### Finitely many calls -/

theorem mem_intervalsFrom_window {V : Type} {start end_ : ℕ} {entries : List (Entry V)}
    {value : V × ℕ × ℕ} (h : value ∈ intervalsFrom start end_ entries) :
    start ≤ value.2.1 ∧ value.2.1 ≤ max start end_ ∧ value.2.2 ≤ end_ := by
  induction entries with
  | nil => cases h
  | cons e rest ih =>
      rw [intervalsFrom] at h
      split at h
      · cases h
      · next hts =>
          rcases List.mem_cons.mp h with rfl | h
          · refine ⟨le_max_right .., max_le (by omega) (le_max_left ..), ?_⟩
            dsimp only
            split
            · exact le_rfl
            · exact Nat.min_le_right _ _
          · exact ih h

theorem preempting_window {segment : CriticalPathSegment} {call : Call}
    (hcall : call ∈ sources.preempting segment) :
    segment.startTs ≤ call.startTs ∧ call.startTs ≤ max segment.startTs segment.endTs ∧
      call.endTs ≤ segment.endTs ∧ call.tid < 2 ^ 32 := by
  unfold preempting at hcall
  split at hcall
  · split at hcall
    · obtain ⟨value, hvalue, rfl⟩ := List.mem_map.mp hcall
      obtain ⟨hstart, hmax, hend⟩ := mem_intervalsFrom_window (List.mem_of_mem_filter hvalue)
      exact ⟨hstart, hmax, hend, value.1.toNat_lt⟩
    · cases hcall
  · cases hcall

theorem preempting_le {segment : CriticalPathSegment} {bound : ℕ} (h : segment.EndsBy bound)
    {call : Call} (hcall : call ∈ sources.preempting segment) :
    call.startTs ≤ bound ∧ call.endTs ≤ bound ∧ call.tid < 2 ^ 32 := by
  obtain ⟨-, hmax, hend, htid⟩ := preempting_window hcall
  exact ⟨hmax.trans (max_le h.1 h.2), hend.trans h.2, htid⟩

theorem finite_leadsTo (ho : sources.graph.Owned) (path : CriticalPath) :
    {call | sources.LeadsTo path call}.Finite := by
  obtain ⟨graphBound, hgraph⟩ := exists_bound ho
  obtain ⟨pathBound, hpath⟩ := Cycles.exists_enough (List.finite_toSet path)
    (P := fun bound segment => CriticalPathSegment.EndsBy segment bound)
    (fun _ _ _ hle h => ⟨h.1.trans hle, h.2.trans hle⟩)
    (fun segment _ => ⟨max segment.startTs segment.endTs, le_max_left .., le_max_right ..⟩)
  let bound := max graphBound pathBound
  have hcalls := finite_callsOver (Set.finite_Iic bound) (Set.finite_Iic bound)
    (Set.finite_Iio (2 ^ 32))
  refine hcalls.subset ?_
  rintro call ⟨segment, hsegment, first, hfirst, hleads⟩
  have hends : segment.EndsBy bound :=
    ⟨(hpath segment hsegment).1.trans (le_max_right ..),
      (hpath segment hsegment).2.trans (le_max_right ..)⟩
  induction hleads with
  | refl => exact preempting_le hends hfirst
  | tail _ hnext ih =>
      obtain ⟨path', hpath', segment', hsegment', hcall⟩ := hnext
      have hgraph' := fun n => (hgraph n).trans (le_max_left graphBound pathBound)
      exact preempting_le (hpath'.endsBy hgraph' ih.1 ih.2.1 segment' hsegment') hcall

/-! ### Calls over one window -/

/-- Over the whole window, the thread waits for a processor, or for a thread that does, and the
history shows the other thread there. -/
def StandsFor (sources : Sources) (startTs endTs tid other : ℕ) : Prop :=
  ∃ path, PathOf sources.graph ⟨startTs, endTs, tid⟩ path ∧ ∃ type segmentTid,
    ⟨startTs, endTs, segmentTid, type⟩ ∈ path ∧
      ⟨startTs, endTs, other⟩ ∈ sources.preempting ⟨startTs, endTs, segmentTid, type⟩

theorem Preempts.standsFor
    (hinside : ∀ call path, PathOf sources.graph call path → ∀ segment ∈ path,
      call.startTs ≤ segment.startTs ∧ segment.endTs ≤ call.endTs) {call next : Call}
    (h : sources.Preempts call next) (hstart : call.startTs = next.startTs)
    (hend : call.endTs = next.endTs) :
    sources.StandsFor call.startTs call.endTs call.tid next.tid := by
  obtain ⟨path, hpath, ⟨startTs, endTs, segmentTid, type⟩, hsegment, hcall⟩ := h
  obtain ⟨hfrom, hto⟩ := hinside call path hpath _ hsegment
  obtain ⟨hfrom', -, hto', -⟩ := preempting_window hcall
  obtain rfl : startTs = call.startTs := le_antisymm (hfrom'.trans hstart.ge) hfrom
  obtain rfl : endTs = call.endTs := le_antisymm hto (hend.le.trans hto')
  refine ⟨path, hpath, type, segmentTid, hsegment, ?_⟩
  rw [hstart, hend] at hcall ⊢
  exact hcall

/-- Where no path leaves the window of its call, a call comes back to itself over one window. -/
theorem standsFor_of_cycle
    (hinside : ∀ call path, PathOf sources.graph call path → ∀ segment ∈ path,
      call.startTs ≤ segment.startTs ∧ segment.endTs ≤ call.endTs) {call : Call}
    (hcycle : TransGen sources.Preempts call call) :
    TransGen (sources.StandsFor call.startTs call.endTs) call.tid call.tid := by
  have hstart : TransGen (fun x y => sources.Preempts x y ∧ x.startTs = y.startTs) call call := by
    refine Cycles.constant (f := fun call : Call => OrderDual.toDual call.startTs) ?_ hcycle le_rfl
    rintro x y ⟨path, hpath, segment, hsegment, hcall⟩
    exact (hinside x path hpath segment hsegment).1.trans (preempting_window hcall).1
  have hwindow : TransGen (fun x y => (sources.Preempts x y ∧ x.startTs = y.startTs) ∧
      x.endTs = y.endTs) call call := by
    refine Cycles.constant (f := fun call : Call => call.endTs) ?_ hstart le_rfl
    rintro x y ⟨⟨path, hpath, segment, hsegment, hcall⟩, -⟩
    exact (preempting_window hcall).2.2.1.trans (hinside x path hpath segment hsegment).2
  have hall : ∀ {last}, TransGen (fun x y => (sources.Preempts x y ∧ x.startTs = y.startTs) ∧
      x.endTs = y.endTs) call last → last.startTs = call.startTs ∧ last.endTs = call.endTs ∧
        TransGen (sources.StandsFor call.startTs call.endTs) call.tid last.tid := by
    intro last hpath
    induction hpath with
    | single hstep =>
        obtain ⟨⟨hnext, hs⟩, he⟩ := hstep
        exact ⟨hs.symm, he.symm, .single (hnext.standsFor hinside hs he)⟩
    | tail _ hstep ih =>
        obtain ⟨⟨hnext, hs⟩, he⟩ := hstep
        obtain ⟨hs', he', hpath⟩ := ih
        have hstands := hnext.standsFor hinside hs he
        rw [hs', he'] at hstands
        exact ⟨hs.symm.trans hs', he.symm.trans he', hpath.tail hstands⟩
  exact (hall hwindow).2.2

/-! ### What the extraction depends on -/

section congruence

variable {fuel : ℕ} {first second : Recursion}

theorem preemptedCallback_congr (baseStackId : StackId) (value : UInt32 × ℕ × ℕ)
    (h : ¬(value.1 = -1 ∨ value.1 = 0) → ∀ path,
      computeCriticalPath sources.graph fuel value.2.1 value.2.2 value.1.toNat = .ok path →
      first path = second path) :
    sources.preemptedCallback fuel first baseStackId value.1 value.2.1 value.2.2 =
      sources.preemptedCallback fuel second baseStackId value.1 value.2.1 value.2.2 := by
  unfold preemptedCallback
  split
  · rfl
  · next hknown =>
      split
      · rfl
      · next path hpath => rw [h hknown path hpath]

theorem foldlM_congr {α β : Type} {f g : β → α → ExtractM β} {l : List α}
    (h : ∀ a ∈ l, ∀ b, f b a = g b a) (b : β) : l.foldlM f b = l.foldlM g b := by
  induction l generalizing b with
  | nil => rfl
  | cons a l ih =>
      rw [List.foldlM_cons, List.foldlM_cons, h a List.mem_cons_self]
      exact bind_congr fun b => ih (fun a ha => h a (List.mem_cons_of_mem _ ha)) b

theorem extractWaitCpu_congr {segment : CriticalPathSegment} (htype : segment.type = .waitCpu)
    (h : ∀ call ∈ sources.preempting segment, ∀ path,
      computeCriticalPath sources.graph fuel call.startTs call.endTs call.tid = .ok path →
      first path = second path) (back : ThreadInfo) :
    sources.extractWaitCpu fuel first segment back =
      sources.extractWaitCpu fuel second segment back := by
  unfold extractWaitCpu
  refine bind_congr fun stackId => ?_
  rw [preempting, if_pos htype] at h
  dsimp only
  split
  · next lastCpu hlastCpu =>
      rw [hlastCpu] at h
      refine congrArg₂ Bind.bind (foldlM_congr (fun value hvalue total => ?_) 0) rfl
      rw [preemptedCallback_congr stackId value]
      intro hknown path hpath
      refine h _ (List.mem_map_of_mem (List.mem_filter.mpr ⟨hvalue, ?_⟩)) path hpath
      exact decide_eq_true hknown
  · rfl

/-- The extraction of a path depends on the recursion only through the paths of the calls that
its segments lead to. -/
theorem extractPath_congr {path : CriticalPath}
    (h : ∀ segment ∈ path, ∀ call ∈ sources.preempting segment, ∀ path',
      computeCriticalPath sources.graph fuel call.startTs call.endTs call.tid = .ok path' →
      first path' = second path') (baseStackId : StackId) (threads : List ThreadInfo) :
    sources.extractPath fuel first baseStackId path threads =
      sources.extractPath fuel second baseStackId path threads := by
  induction path generalizing threads with
  | nil => rfl
  | cons segment path ih =>
      obtain ⟨hsegment, hpath⟩ := List.forall_mem_cons.mp h
      have hcall : ∀ back, sources.extractSegment fuel first segment back =
          sources.extractSegment fuel second segment back := by
        intro back
        unfold extractSegment
        cases htype : segment.type with
        | waitCpu => rw [extractWaitCpu_congr htype hsegment]
        | _ => rfl
      rw [extractPath, extractPath]
      refine bind_congr fun current => ?_
      dsimp only
      split
      · exact ih hpath _
      · rw [hcall]
        refine bind_congr fun done => ?_
        cases done with
        | none => rfl
        | some back => exact bind_congr fun stack => ih hpath _

end congruence

/-! ### Calls that end -/

/-- At the given depth below the path of the call, no call is made. -/
def Settled (sources : Sources) (depth : ℕ) (call : Call) : Prop :=
  ∀ fuel path, computeCriticalPath sources.graph fuel call.startTs call.endTs call.tid = .ok path →
    ∀ below below',
      sources.extractOver fuel below depth path = sources.extractOver fuel below' depth path

theorem Settled.mono {depth depth' : ℕ} {call : Call} (h : sources.Settled depth call)
    (hle : depth ≤ depth') : sources.Settled depth' call := by
  obtain ⟨more, rfl⟩ := Nat.exists_eq_add_of_le hle
  intro fuel path hpath below below'
  rw [extractOver_add, extractOver_add]
  exact h fuel path hpath _ _

theorem Settled.succ {depth : ℕ} {call : Call}
    (h : ∀ next, sources.Preempts call next → sources.Settled depth next) :
    sources.Settled (depth + 1) call := by
  intro fuel path hpath below below'
  funext baseStackId
  rw [extractOver, extractOver]
  refine congrArg₂ Bind.bind (extractPath_congr ?_ baseStackId []) rfl
  intro segment hsegment next hnext path' hpath'
  exact h next ⟨path, ⟨fuel, hpath⟩, segment, hsegment, hnext⟩ fuel path' hpath' below below'

theorem LeadsTo.tail {path : CriticalPath} {call next : Call} (h : sources.LeadsTo path call)
    (hnext : sources.Preempts call next) : sources.LeadsTo path next := by
  obtain ⟨segment, hsegment, first, hfirst, hleads⟩ := h
  exact ⟨segment, hsegment, first, hfirst, hleads.tail hnext⟩

theorem exists_settled (ho : sources.graph.Owned) {path : CriticalPath}
    (hacyclic : ∀ call, sources.LeadsTo path call → ¬ TransGen sources.Preempts call call) :
    ∃ depth, ∀ call ∈ {call | sources.LeadsTo path call}, sources.Settled depth call := by
  have hfinite := finite_leadsTo ho path
  refine Cycles.exists_enough hfinite (fun _ _ _ hle h => h.mono hle) ?_
  refine Cycles.induction_of_acyclic hfinite (fun _ hcall _ => hcall.tail) hacyclic ?_
  intro call hcall ih
  have hnexts : {next | sources.Preempts call next}.Finite :=
    hfinite.subset fun _ hnext => LeadsTo.tail hcall hnext
  obtain ⟨depth, hdepth⟩ := Cycles.exists_enough hnexts (fun _ _ _ hle h => h.mono hle) ih
  exact ⟨depth + 1, .succ hdepth⟩

/-- If the calls for a path never come back to one of them, the recursion has an end, whatever
the stacks, the disk requests and the database are. -/
theorem recursionEnds_of_acyclic (ho : sources.graph.Owned) {path : CriticalPath}
    (hacyclic : ∀ call, sources.LeadsTo path call → ¬ TransGen sources.Preempts call call)
    (s : Extractor) : sources.RecursionEnds path s := by
  obtain ⟨depth, hdepth⟩ := exists_settled ho hacyclic
  refine ⟨depth, 0, ?_⟩
  intro fuel _ below
  rw [extractStacks, extractRecursive_eq, extractPath_congr]
  intro segment hsegment call hcall path' hpath'
  exact hdepth call ⟨segment, hsegment, call, hcall, .refl⟩ fuel path' hpath' _ _

end Sources

end TibeeCompare.Executions
