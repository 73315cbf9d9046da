import TibeeCompare.CriticalBlocks.Traces
import TibeeCompare.Db.Interned
import TibeeCompare.Executions.Accounting
import TibeeCompare.Executions.Preemptions

/-!
Extractions without an end.

Without stacks and disk requests, nothing but the recursion can stop the extraction of a path, so
that it comes to all calls that the path leads to. If one of these comes back to itself, calls
are made at every depth.
-/

namespace TibeeCompare.Executions

open Critical Critical.CriticalGraph CriticalBlocks Db Relation State

/-- The code throws nothing but `e`, and throws it `surely`; a result has `post`. -/
def ThrowsOnly {α : Type} (e : ExtractFault) (surely : Prop) (x : ExtractM α) (post : α → Prop) :
    Prop :=
  ∀ s, (∃ s', x.runOn s = (.error e, s')) ∨
    ¬ surely ∧ ∃ a s', x.runOn s = (.ok a, s') ∧ post a

section rules

variable {α β : Type} {e : ExtractFault} {surely surely' : Prop} {post : α → Prop}

namespace ThrowsOnly

theorem pure {a : α} (h : post a) : ThrowsOnly e False (Pure.pure a) post :=
  fun s => .inr ⟨not_false, a, s, rfl, h⟩

theorem throw (surely : Prop) (post : α → Prop) :
    ThrowsOnly e surely (MonadExcept.throw e : ExtractM α) post :=
  fun s => .inl ⟨s, rfl⟩

theorem mono {x : ExtractM α} (h : ThrowsOnly e surely x post) (hle : surely' → surely) :
    ThrowsOnly e surely' x post :=
  fun s => (h s).imp_right fun hreturns => ⟨hreturns.1 ∘ hle, hreturns.2⟩

theorem bind {x : ExtractM α} {next : α → ExtractM β} {post' : β → Prop}
    (h : ThrowsOnly e surely x post) (hnext : ∀ a, post a → ThrowsOnly e surely' (next a) post') :
    ThrowsOnly e (surely ∨ surely') (x >>= next) post' := by
  intro s
  rcases h s with ⟨s', hrun⟩ | ⟨hnot, a, s', hrun, ha⟩
  · exact .inl ⟨s', ExtractM.runOn_bind_error hrun⟩
  · rw [ExtractM.runOn_bind_ok hrun]
    exact (hnext a ha s').imp_right fun hreturns => ⟨not_or.mpr ⟨hnot, hreturns.1⟩, hreturns.2⟩

/-- First a step that throws nothing. -/
theorem seq {x : ExtractM α} {next : α → ExtractM β} {post' : β → Prop}
    (h : ThrowsOnly e False x post) (hnext : ∀ a, post a → ThrowsOnly e surely (next a) post') :
    ThrowsOnly e surely (x >>= next) post' := (h.bind hnext).mono .inr

/-- Last a step that throws nothing. -/
theorem andThen {x : ExtractM α} {next : α → ExtractM β} {post' : β → Prop}
    (h : ThrowsOnly e surely x post) (hnext : ∀ a, post a → ThrowsOnly e False (next a) post') :
    ThrowsOnly e surely (x >>= next) post' := (h.bind hnext).mono .inl

theorem foldlM (each : α → Prop) {f : β → α → ExtractM β} {l : List α}
    (h : ∀ a ∈ l, ∀ b, ThrowsOnly e (each a) (f b a) fun _ => True) (b : β) :
    ThrowsOnly e (∃ a ∈ l, each a) (l.foldlM f b) fun _ => True := by
  induction l generalizing b with
  | nil => exact (ThrowsOnly.pure trivial).mono (by simp)
  | cons a l ih =>
      obtain ⟨ha, hl⟩ := List.forall_mem_cons.mp h
      rw [List.foldlM_cons]
      exact ((ha b).bind fun b _ => ih hl b).mono (List.exists_mem_cons_iff each a l).mp

end ThrowsOnly

theorem throwsOnly_liftDb {x : DbM α} (h : Db.Returns x) :
    ThrowsOnly e False (liftDb x) fun _ => True := by
  intro s
  obtain ⟨a, db, hrun⟩ := h s.db
  exact .inr ⟨not_false, a, _, ExtractM.runOn_liftDb hrun, trivial⟩

theorem throwsOnly_pushOnStack (bottom : StackId) (function : Bytes) :
    ThrowsOnly e False (pushOnStack bottom function) fun _ => True :=
  throwsOnly_liftDb ((addFunctionName_returns function).bind fun _ => addStack_returns _)

theorem throwsOnly_incrementSample (stackId : StackId) (value : ℕ) :
    ThrowsOnly e False (incrementSample stackId value) fun _ => True :=
  fun _ => .inr ⟨not_false, (), _, rfl, trivial⟩

theorem throwsOnly_pushAndIncrement (bottom : StackId) (function : Bytes) (value : ℕ) :
    ThrowsOnly e False (do
      let stackId ← pushOnStack bottom function
      incrementSample stackId value) fun _ => True :=
  (throwsOnly_pushOnStack bottom function).seq fun _ _ => throwsOnly_incrementSample _ _

end rules

namespace Sources

/-- No stacks and no disk requests. -/
def bare (sources : Sources) : Sources := { sources with stacksBuilder := {}, diskRequests := {} }

variable {sources : Sources} {e : ExtractFault}

/-! ### Segments -/

section segments

theorem concatenateStacks_bare (bottom : StackId) (tid ts : ℕ) :
    concatenateStacks bottom (sources.bare.stacksBuilder.getStack tid ts) = pure bottom := by
  have hempty : sources.bare.stacksBuilder.getStack tid ts = kEmptyStackId := rfl
  rw [hempty, concatenateStacks, if_pos rfl]

theorem throwsOnly_ensureCurrentThread (segment : CriticalPathSegment) (baseStackId : StackId)
    (threads : List ThreadInfo) :
    ThrowsOnly e False (sources.bare.ensureCurrentThread segment baseStackId threads)
      fun _ => True := by
  have hstack : ∀ (below : List ThreadInfo) (back : ThreadInfo), ThrowsOnly e False (do
      let stack ← concatenateStacks back.cleanStack
        (sources.bare.stacksBuilder.getStack segment.tid segment.endTs)
      Pure.pure (below, { back with stack })) fun _ => True := by
    intro below back
    rw [concatenateStacks_bare]
    exact .pure trivial
  rw [ensureCurrentThread]
  cases threads.find? (·.tid = segment.tid) with
  | some thread => exact hstack _ thread
  | none => exact (throwsOnly_pushOnStack _ _).seq fun cleanStack _ => hstack _ _

theorem throwsOnly_updateStack (segment : CriticalPathSegment) (back : ThreadInfo) :
    ThrowsOnly e False (sources.bare.updateStack segment back) fun _ => True := by
  unfold updateStack
  split
  · rw [concatenateStacks_bare]
    exact .pure trivial
  · exact .pure trivial

theorem throwsOnly_extractRun (segment : CriticalPathSegment) (back : ThreadInfo) :
    ThrowsOnly e False (sources.bare.extractRun segment back) fun _ => True := by
  have hsamples : sources.bare.stacksBuilder.enumerateStacks segment.tid segment.startTs
      segment.endTs = [] := rfl
  rw [extractRun, hsamples]
  change ThrowsOnly e False (if sumU64 [] < subU64 segment.endTs segment.startTs then _ else _) _
  split
  · exact throwsOnly_pushAndIncrement _ _ _
  · exact .pure trivial

theorem throwsOnly_extractWaitBlocked (segment : CriticalPathSegment) (back : ThreadInfo) :
    ThrowsOnly e False (sources.bare.extractWaitBlocked segment back) fun _ => True := by
  refine (throwsOnly_updateStack segment back).seq fun back _ => ?_
  refine (throwsOnly_pushOnStack _ _).seq fun stackId _ => ?_
  exact (throwsOnly_incrementSample _ _).seq fun _ _ => .pure trivial

theorem throwsOnly_extractBlockDevice (segment : CriticalPathSegment) (back : ThreadInfo) :
    ThrowsOnly e False (sources.bare.extractBlockDevice segment back) (·.isSome) := by
  have hintervals : sources.bare.diskRequests.getIntervals segment.startTs segment.endTs = [] :=
    rfl
  refine (throwsOnly_updateStack segment back).seq fun back _ => ?_
  refine (throwsOnly_pushOnStack _ _).seq fun diskStackId _ => ?_
  rw [hintervals]
  change ThrowsOnly e False (do
    incrementSample diskStackId (subU64 (subU64 segment.endTs segment.startTs) 0)
    pure (some back)) _
  exact (throwsOnly_incrementSample _ _).seq fun _ _ => .pure rfl

end segments

/-! ### Calls -/

section calls

variable {fuel : ℕ} {recurse : Recursion} {Endless : Call → Prop}

/-- The path of the call is found, and its extraction throws if the call is endless. -/
def Extracts (sources : Sources) (e : ExtractFault) (fuel : ℕ) (recurse : Recursion)
    (Endless : Call → Prop) (call : Call) : Prop :=
  ∃ path, computeCriticalPath sources.graph fuel call.startTs call.endTs call.tid = .ok path ∧
    ∀ baseStackId, ThrowsOnly e (Endless call) (recurse path baseStackId) fun _ => True

theorem throwsOnly_preemptedCallback (baseStackId : StackId) (value : UInt32 × ℕ × ℕ)
    (h : ¬(value.1 = -1 ∨ value.1 = 0) →
      sources.Extracts e fuel recurse Endless ⟨value.2.1, value.2.2, value.1.toNat⟩) :
    ThrowsOnly e (¬(value.1 = -1 ∨ value.1 = 0) ∧
        Endless ⟨value.2.1, value.2.2, value.1.toNat⟩)
      (sources.bare.preemptedCallback fuel recurse baseStackId value.1 value.2.1 value.2.2)
      fun _ => True := by
  unfold preemptedCallback
  split
  · next hunknown => exact (ThrowsOnly.pure trivial).mono fun hsurely => hsurely.1 hunknown
  · next hknown =>
      obtain ⟨path, hpath, hrecurse⟩ := h hknown
      have hpath' : computeCriticalPath sources.bare.graph fuel value.2.1 value.2.2
          value.1.toNat = .ok path := hpath
      rw [hpath']
      exact ((hrecurse baseStackId).andThen fun _ _ => .pure trivial).mono And.right

theorem throwsOnly_extractWaitCpu {segment : CriticalPathSegment}
    (htype : segment.type = .waitCpu)
    (h : ∀ call ∈ sources.preempting segment, sources.Extracts e fuel recurse Endless call)
    (back : ThreadInfo) :
    ThrowsOnly e (∃ call ∈ sources.preempting segment, Endless call)
      (sources.bare.extractWaitCpu fuel recurse segment back) fun _ => True := by
  have hbare : sources.preempting segment = sources.bare.preempting segment := rfl
  rw [hbare, preempting, if_pos htype] at h ⊢
  refine (throwsOnly_pushOnStack _ _).seq fun stackId _ => ?_
  dsimp only
  cases hlastCpu : sources.bare.stateHistory.getUIntegerValue
      (sources.bare.currentState.currentCpuKey segment.tid) segment.startTs with
  | none =>
      exact (throwsOnly_incrementSample _ _).mono (by simp)
  | some lastCpu =>
      rw [hlastCpu] at h
      dsimp only at h ⊢
      let Calls (value : UInt32 × ℕ × ℕ) : Prop :=
        ¬(value.1 = -1 ∨ value.1 = 0) ∧ Endless ⟨value.2.1, value.2.2, value.1.toNat⟩
      refine ((ThrowsOnly.foldlM Calls (fun value hvalue total => ?_) 0).andThen
        fun total _ => ?_).mono ?_
      · refine (throwsOnly_preemptedCallback stackId value fun hknown => ?_).andThen
          fun _ _ => .pure trivial
        exact h _ (List.mem_map_of_mem (List.mem_filter.mpr ⟨hvalue, decide_eq_true hknown⟩))
      · split
        · exact throwsOnly_incrementSample _ _
        · exact .pure trivial
      · rintro ⟨call, hcall, hendless⟩
        obtain ⟨value, hvalue, rfl⟩ := List.mem_map.mp hcall
        obtain ⟨hmem, hknown⟩ := List.mem_filter.mp hvalue
        exact ⟨value, hmem, of_decide_eq_true hknown, hendless⟩

theorem throwsOnly_extractSegment {segment : CriticalPathSegment}
    (h : ∀ call ∈ sources.preempting segment, sources.Extracts e fuel recurse Endless call)
    (back : ThreadInfo) :
    ThrowsOnly e (∃ call ∈ sources.preempting segment, Endless call)
      (sources.bare.extractSegment fuel recurse segment back) (·.isSome) := by
  by_cases htype : segment.type = .waitCpu
  · rw [extractSegment, htype]
    exact (throwsOnly_extractWaitCpu htype h back).andThen fun _ _ => .pure rfl
  · have hquiet : ThrowsOnly e False (sources.bare.extractSegment fuel recurse segment back)
        (·.isSome) := by
      unfold extractSegment
      cases hother : segment.type with
      | waitCpu => exact absurd hother htype
      | run => exact (throwsOnly_extractRun segment back).seq fun _ _ => .pure rfl
      | waitBlocked | timer | network | userInput =>
          exact (throwsOnly_extractWaitBlocked segment back).seq fun _ _ => .pure rfl
      | blockDevice => exact throwsOnly_extractBlockDevice segment back
      | unknown | vertical | interrupted | epsilon =>
          exact (throwsOnly_pushAndIncrement _ _ _).seq fun _ _ => .pure rfl
    rw [preempting, if_neg htype]
    exact hquiet.mono (by simp)

theorem throwsOnly_extractPath {path : CriticalPath}
    (h : ∀ segment ∈ path, ∀ call ∈ sources.preempting segment,
      sources.Extracts e fuel recurse Endless call)
    (baseStackId : StackId) (threads : List ThreadInfo) :
    ThrowsOnly e (∃ segment ∈ path, ∃ call ∈ sources.preempting segment, Endless call)
      (sources.bare.extractPath fuel recurse baseStackId path threads) fun _ => True := by
  induction path generalizing threads with
  | nil => exact (ThrowsOnly.pure trivial).mono (by simp)
  | cons segment path ih =>
      obtain ⟨hsegment, hpath⟩ := List.forall_mem_cons.mp h
      refine (throwsOnly_ensureCurrentThread segment baseStackId threads).seq fun current _ => ?_
      dsimp only
      split
      · next htype =>
          refine (ih hpath _).mono fun hsurely => ?_
          rcases (List.exists_mem_cons_iff _ _ _).mp hsurely with ⟨call, hcall, _⟩ | hrest
          · rw [preempting, if_neg (by rw [htype]; decide)] at hcall
            cases hcall
          · exact hrest
      · refine ((throwsOnly_extractSegment hsegment current.2).bind fun done hdone => ?_).mono
          (List.exists_mem_cons_iff _ _ _).mp
        obtain ⟨back, rfl⟩ := Option.isSome_iff_exists.mp hdone
        dsimp only
        rw [concatenateStacks_bare]
        exact ih hpath _

end calls

/-! ### Calls that come back -/

/-- The call leads to one that comes back to itself. -/
def Endless (sources : Sources) (call : Call) : Prop :=
  ∃ again, ReflTransGen sources.Preempts call again ∧ TransGen sources.Preempts again again

theorem Endless.next {call : Call} (h : sources.Endless call) :
    ∃ next, sources.Preempts call next ∧ sources.Endless next := by
  obtain ⟨again, hleads, hcycle⟩ := h
  obtain ⟨next, hnext, hback⟩ := TransGen.head'_iff.mp (TransGen.trans_right hleads hcycle)
  exact ⟨next, hnext, again, hback, hcycle⟩

/-- At every depth, the extraction of the path of an endless call comes to what is put there. -/
theorem extracts_extractOver {calls : Set Call} {fuel : ℕ}
    (hpaths : ∀ call ∈ calls, ∃ path,
      computeCriticalPath sources.graph fuel call.startTs call.endTs call.tid = .ok path)
    (hclosed : ∀ call ∈ calls, ∀ next, sources.Preempts call next → next ∈ calls) (depth : ℕ) :
    ∀ call ∈ calls, sources.Extracts e fuel
      (sources.bare.extractOver fuel (fun _ _ => throw e) depth) sources.Endless call := by
  induction depth with
  | zero =>
      intro call hcall
      obtain ⟨path, hpath⟩ := hpaths call hcall
      exact ⟨path, hpath, fun _ => .throw _ _⟩
  | succ depth ih =>
      intro call hcall
      obtain ⟨path, hpath⟩ := hpaths call hcall
      refine ⟨path, hpath, fun baseStackId => ?_⟩
      have hnexts : ∀ segment ∈ path, ∀ next ∈ sources.preempting segment, next ∈ calls :=
        fun segment hsegment next hnext =>
          hclosed call hcall next ⟨path, ⟨fuel, hpath⟩, segment, hsegment, hnext⟩
      have hextract := throwsOnly_extractPath
        (fun segment hsegment next hnext => ih next (hnexts segment hsegment next hnext))
        baseStackId []
      refine (hextract.andThen fun _ _ => .pure trivial).mono fun hendless => ?_
      obtain ⟨next, ⟨path', hpath', segment, hsegment, hnext⟩, hendless'⟩ := hendless.next
      obtain rfl := hpath'.unique ⟨fuel, hpath⟩
      exact ⟨segment, hsegment, next, hnext, hendless'⟩

/-- If one of the calls for a path comes back to itself, the recursion has no end, unless stacks
or disk requests stop it. -/
theorem not_recursionEnds_of_cycle (ho : sources.graph.Owned)
    (hpaths : ∀ call, ∃ path, PathOf sources.graph call path) {path : CriticalPath} {call : Call}
    (hleads : sources.LeadsTo path call) (hcycle : TransGen sources.Preempts call call)
    (s : Extractor) : ¬ sources.bare.RecursionEnds path s := by
  rintro ⟨depth, enough, hends⟩
  obtain ⟨fuel, hfuel, hfound⟩ := exists_fuel (finite_leadsTo ho path) (fun call _ => hpaths call)
    enough
  -- Whatever is thrown at the depth is what the run ends with.
  have hthrows : ∀ e, ∃ s', (sources.bare.extractPath fuel
      (sources.bare.extractOver fuel (fun _ _ => throw e) depth) kEmptyStackId path []).runOn s =
        (.error e, s') := by
    intro e
    have hextracts := extracts_extractOver hfound (fun _ hcall _ => hcall.tail) depth (e := e)
    have hrun := throwsOnly_extractPath
      (fun segment hsegment first hfirst =>
        hextracts first ⟨segment, hsegment, first, hfirst, .refl⟩) kEmptyStackId []
    obtain ⟨segment, hsegment, first, hfirst, hleads⟩ := hleads
    rcases hrun s with hthrown | ⟨hnot, -⟩
    · exact hthrown
    · exact absurd ⟨segment, hsegment, first, hfirst, call, hleads, hcycle⟩ hnot
  obtain ⟨s₁, hthrown⟩ := hthrows .divisionByZero
  obtain ⟨s₂, hfuel'⟩ := hthrows .outOfFuel
  rw [hends fuel hfuel, extractStacks, extractRecursive_eq, hfuel'] at hthrown
  cases hthrown

end Sources

/-- The recursion ends, with any stacks and disk requests, exactly if none of the calls for the
path comes back to itself. -/
theorem recursionEnds_iff {sources : Sources} (ho : sources.graph.Owned)
    (hpaths : ∀ call, ∃ path, PathOf sources.graph call path) (path : CriticalPath)
    (s : Extractor) :
    (∀ stacksBuilder diskRequests,
        { sources with stacksBuilder, diskRequests }.RecursionEnds path s) ↔
      ∀ call, sources.LeadsTo path call → ¬ TransGen sources.Preempts call call := by
  constructor
  · intro hends call hleads hcycle
    exact Sources.not_recursionEnds_of_cycle ho hpaths hleads hcycle s (hends {} {})
  · intro hacyclic stacksBuilder diskRequests
    have hends := @Sources.recursionEnds_of_acyclic { sources with stacksBuilder, diskRequests }
    exact hends ho hacyclic s

/-! ### A lost event -/

/-- No thread is woken up, and none is blocked. -/
def NeverBlocked (g : CriticalGraph) : Prop :=
  ∀ n < g.nextNode, g.slot n .inVertical = none ∧
    ∀ id ∈ g.slot n .outHorizontal, ∀ edge ∈ g.edges id, edge.type.isBlocked = false

instance (g : CriticalGraph) : Decidable (NeverBlocked g) :=
  inferInstanceAs (Decidable (∀ n < g.nextNode, _ ∧ ∀ id ∈ g.slot n .outHorizontal,
    ∀ edge ∈ g.edges id, edge.type.isBlocked = false))

/-- Then `ComputeCriticalPath` does not call itself. -/
theorem NeverBlocked.exists_path {g : CriticalGraph} (h : NeverBlocked g) (hg : g.Navigable)
    (call : Call) : ∃ path, PathOf g call path := by
  have hslot : ∀ {n p id}, g.slot n p = some id → n < g.nextNode := by
    intro n p id hid
    obtain ⟨label, hlabel⟩ := label_of_slot hid
    exact hg.owned.lt_next hlabel
  have hwait : ∀ {startTs endTs n source startTs' endTs' tid}, ¬ TraverseStep g startTs endTs n
      (.ok (.recurse source startTs' endTs' tid)) := by
    rintro _ _ _ _ _ _ _ (_ | ⟨-, hid, hedge, hblocked, -, -, -⟩)
    rw [(h _ (hslot hid)).2 _ hid _ hedge] at hblocked
    cases hblocked
  have hleads : ∀ call next, ¬ Leads g call next := by
    rintro call ⟨startTs, endTs, tid⟩ ⟨source, hmem⟩
    cases mem_callScript hg hmem with
    | late _ hwakes =>
        obtain ⟨id, edge, hid, -, -⟩ := hwakes
        rw [(h _ (hslot hid)).1] at hid
        cases hid
    | traverse _ _ hstep => exact hwait hstep
    | lateTraverse _ _ _ hstep => exact hwait hstep
  have hacyclic : ∀ other, Critical.Reaches g call other → ¬ TransGen (Leads g) other other := by
    intro other _ hcycle
    obtain ⟨next, hnext, -⟩ := TransGen.head'_iff.mp hcycle
    exact hleads other next hnext
  obtain ⟨fuel, hends⟩ := halts_of_acyclic hg hacyclic
  have hfuel := hends fuel le_rfl []
  cases hrun : computeCriticalPath g fuel call.startTs call.endTs call.tid with
  | ok path => exact ⟨path, fuel, hrun⟩
  | error fault =>
      obtain rfl := computeCriticalPath_fault hg hrun
      exact absurd hrun hfuel

/-- Thread 2 preempts thread 1 from 10 to 20. -/
def preempted : List Step :=
  [.event 5 (.threadStatus 1 (some .runUsermode)), .event 10 (.threadStatus 1 (some .waitForCpu)),
    .event 10 (.threadStatus 2 (some .runUsermode)),
    .event 20 (.threadStatus 2 (some .waitForCpu)),
    .event 20 (.threadStatus 1 (some .runUsermode))]

/-- Processor 0 gets a thread at each of these times. -/
def onProcessor (switches : List (ℕ × UInt32)) : StateHistory :=
  switches.foldl (fun h switch => (h.setTimestamp switch.1).setUIntegerValue 1 switch.2)
    ((({} : StateHistory).setTimestamp 5).setUIntegerValue 2 0)

/-- The key 1 is that of the thread on processor 0, and 2 that of the processor of thread 1. -/
def preemptedSources (switches : List (ℕ × UInt32)) : Sources where
  stacksBuilder := {}
  graph := (CriticalBlock.after 4294967295 preempted).graph
  stateHistory := onProcessor switches
  diskRequests := {}
  currentState := ⟨fun _ => [], fun tid => 2 * tid, fun cpu => 2 * cpu.toNat + 1⟩

theorem reachable_preempted : Reachable 4294967295 OnlyEvents (.after 4294967295 preempted) := by
  have hfollows : Follows 4294967295 OnlyEvents .initial preempted := by decide
  exact hfollows.reachable_after

theorem exists_path_preempted (switches : List (ℕ × UInt32)) (call : Call) :
    ∃ path, PathOf (preemptedSources switches).graph call path := by
  have hnever : NeverBlocked (CriticalBlock.after 4294967295 preempted).graph := by decide
  exact hnever.exists_path reachable_preempted.traced.navigable call

/-- Thread 2 runs while thread 1 waits for the processor. -/
theorem recursionEnds_preempted :
    (preemptedSources [(5, 1), (10, 2), (20, 1)]).preempting ⟨10, 20, 1, .waitCpu⟩ =
        [⟨10, 20, 2⟩] ∧
      ∀ stacksBuilder diskRequests,
        { preemptedSources [(5, 1), (10, 2), (20, 1)] with
          stacksBuilder, diskRequests }.RecursionEnds [⟨10, 20, 1, .waitCpu⟩] { db := {} } := by
  have hfirst : (preemptedSources [(5, 1), (10, 2), (20, 1)]).preempting
      ⟨10, 20, 1, .waitCpu⟩ = [⟨10, 20, 2⟩] := by decide
  have hpath : PathOf (preemptedSources [(5, 1), (10, 2), (20, 1)]).graph ⟨10, 20, 2⟩
      [⟨10, 20, 2, .run⟩] := ⟨1, by decide⟩
  have hnext : ∀ next,
      ¬ (preemptedSources [(5, 1), (10, 2), (20, 1)]).Preempts ⟨10, 20, 2⟩ next := by
    rintro next ⟨path, hpath', segment, hsegment, hcall⟩
    obtain rfl := hpath'.unique hpath
    obtain rfl := List.mem_singleton.mp hsegment
    cases hcall
  refine ⟨hfirst, (recursionEnds_iff reachable_preempted.known.owned (exists_path_preempted _)
    [⟨10, 20, 1, .waitCpu⟩] { db := {} }).mpr ?_⟩
  rintro call ⟨segment, hsegment, first, hcall, hleads⟩ hcycle
  obtain rfl := List.mem_singleton.mp hsegment
  rw [hfirst] at hcall
  obtain rfl := List.mem_singleton.mp hcall
  obtain ⟨next, hstep, -⟩ := TransGen.head'_iff.mp (TransGen.trans_right hleads hcycle)
  exact hnext next hstep

/-- The event at 10 was lost, so that thread 1 is on the processor that it waits for. -/
theorem not_recursionEnds_lostSwitch :
    (∀ call, ∃ path, PathOf (preemptedSources [(5, 1)]).graph call path) ∧
      ¬ (preemptedSources [(5, 1)]).RecursionEnds [⟨10, 20, 1, .waitCpu⟩] { db := {} } := by
  have hfirst : ⟨10, 20, 1⟩ ∈ (preemptedSources [(5, 1)]).preempting ⟨10, 20, 1, .waitCpu⟩ := by
    decide
  have hpath : PathOf (preemptedSources [(5, 1)]).graph ⟨10, 20, 1⟩ [⟨10, 20, 1, .waitCpu⟩] :=
    ⟨1, by decide⟩
  have hitself : (preemptedSources [(5, 1)]).Preempts ⟨10, 20, 1⟩ ⟨10, 20, 1⟩ :=
    ⟨_, hpath, _, List.mem_cons_self, hfirst⟩
  refine ⟨exists_path_preempted _, ?_⟩
  exact Sources.not_recursionEnds_of_cycle reachable_preempted.known.owned
    (exists_path_preempted _) ⟨_, List.mem_cons_self, _, hfirst, .refl⟩ (.single hitself) _

end TibeeCompare.Executions
