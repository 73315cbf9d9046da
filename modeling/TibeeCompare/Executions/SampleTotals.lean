import TibeeCompare.Executions.Concatenation
import TibeeCompare.Executions.EndlessExtractions
import TibeeCompare.Lib.Budgets
import TibeeCompare.State.Entries

/-!
The samples of an execution, with those of the threads that preempted it.

A segment that waits for a processor gets the samples of the threads that were on it, from the
critical paths of these threads, and the rest of its duration as one sample. So no time is given
out twice, no matter how deep threads preempt each other: the samples come to the duration of the
path at most, and exactly to it if the paths of the preempting threads fill their windows.
-/

namespace TibeeCompare.Executions

open Budgets Critical Db Intervals Relation State

/-- All samples of an execution. -/
def totalSamples (execution : Execution) : ℕ :=
  (execution.samples.entries.map fun entry => entry.2.toNat).sum

def withoutSamples (execution : Execution) : Execution :=
  { execution with samples := IdMap.empty }

/-- The code adds `n` to the samples, and changes nothing else of the execution. -/
abbrev AddsSamples {α : Type} (limit : ℕ) (full : Prop) (n : ℕ) (x : ExtractM α)
    (post : α → Prop) : Prop :=
  Spends (fun s : Extractor => totalSamples s.execution)
    (fun s : Extractor => withoutSamples s.execution) limit full n x post

section Samples

variable {limit : ℕ} {full : Prop}

theorem sum_modify (entries : Entries) (id : UInt32) (value : UInt64)
    (hfits : (entries.map fun entry => entry.2.toNat).sum + value.toNat < U64) :
    ((entries.modify id (· + value)).map fun entry => entry.2.toNat).sum =
      (entries.map fun entry => entry.2.toNat).sum + value.toNat := by
  induction entries with
  | nil => simp [Entries.modify]
  | cons entry rest ih =>
      obtain ⟨key, count⟩ := entry
      rw [List.map_cons, List.sum_cons] at hfits ⊢
      dsimp only at hfits ⊢
      rw [Entries.modify]
      split
      · have hsum : (count + value).toNat = count.toNat + value.toNat := by
          rw [UInt64.toNat_add]
          apply Nat.mod_eq_of_lt
          exact lt_of_le_of_lt (by omega) hfits
        rw [List.map_cons, List.sum_cons, hsum]
        omega
      · rw [List.map_cons, List.sum_cons, ih (by omega)]
        dsimp only
        omega

theorem addsSamples_increment (hlimit : limit < U64) (stackId : StackId) (value : ℕ) :
    AddsSamples limit full value (incrementSample stackId value) fun _ => True := by
  intro k total hroom s ⟨hs, hk⟩
  change totalSamples s.execution = total at hs
  have hvalue : (UInt64.ofNat value).toNat = value :=
    UInt64.toNat_ofNat_of_lt' ((show value ≤ limit by omega).trans_lt hlimit)
  have htotal : totalSamples (s.execution.incrementSample stackId (UInt64.ofNat value)) =
      total + value := by
    rw [← hs] at hroom ⊢
    refine (sum_modify _ _ _ ?_).trans (by rw [hvalue]; rfl)
    rw [hvalue]
    exact hroom.trans_lt hlimit
  refine ⟨total + value, Nat.le_add_right _ _, ⟨htotal, hk⟩, ?_, ?_⟩
  · exact fun _ _ => ⟨le_rfl, fun _ => rfl, trivial⟩
  · rintro _ ⟨⟩

/-! ### Stacks -/

theorem addsSamples_liftDb {α : Type} (x : DbM α) :
    AddsSamples limit full 0 (liftDb x) fun _ => True := by
  have hstate : ∀ s, ((liftDb x).run.run s).2 = { s with db := (x.runOn s.db).2 } :=
    snd_runOn_liftDb x
  refine .of_unchanged (fun s => ?_) (fun s => ?_) fun _ _ _ => trivial
  · rw [hstate]
  · rw [hstate]

theorem addsSamples_topStackFunctions (rounds : ℕ) (top : StackId)
    (functions : List FunctionNameId) :
    AddsSamples limit full 0 (topStackFunctions rounds top functions) fun _ => True := by
  induction rounds generalizing top functions with
  | zero =>
      by_cases hempty : top = kEmptyStackId
      · subst hempty
        exact .pure trivial
      · have hthrow : topStackFunctions 0 top functions = throw .outOfFuel := by
          rw [topStackFunctions.eq_def]
          exact if_neg hempty
        rw [hthrow]
        exact .throw _
  | succ rounds ih =>
      by_cases hempty : top = kEmptyStackId
      · subst hempty
        exact .pure trivial
      · rw [topStackFunctions_succ hempty]
        exact (addsSamples_liftDb _).seq fun step _ => ih _ _

theorem addsSamples_concatenateAnew (bottom top : StackId) :
    AddsSamples limit full 0 (concatenateAnew bottom top) fun _ => True := by
  apply (addsSamples_topStackFunctions _ _ _).seq
  intro functions _
  have hfold : AddsSamples limit full (functions.map fun _ => 0).sum
      (functions.foldlM (fun fullStack function =>
        liftDb (addStack ⟨function, fullStack⟩)) bottom) fun _ => True :=
    Spends.foldlM (fun _ _ => True) (fun _ _ _ _ _ => addsSamples_liftDb _) trivial
  rw [List.map_const', List.sum_replicate_nat, Nat.mul_zero] at hfold
  apply hfold.seq
  intro fullStack _
  exact .of_unchanged (fun _ => rfl) (fun _ => rfl) fun _ _ _ => trivial

theorem addsSamples_concatenateStacks (bottom top : StackId) :
    AddsSamples limit full 0 (concatenateStacks bottom top) fun _ => True := by
  by_cases hempty : top = kEmptyStackId
  · rw [concatenateStacks, if_pos hempty]
    exact .pure trivial
  · intro k total hroom s hs
    have hanew : AddsSamples limit full 0 (concatenateAnew bottom top) fun _ => True :=
      addsSamples_concatenateAnew bottom top
    cases hcache : s.concatenationCache (bottom, top) with
    | some fullStack =>
        have hrun : (concatenateStacks bottom top).run.run s = (.ok fullStack, s) :=
          concatenateStacks_of_cached hempty hcache
        rw [hrun]
        refine ⟨total, le_refl total, hs, fun _ _ => ⟨le_rfl, fun _ => rfl, trivial⟩, ?_⟩
        rintro _ ⟨⟩
    | none =>
        have hrun : (concatenateStacks bottom top).run.run s =
            (concatenateAnew bottom top).run.run s := concatenateStacks_of_not_cached hempty hcache
        rw [hrun]
        exact hanew k total hroom s hs

/-! ### Segments -/

theorem addsSamples_status (hlimit : limit < U64) (bottom : StackId) (function : Bytes)
    (value : ℕ) : AddsSamples limit full value (do
      let stackId ← pushOnStack bottom function
      incrementSample stackId value) fun _ => True :=
  (addsSamples_liftDb _).seq fun _ _ => addsSamples_increment hlimit _ _

/-- What is left of a duration, if anything is. -/
theorem addsSamples_rest {d taken : ℕ} (hle : taken ≤ d) {x : ExtractM Unit}
    (hx : AddsSamples limit full (subU64 d taken) x fun _ => True) :
    AddsSamples limit full (d - taken) (if taken < d then x else pure ()) fun _ => True := by
  rw [subU64_of_le hle] at hx
  split
  · exact hx
  · next hall =>
      rw [Nat.sub_eq_zero_of_le (not_lt.mp hall)]
      exact .pure trivial

end Samples

namespace Sources

section Segments

variable {limit : ℕ} {full : Prop} {sources : Sources} {segment : CriticalPathSegment}

theorem addsSamples_ensureCurrentThread (baseStackId : StackId) (threads : List ThreadInfo) :
    AddsSamples limit full 0 (sources.ensureCurrentThread segment baseStackId threads)
      fun _ => True := by
  have hstack : ∀ back : ThreadInfo, AddsSamples limit full 0 (do
      let stack ← concatenateStacks back.cleanStack
        (sources.stacksBuilder.getStack segment.tid segment.endTs)
      pure (threads.takeWhile (·.tid ≠ segment.tid), { back with stack })) fun _ => True :=
    fun back => (addsSamples_concatenateStacks _ _).seq fun _ _ => .pure trivial
  unfold ensureCurrentThread
  cases threads.find? (·.tid = segment.tid) with
  | some thread => exact hstack thread
  | none => exact (addsSamples_liftDb _).seq fun cleanStack _ => hstack _

theorem addsSamples_updateStack (back : ThreadInfo) :
    AddsSamples limit full 0 (sources.updateStack segment back) fun _ => True := by
  unfold updateStack
  split
  · exact (addsSamples_concatenateStacks _ _).seq fun _ _ => .pure trivial
  · exact .pure trivial

theorem addsSamples_extractRun (hlimit : limit < U64) (hd : segmentDuration segment < U64)
    (hrun : segment.type = .run) (haccounted : sources.Accounted segment) (back : ThreadInfo) :
    AddsSamples limit full (segmentDuration segment) (sources.extractRun segment back)
      fun _ => True := by
  rw [Accounted, hrun] at haccounted
  dsimp only at haccounted
  unfold extractRun
  dsimp only
  generalize sources.stacksBuilder.enumerateStacks segment.tid segment.startTs segment.endTs =
    samples at haccounted
  rw [sumU64_eq, Nat.mod_eq_of_lt (haccounted.trans_lt hd)]
  have hsamples : AddsSamples limit full (samples.map Prod.snd).sum
      (samples.forM fun sample => sampleCallback back sample.1 sample.2) fun _ => True :=
    .forM fun sample _ => (addsSamples_concatenateStacks _ _).seq fun _ _ =>
      addsSamples_increment hlimit _ _
  -- the stacks get what they last, and `No stack` the rest
  have hall := hsamples.bind fun _ _ => addsSamples_rest haccounted
    (addsSamples_status hlimit back.cleanStack (str "No stack") _)
  rwa [Nat.add_sub_cancel' haccounted] at hall

theorem addsSamples_extractWaitBlocked (hlimit : limit < U64) (back : ThreadInfo) :
    AddsSamples limit full (segmentDuration segment) (sources.extractWaitBlocked segment back)
      fun _ => True := by
  apply (addsSamples_updateStack back).seq
  intro back _
  apply (addsSamples_liftDb _).seq
  intro stackId _
  exact (addsSamples_increment hlimit stackId _).andThen fun _ _ => .pure trivial

/-- The share of the only interval that is sampled. -/
theorem stackDuration_eq_of_takesAll {d duration totalDuration : ℕ} (hzero : totalDuration ≠ 0)
    (hshare : d * totalDuration ≤ mulU64 d duration) :
    stackDuration d duration totalDuration 0 = d := by
  rw [stackDuration, subU64_of_le (Nat.zero_le d), Nat.sub_zero]
  exact Nat.min_eq_right ((Nat.le_div_iff_mul_le (Nat.pos_of_ne_zero hzero)).mpr hshare)

/-- The first interval gets the whole segment, if there is one. -/
theorem addsSamples_splitOverIntervals (hlimit : limit < U64) {tid d : ℕ} (hd : d < U64)
    {intervals : List (Containers.Interval × ℕ)} (hfirst : FirstTakesAll tid d intervals)
    (diskStackId : StackId) :
    ∃ given ≤ d, AddsSamples limit full given
      (sources.splitOverIntervals tid d (intervalsTotalDuration tid intervals) diskStackId
        intervals 0) (· = some given) := by
  cases intervals with
  | nil => exact ⟨0, Nat.zero_le d, .pure rfl⟩
  | cons interval intervals =>
      obtain ⟨hother, hzero, hshare⟩ := hfirst
      refine ⟨d, le_rfl, ?_⟩
      rw [splitOverIntervals, if_neg hother, if_neg hzero,
        stackDuration_eq_of_takesAll hzero hshare]
      apply (addsSamples_liftDb _).seq
      intro stackId _
      apply (addsSamples_concatenateStacks _ _).seq
      intro stackId _
      have hd' : addU64 0 d = d := by rw [addU64_of_lt (by omega), Nat.zero_add]
      rw [hd', if_pos le_rfl]
      exact (addsSamples_increment hlimit stackId d).andThen fun _ _ => .pure rfl

theorem addsSamples_extractBlockDevice (hlimit : limit < U64) (hd : segmentDuration segment < U64)
    (hdevice : segment.type = .blockDevice) (haccounted : sources.Accounted segment)
    (back : ThreadInfo) :
    AddsSamples limit full (segmentDuration segment) (sources.extractBlockDevice segment back)
      (·.isSome) := by
  rw [Accounted, hdevice] at haccounted
  dsimp only at haccounted
  apply (addsSamples_updateStack back).seq
  intro back _
  apply (addsSamples_liftDb _).seq
  intro diskStackId _
  generalize sources.diskRequests.getIntervals segment.startTs segment.endTs = intervals
    at haccounted ⊢
  have hsplit : ∃ given ≤ segmentDuration segment, AddsSamples limit full given
      (sources.splitOverIntervals segment.tid (segmentDuration segment)
        (intervalsTotalDuration segment.tid intervals) diskStackId intervals 0) (· = some given) :=
    addsSamples_splitOverIntervals hlimit hd haccounted diskStackId
  obtain ⟨given, hle, hsplit⟩ := hsplit
  have hrest : AddsSamples limit full (segmentDuration segment - given) (do
      incrementSample diskStackId (subU64 (segmentDuration segment) given)
      pure (some back)) (·.isSome) := by
    rw [← subU64_of_le hle]
    exact (addsSamples_increment hlimit _ _).andThen fun _ _ => .pure rfl
  rw [← Nat.add_sub_cancel' hle]
  apply hsplit.bind
  rintro _ rfl
  exact hrest

theorem addsSamples_extractOther (hlimit : limit < U64) (back : ThreadInfo) :
    AddsSamples limit full (segmentDuration segment) (extractOther segment back) fun _ => True :=
  addsSamples_status hlimit back.cleanStack (getStatusString segment.type) _

/-! ### Threads that preempt each other -/

/-- The time that a thread on the processor takes from the segment that waits for it. -/
def taken (value : UInt32 × ℕ × ℕ) : ℕ :=
  if value.1 = -1 ∨ value.1 = 0 then 0 else value.2.2 - value.2.1

theorem sum_taken_le {lo hi : ℕ} {values : List (UInt32 × ℕ × ℕ)}
    (h : Ordered (fun i => i.2.1) (fun i => i.2.2) lo values hi) :
    (values.map taken).sum ≤ hi - lo := by
  refine (List.sum_le_sum fun value _ => ?_).trans h.sum_durations_le
  rw [taken]
  split
  · exact Nat.zero_le _
  · exact le_rfl

/-- The path of a call adds the duration of the call at most. -/
def Counts (sources : Sources) (limit : ℕ) (full : Prop) (fuel : ℕ) (recurse : Recursion)
    (call : Call) : Prop :=
  ∀ path, computeCriticalPath sources.graph fuel call.startTs call.endTs call.tid = .ok path →
    ∀ baseStackId, AddsSamples limit full (call.endTs - call.startTs) (recurse path baseStackId)
      fun _ => True

variable {fuel : ℕ} {recurse : Recursion}

theorem addsSamples_preemptedCallback (baseStackId : StackId) {value : UInt32 × ℕ × ℕ}
    (hle : value.2.1 ≤ value.2.2) (h : ¬(value.1 = -1 ∨ value.1 = 0) →
      sources.Counts limit full fuel recurse ⟨value.2.1, value.2.2, value.1.toNat⟩) :
    AddsSamples limit full (taken value)
      (sources.preemptedCallback fuel recurse baseStackId value.1 value.2.1 value.2.2)
      (· = taken value) := by
  unfold preemptedCallback taken
  split
  · exact .pure rfl
  · next hknown =>
      split
      · exact .throw _
      · next path hpath =>
          rw [subU64_of_le hle]
          exact (h hknown path hpath baseStackId).andThen fun _ _ => .pure rfl

theorem addsSamples_extractWaitCpu (hlimit : limit < U64) (hd : segmentDuration segment < U64)
    (hwindow : segment.startTs ≤ segment.endTs) (htype : segment.type = .waitCpu)
    (hsorted : ∀ key, Sorted (sources.stateHistory.uIntegerHistory key))
    (hcalls : ∀ call ∈ sources.preempting segment, sources.Counts limit full fuel recurse call)
    (back : ThreadInfo) :
    AddsSamples limit full (segmentDuration segment)
      (sources.extractWaitCpu fuel recurse segment back) fun _ => True := by
  rw [preempting, if_pos htype] at hcalls
  apply (addsSamples_liftDb _).seq
  intro stackId _
  dsimp only
  cases hlastCpu : sources.stateHistory.getUIntegerValue
      (sources.currentState.currentCpuKey segment.tid) segment.startTs with
  | none => exact addsSamples_increment hlimit stackId _
  | some lastCpu =>
      rw [hlastCpu] at hcalls
      dsimp only at hcalls ⊢
      have hordered : Ordered (fun i => i.2.1) (fun i => i.2.2) segment.startTs
          (sources.stateHistory.enumerateUIntegerValues
            (sources.currentState.currentThreadKey lastCpu) segment.startTs segment.endTs)
          segment.endTs := enumerateValues_ordered (hsorted _) hwindow
      generalize sources.stateHistory.enumerateUIntegerValues
        (sources.currentState.currentThreadKey lastCpu) segment.startTs segment.endTs = values
        at hcalls hordered ⊢
      have hsum : (values.map taken).sum ≤ segmentDuration segment := by
        rw [segmentDuration, subU64_of_le hwindow]
        exact sum_taken_le hordered
      -- What the rounds so far took and what the others will take is the same all along.
      have hloop : AddsSamples limit full (values.map taken).sum
          (values.foldlM (fun total value => do
            let duration ← sources.preemptedCallback fuel recurse stackId value.1 value.2.1
              value.2.2
            pure (addU64 total duration)) 0)
          fun total => total + 0 = (values.map taken).sum := by
        refine Spends.foldlM (fun total rest => total + (rest.map taken).sum =
          (values.map taken).sum) ?_ (Nat.zero_add _)
        intro value hvalue rest total htotal
        rw [List.map_cons, List.sum_cons] at htotal
        refine (addsSamples_preemptedCallback stackId (hordered.bounds hvalue).2.1
          fun hknown => ?_).andThen ?_
        · exact hcalls _ (List.mem_map_of_mem (List.mem_filter.mpr
            ⟨hvalue, decide_eq_true hknown⟩))
        · rintro _ rfl
          apply Spends.pure
          rw [addU64_of_lt (by omega)]
          omega
      -- The segment itself gets what the preempting threads did not take.
      rw [← Nat.add_sub_cancel' hsum]
      apply hloop.bind
      rintro _ rfl
      exact addsSamples_rest hsum (addsSamples_increment hlimit stackId _)

theorem addsSamples_extractSegment (hlimit : limit < U64) (hd : segmentDuration segment < U64)
    (hwindow : segment.startTs ≤ segment.endTs) (haccounted : sources.Accounted segment)
    (hsorted : ∀ key, Sorted (sources.stateHistory.uIntegerHistory key))
    (hcalls : ∀ call ∈ sources.preempting segment, sources.Counts limit full fuel recurse call)
    (back : ThreadInfo) :
    AddsSamples limit full (segmentDuration segment)
      (sources.extractSegment fuel recurse segment back) (·.isSome) := by
  unfold extractSegment
  cases htype : segment.type with
  | run =>
      exact (addsSamples_extractRun hlimit hd htype haccounted back).andThen fun _ _ => .pure rfl
  | waitBlocked | timer | network | userInput =>
      exact (addsSamples_extractWaitBlocked hlimit back).andThen fun _ _ => .pure rfl
  | blockDevice => exact addsSamples_extractBlockDevice hlimit hd htype haccounted back
  | waitCpu =>
      exact (addsSamples_extractWaitCpu hlimit hd hwindow htype hsorted hcalls back).andThen
        fun _ _ => .pure rfl
  | unknown | vertical | interrupted | epsilon =>
      exact (addsSamples_extractOther hlimit back).andThen fun _ _ => .pure rfl

theorem addsSamples_extractPath (hlimit : limit < U64)
    (hsorted : ∀ key, Sorted (sources.stateHistory.uIntegerHistory key)) {path : CriticalPath}
    (hsegments : ∀ segment ∈ path, segment.startTs ≤ segment.endTs ∧ segment.endTs < U64)
    (haccounted : ∀ segment ∈ path, sources.Accounted segment)
    (hcalls : ∀ segment ∈ path, ∀ call ∈ sources.preempting segment,
      sources.Counts limit full fuel recurse call)
    (baseStackId : StackId) (threads : List ThreadInfo) :
    AddsSamples limit full (path.map due).sum
      (sources.extractPath fuel recurse baseStackId path threads) (· = []) := by
  induction path generalizing threads with
  | nil => exact .pure rfl
  | cons segment path ih =>
      obtain ⟨⟨hwindow, hend⟩, hsegments⟩ := List.forall_mem_cons.mp hsegments
      obtain ⟨hfirst, haccounted⟩ := List.forall_mem_cons.mp haccounted
      obtain ⟨hpreempting, hcalls⟩ := List.forall_mem_cons.mp hcalls
      have hrest := ih hsegments haccounted hcalls
      have hd : segmentDuration segment < U64 := by
        rw [segmentDuration, subU64_of_le hwindow]
        omega
      rw [List.map_cons, List.sum_cons, extractPath, due]
      apply (addsSamples_ensureCurrentThread baseStackId threads).seq
      rintro ⟨below, back⟩ -
      dsimp only
      split
      · rw [Nat.zero_add]
        exact hrest _
      · apply (addsSamples_extractSegment hlimit hd hwindow hfirst hsorted hpreempting back).bind
        intro done hdone
        obtain ⟨back, rfl⟩ := Option.isSome_iff_exists.mp hdone
        dsimp only
        exact (addsSamples_concatenateStacks _ _).seq fun _ _ => hrest _

end Segments

/-! ### Paths of paths -/

theorem nonEpsilonDuration_le {lo hi : ℕ} {path : CriticalPath} (h : PathOrdered lo path hi) :
    nonEpsilonDuration path ≤ hi - lo := by
  have hsub : ((path.filter (·.type ≠ .epsilon)).map fun segment =>
      segment.endTs - segment.startTs).Sublist
        (path.map fun segment => segment.endTs - segment.startTs) := List.filter_sublist.map _
  exact (hsub.sum_le_sum fun _ _ => Nat.zero_le _).trans h.sum_durations_le

/-- The history is in order, the paths of the preempting threads stay in their windows, and the
stacks and the disk give no segment more than its duration. -/
structure CountsOnce (sources : Sources) (path : CriticalPath) : Prop where
  sorted : ∀ key, Sorted (sources.stateHistory.uIntegerHistory key)
  accounted : ∀ segment ∈ path, sources.Accounted segment
  inside : ∀ call, sources.LeadsTo path call → ∀ inner, PathOf sources.graph call inner →
    PathOrdered call.startTs inner call.endTs ∧ ∀ segment ∈ inner, sources.Accounted segment

/-- The paths of the preempting threads fill their windows. -/
def Fills (sources : Sources) (path : CriticalPath) : Prop :=
  ∀ call, sources.LeadsTo path call → ∀ inner, PathOf sources.graph call inner →
    nonEpsilonDuration inner = call.endTs - call.startTs

variable {sources : Sources} {path : CriticalPath} {lo hi : ℕ}

/-- No call goes beyond the end of the first path. -/
theorem CountsOnce.endTs_le (hcounts : sources.CountsOnce path) (hpath : PathOrdered lo path hi)
    {call : Call} (h : sources.LeadsTo path call) : call.endTs ≤ hi := by
  obtain ⟨segment, hsegment, first, hfirst, hleads⟩ := h
  induction hleads with
  | refl => exact (preempting_window hfirst).2.2.1.trans (hpath.bounds hsegment).2.2
  | tail hleads hnext ih =>
      obtain ⟨inner, hinner, segment', hsegment', hcall⟩ := hnext
      obtain ⟨hordered, -⟩ :=
        hcounts.inside _ ⟨segment, hsegment, first, hfirst, hleads⟩ inner hinner
      have hbounds := hordered.bounds hsegment'
      exact (preempting_window hcall).2.2.1.trans (hbounds.2.2.trans ih)

/-- At every depth, the path of a call adds the duration of the call at most. -/
theorem CountsOnce.counts_extractRecursive (hcounts : sources.CountsOnce path)
    (hpath : PathOrdered lo path hi) (hhi : hi < U64) {limit : ℕ} (hlimit : limit < U64)
    (fuel depth : ℕ) : ∀ call, sources.LeadsTo path call →
      sources.Counts limit (sources.Fills path) fuel (sources.extractRecursive fuel depth)
        call := by
  -- All calls of the next depth are reached from the first path as well, and end in time.
  induction depth with
  | zero => exact fun _ _ _ _ _ => .throw _
  | succ depth ih =>
      intro call hcall inner hrun baseStackId
      obtain ⟨hordered, haccounted⟩ := hcounts.inside call hcall inner ⟨fuel, hrun⟩
      have hend : call.endTs ≤ hi := hcounts.endTs_le hpath hcall
      have hsegments : ∀ segment ∈ inner,
          segment.startTs ≤ segment.endTs ∧ segment.endTs < U64 := by
        intro segment hsegment
        obtain ⟨-, hwindow, hlast⟩ := hordered.bounds hsegment
        exact ⟨hwindow, (hlast.trans hend).trans_lt hhi⟩
      have hnexts : ∀ segment ∈ inner, ∀ next ∈ sources.preempting segment,
          sources.Counts limit (sources.Fills path) fuel (sources.extractRecursive fuel depth)
            next := by
        intro segment hsegment next hnext
        exact ih next (hcall.tail ⟨inner, ⟨fuel, hrun⟩, segment, hsegment, hnext⟩)
      have hextract : AddsSamples limit (sources.Fills path) (nonEpsilonDuration inner)
          (sources.extractPath fuel (sources.extractRecursive fuel depth) baseStackId inner [])
          (· = []) := by
        rw [← sum_due fun segment hsegment => (hsegments segment hsegment).1]
        exact addsSamples_extractPath hlimit hcounts.sorted hsegments haccounted hnexts _ _
      -- What a path does not fill of its window is missing from the samples.
      have hwiden := hextract.widen (nonEpsilonDuration_le hordered)
        fun hfills => hfills call hcall inner ⟨fuel, hrun⟩
      exact hwiden.andThen fun _ _ => .pure trivial

end Sources

open Sources

/-- An extraction adds the duration of the path at most, and changes nothing else. -/
theorem addsSamples_extractStacks {sources : Sources} {path : CriticalPath} {lo hi : ℕ}
    (hpath : PathOrdered lo path hi) (hhi : hi < U64) (hcounts : sources.CountsOnce path)
    {limit : ℕ} (hlimit : limit < U64) (fuel depth : ℕ) :
    AddsSamples limit (sources.Fills path) (nonEpsilonDuration path)
      (sources.extractStacks fuel depth path) (· = []) := by
  have hsegments : ∀ segment ∈ path, segment.startTs ≤ segment.endTs ∧ segment.endTs < U64 := by
    intro segment hsegment
    obtain ⟨-, hwindow, hlast⟩ := hpath.bounds hsegment
    exact ⟨hwindow, hlast.trans_lt hhi⟩
  rw [← sum_due fun segment hsegment => (hsegments segment hsegment).1]
  apply addsSamples_extractPath hlimit hcounts.sorted hsegments hcounts.accounted
  intro segment hsegment call hcall
  exact hcounts.counts_extractRecursive hpath hhi hlimit fuel depth call
    ⟨segment, hsegment, call, hcall, .refl⟩

/-- The samples of an execution after an extraction that came to an end. -/
theorem totalSamples_of_runOn {sources : Sources} {path : CriticalPath} {lo hi : ℕ}
    (hpath : PathOrdered lo path hi) (hhi : hi < U64) (hcounts : sources.CountsOnce path)
    {start extractor : Extractor} {left : CriticalPath} {fuel depth : ℕ}
    (hroom : totalSamples start.execution + nonEpsilonDuration path < U64)
    (hruns : (sources.extractStacks fuel depth path).runOn start = (.ok left, extractor)) :
    totalSamples extractor.execution ≤ totalSamples start.execution + nonEpsilonDuration path ∧
      withoutSamples extractor.execution = withoutSamples start.execution ∧
      (sources.Fills path → totalSamples extractor.execution =
        totalSamples start.execution + nonEpsilonDuration path) := by
  have hadds := addsSamples_extractStacks hpath hhi hcounts hroom fuel depth
  obtain ⟨htotal, hkept, hreturns⟩ := hadds.total_le
  have hran : ((sources.extractStacks fuel depth path).run.run start) = (.ok left, extractor) :=
    hruns
  rw [hran] at htotal hkept hreturns
  exact ⟨htotal, hkept, (hreturns left rfl).2⟩

/-- However deep the threads of a critical path preempt each other, the extraction adds no more
to the samples than the duration of the path, also where it goes wrong on the way. If it comes
to an end and the paths of the preempting threads fill their windows, it adds exactly that. -/
theorem extractStacks_totalSamples {sources : Sources} {path : CriticalPath} {lo hi : ℕ}
    (hpath : PathOrdered lo path hi) (hhi : hi < U64) (hcounts : sources.CountsOnce path)
    {s : Extractor} (hroom : totalSamples s.execution + nonEpsilonDuration path < U64)
    (fuel depth : ℕ) :
    totalSamples ((sources.extractStacks fuel depth path).runOn s).2.execution ≤
        totalSamples s.execution + nonEpsilonDuration path ∧
      ∀ left, ((sources.extractStacks fuel depth path).runOn s).1 = .ok left →
        left = [] ∧ (sources.Fills path →
          totalSamples ((sources.extractStacks fuel depth path).runOn s).2.execution =
            totalSamples s.execution + nonEpsilonDuration path) := by
  have hextract := addsSamples_extractStacks hpath hhi hcounts hroom fuel depth
  obtain ⟨htotal, -, hreturns⟩ := hextract.total_le
  exact ⟨htotal, hreturns⟩

theorem sorted_onProcessor (key : AttributeKey) :
    Sorted ((onProcessor [(5, 1), (10, 2), (20, 1)]).uIntegerHistory key) := by
  by_cases hthread : key = 1
  · subst hthread
    unfold Sorted
    decide
  · by_cases hcpu : key = 2
    · subst hcpu
      unfold Sorted
      decide
    · have hempty : (onProcessor [(5, 1), (10, 2), (20, 1)]).uIntegerHistory key = [] := by
        simp [onProcessor, StateHistory.setTimestamp, StateHistory.setUIntegerValue, hthread, hcpu]
      rw [hempty]
      exact .nil

/-- Thread 2 runs while thread 1 waits for the processor: its time is that of the samples. -/
theorem extractStacks_totalSamples_preempted : ∃ s,
    ((preemptedSources [(5, 1), (10, 2), (20, 1)]).extractStacks 1 1
      [⟨10, 20, 1, .waitCpu⟩]).runOn { db := {} } = (.ok [], s) ∧
        totalSamples s.execution = 10 := by
  have hfirst : (preemptedSources [(5, 1), (10, 2), (20, 1)]).preempting
      ⟨10, 20, 1, .waitCpu⟩ = [⟨10, 20, 2⟩] := by decide
  have hinner : PathOf (preemptedSources [(5, 1), (10, 2), (20, 1)]).graph ⟨10, 20, 2⟩
      [⟨10, 20, 2, .run⟩] := ⟨1, by decide⟩
  have hleads : ∀ call, (preemptedSources [(5, 1), (10, 2), (20, 1)]).LeadsTo
      [⟨10, 20, 1, .waitCpu⟩] call → call = ⟨10, 20, 2⟩ := by
    rintro call ⟨segment, hsegment, first, hcall, hleads⟩
    obtain rfl := List.mem_singleton.mp hsegment
    rw [hfirst] at hcall
    obtain rfl := List.mem_singleton.mp hcall
    induction hleads with
    | refl => rfl
    | tail _ hnext ih =>
        obtain ⟨inner, hpath, segment, hsegment, hcall⟩ := hnext
        subst ih
        obtain rfl := hpath.unique hinner
        obtain rfl := List.mem_singleton.mp hsegment
        cases hcall
  have hcounts : (preemptedSources [(5, 1), (10, 2), (20, 1)]).CountsOnce
      [⟨10, 20, 1, .waitCpu⟩] := by
    refine ⟨sorted_onProcessor, ?_, ?_⟩
    · intro segment hsegment
      obtain rfl := List.mem_singleton.mp hsegment
      exact trivial
    · intro call hcall inner hpath
      obtain rfl := hleads call hcall
      obtain rfl := hpath.unique hinner
      refine ⟨⟨le_rfl, show 10 ≤ 20 by decide, le_rfl⟩, ?_⟩
      intro segment hsegment
      obtain rfl := List.mem_singleton.mp hsegment
      exact Nat.zero_le _
  have hfills : (preemptedSources [(5, 1), (10, 2), (20, 1)]).Fills
      [⟨10, 20, 1, .waitCpu⟩] := by
    intro call hcall inner hpath
    obtain rfl := hleads call hcall
    obtain rfl := hpath.unique hinner
    rfl
  have hpath : PathOrdered 10 [⟨10, 20, 1, .waitCpu⟩] 20 :=
    ⟨le_rfl, show 10 ≤ 20 by decide, le_rfl⟩
  obtain ⟨-, hreturns⟩ := extractStacks_totalSamples hpath (by decide) hcounts
    (s := { db := {} }) (by decide) 1 1
  have hends : (((preemptedSources [(5, 1), (10, 2), (20, 1)]).extractStacks 1 1
      [⟨10, 20, 1, .waitCpu⟩]).runOn { db := {} }).1.toOption = some [] := by decide +kernel
  generalize ((preemptedSources [(5, 1), (10, 2), (20, 1)]).extractStacks 1 1
    [⟨10, 20, 1, .waitCpu⟩]).runOn { db := {} } = result at hreturns hends
  obtain ⟨_ | left, s⟩ := result
  · cases hends
  · obtain ⟨rfl, htotal⟩ := hreturns left rfl
    exact ⟨s, rfl, htotal hfills⟩

end TibeeCompare.Executions
