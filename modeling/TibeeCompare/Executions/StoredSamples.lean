import TibeeCompare.Db.GhostHistories
import TibeeCompare.Executions.StackChains

/-!
The samples of an execution are of stacks that the database has.

An extraction looks up the stacks of the threads, puts status names on top of them and puts
them on top of each other. A history accounts for its database, and the samples and the cache
of concatenations only have stacks of its tables.
-/

namespace TibeeCompare.Executions

open Critical Db Ghosts Stacks

/-- The stacks of the threads are there. -/
structure StacksKnown (sources : Sources) (history : List Db.Op) : Prop where
  getStack : ∀ thread ts, WhileFits (KnownIn (sources.stacksBuilder.getStack thread ts)) history
  enumerateStacks : ∀ thread start end_,
    ∀ sample ∈ sources.stacksBuilder.enumerateStacks thread start end_,
      WhileFits (KnownIn sample.1) history

/-- The history tells the database of an extractor, with the stacks of its samples. -/
structure Samples (sources : Sources) (history : List Db.Op) (s : Extractor) : Prop where
  replays : Replays history s.db
  ofThreads : StacksKnown sources history
  cached : ∀ pair full, s.concatenationCache pair = some full →
    WhileFits (KnownIn full) history
  samples : ∀ entry ∈ s.execution.samples.entries, WhileFits (KnownIn entry.1) history

/-- An error of the database means that identifiers ran out. -/
def Faults : ExtractFault → List Db.Op → Prop
  | .fatalError e, history => RunsOut e history
  | .divisionByZero, _ | .critical _, _ | .outOfFuel, _ => True

/-- Both stacks of a thread are there. -/
structure InfoKnown (history : List Db.Op) (info : ThreadInfo) : Prop where
  stack : WhileFits (KnownIn info.stack) history
  cleanStack : WhileFits (KnownIn info.cleanStack) history

section Continues

variable {history history' : List Db.Op} (hcontinues : Continues history history')

include hcontinues

theorem KnownIn.continues {id : StackId} (h : WhileFits (KnownIn id) history) :
    WhileFits (KnownIn id) history' := h.continues hcontinues KnownIn.of_grows

theorem InfoKnown.continues {info : ThreadInfo} (h : InfoKnown history info) :
    InfoKnown history' info :=
  ⟨KnownIn.continues hcontinues h.stack, KnownIn.continues hcontinues h.cleanStack⟩

theorem StacksKnown.continues {sources : Sources} (h : StacksKnown sources history) :
    StacksKnown sources history' where
  getStack thread ts := KnownIn.continues hcontinues (h.getStack thread ts)
  enumerateStacks thread start end_ sample hsample :=
    KnownIn.continues hcontinues (h.enumerateStacks thread start end_ sample hsample)

theorem Samples.continues {sources : Sources} {s : Extractor} (h : Samples sources history s)
    {db : Database} (hdb : Replays history' db) : Samples sources history' { s with db } where
  replays := hdb
  ofThreads := h.ofThreads.continues hcontinues
  cached pair full hfull := KnownIn.continues hcontinues (h.cached pair full hfull)
  samples entry hentry := KnownIn.continues hcontinues (h.samples entry hentry)

end Continues

/-! ### Stacks -/

section Stacks

variable {history : List Db.Op} {sources : Sources}

theorem gives_liftDb {α : Type} {x : DbM α} {q : α → List Db.Op → Prop}
    (h : Gives Replays Continues RunsOut x history q) :
    Gives (Samples sources) Continues Faults (liftDb x) history q := by
  intro s hs
  obtain ⟨history', hcontinues, hreplays, hreturns, hthrows⟩ := h s.db hs.replays
  have hsamples : Samples sources history' ((liftDb x).runOn s).2 := by
    rw [snd_runOn_liftDb]
    exact hs.continues hcontinues hreplays
  refine ⟨history', hcontinues, hsamples, fun a ha => ?_, fun fault hfault => ?_⟩
  · have hresult : ((liftDb x).runOn s).1 = .ok a := ha
    rw [liftDb, ExtractM.runOn_get_bind] at hresult
    cases hrun : x.runOn s.db with
    | mk r db =>
        rw [hrun] at hresult
        cases r with
        | ok b =>
            cases hresult
            exact hreturns _ (congrArg Prod.fst hrun)
        | error e => cases hresult
  · have hresult : ((liftDb x).runOn s).1 = .error fault := hfault
    rw [liftDb, ExtractM.runOn_get_bind] at hresult
    cases hrun : x.runOn s.db with
    | mk r db =>
        rw [hrun] at hresult
        cases r with
        | ok b => cases hresult
        | error e =>
            cases hresult
            exact hthrows e (congrArg Prod.fst hrun)

theorem gives_pushOnStack {bottom : StackId} (hbottom : WhileFits (KnownIn bottom) history)
    (function : Bytes) :
    Gives (Samples sources) Continues Faults (pushOnStack bottom function) history
      fun id => WhileFits (KnownIn id) :=
  gives_liftDb ((gives_push hbottom function).mono fun _ _ _ => StoredIn.known)

theorem mem_modify {entries : Entries} {id : UInt32} {f : UInt64 → UInt64} {entry : UInt32 × UInt64}
    (h : entry ∈ entries.modify id f) : entry.1 = id ∨ ∃ entry' ∈ entries, entry'.1 = entry.1 := by
  have hkey := List.mem_map_of_mem (f := Prod.fst) h
  rw [Entries.keys_modify] at hkey
  split at hkey
  · exact .inr (List.mem_map.mp hkey)
  · rcases List.mem_append.mp hkey with hkey | hkey
    · exact .inr (List.mem_map.mp hkey)
    · exact .inl (List.mem_singleton.mp hkey)

theorem gives_incrementSample {id : StackId} (hid : WhileFits (KnownIn id) history) (value : ℕ) :
    Gives (Samples sources) Continues Faults (incrementSample id value) history
      fun _ _ => True := by
  refine Gives.modify fun s hs => ⟨hs.replays, hs.ofThreads, hs.cached, fun entry hentry => ?_⟩
  rcases mem_modify hentry with heq | ⟨entry', hentry', heq⟩
  · rw [heq]
    exact hid
  · rw [← heq]
    exact hs.samples entry' hentry'

theorem gives_topStackFunctions (rounds : ℕ) {top : StackId} {functions : List FunctionNameId}
    (htop : WhileFits (KnownIn top) history)
    (hfunctions : ∀ function ∈ functions, WhileFits (NamedIn function) history) :
    Gives (Samples sources) Continues Faults (topStackFunctions rounds top functions) history
      fun functions history' => ∀ function ∈ functions, WhileFits (NamedIn function) history' := by
  induction rounds generalizing history top functions with
  | zero =>
      by_cases hempty : top = kEmptyStackId
      · subst hempty
        exact .pure hfunctions
      · have hthrow : topStackFunctions 0 top functions = throw .outOfFuel := by
          rw [topStackFunctions.eq_def]
          exact if_neg hempty
        rw [hthrow]
        exact .throw trivial
  | succ rounds ih =>
      by_cases hempty : top = kEmptyStackId
      · subst hempty
        exact .pure hfunctions
      · rw [topStackFunctions_succ hempty]
        refine (gives_liftDb (gives_getStack (StoredIn.of_known htop hempty))).bind
          fun step history' hcontinues hstep => ih (fun hfits => (hstep hfits).2) ?_
        refine List.forall_mem_cons.mpr ⟨fun hfits => (hstep hfits).1, fun function hfunction => ?_⟩
        exact (hfunctions function hfunction).continues hcontinues NamedIn.of_grows

theorem gives_concatenateAnew {bottom top : StackId} (hbottom : WhileFits (KnownIn bottom) history)
    (htop : WhileFits (KnownIn top) history) :
    Gives (Samples sources) Continues Faults (concatenateAnew bottom top) history
      fun id => WhileFits (KnownIn id) := by
  refine (gives_topStackFunctions (2 ^ 32) htop fun _ hmem => absurd hmem List.not_mem_nil).bind
    fun functions history' hcontinues hfunctions => ?_
  have hfold : Gives (Samples sources) Continues Faults (functions.foldlM (fun fullStack function =>
      liftDb (addStack ⟨function, fullStack⟩)) bottom) history'
        fun id => WhileFits (KnownIn id) := by
    refine .foldlM ?_ (KnownIn.continues hcontinues hbottom)
    intro function hfunction fullStack history'' hcontinues' hfull
    exact gives_liftDb ((gives_addStack
      ((hfunctions function hfunction).continues hcontinues' NamedIn.of_grows) hfull).mono
        fun _ _ _ => StoredIn.known)
  refine hfold.bind fun fullStack history'' _ hfull => ?_
  have hcache : Gives (Samples sources) Continues Faults (modify fun s : Extractor => { s with
      concatenationCache := Function.update s.concatenationCache (bottom, top) (some fullStack) } :
        ExtractM PUnit) history'' fun _ _ => True := by
    refine .modify fun s hs => ⟨hs.replays, hs.ofThreads, fun pair full hcached => ?_, hs.samples⟩
    by_cases hpair : pair = (bottom, top)
    · subst hpair
      dsimp only at hcached
      rw [Function.update_self] at hcached
      cases hcached
      exact hfull
    · dsimp only at hcached
      rw [Function.update_of_ne hpair] at hcached
      exact hs.cached pair full hcached
  exact hcache.bind fun _ _ hcontinues' _ => .pure (KnownIn.continues hcontinues' hfull)

theorem gives_concatenateStacks {bottom top : StackId}
    (hbottom : WhileFits (KnownIn bottom) history) (htop : WhileFits (KnownIn top) history) :
    Gives (Samples sources) Continues Faults (concatenateStacks bottom top) history
      fun id => WhileFits (KnownIn id) := by
  by_cases hempty : top = kEmptyStackId
  · rw [concatenateStacks, if_pos hempty]
    exact .pure hbottom
  · intro s hs
    cases hcache : s.concatenationCache (bottom, top) with
    | some fullStack =>
        have hrun : (concatenateStacks bottom top).run.run s = (.ok fullStack, s) :=
          concatenateStacks_of_cached hempty hcache
        rw [hrun]
        refine ⟨history, refl_of Continues history, hs, ?_, ?_⟩
        · rintro _ ⟨⟩
          exact hs.cached _ _ hcache
        · rintro _ ⟨⟩
    | none =>
        have hrun : (concatenateStacks bottom top).run.run s =
            (concatenateAnew bottom top).run.run s := concatenateStacks_of_not_cached hempty hcache
        rw [hrun]
        exact gives_concatenateAnew hbottom htop s hs

/-- The stack of a thread on top of another one. -/
theorem gives_concatenateThread {bottom : StackId} (hbottom : WhileFits (KnownIn bottom) history)
    (thread ts : ℕ) : Gives (Samples sources) Continues Faults
      (concatenateStacks bottom (sources.stacksBuilder.getStack thread ts)) history
      fun id => WhileFits (KnownIn id) :=
  .of_accounts fun _ hs => gives_concatenateStacks hbottom (hs.ofThreads.getStack thread ts)

end Stacks

/-! ### Segments -/

section Segments

variable {history : List Db.Op} {sources : Sources} {segment : CriticalPathSegment}
  {back : ThreadInfo}

theorem gives_ensureCurrentThread {baseStackId : StackId} {threads : List ThreadInfo}
    (hbase : WhileFits (KnownIn baseStackId) history)
    (hthreads : ∀ info ∈ threads, InfoKnown history info) :
    Gives (Samples sources) Continues Faults
      (sources.ensureCurrentThread segment baseStackId threads) history fun found history' =>
        (∀ info ∈ found.1, InfoKnown history' info) ∧ InfoKnown history' found.2 := by
  have hbelow : ∀ info ∈ threads.takeWhile (·.tid ≠ segment.tid), InfoKnown history info :=
    fun info hinfo => hthreads info ((List.takeWhile_prefix _).subset hinfo)
  have hstack : ∀ {history' : List Db.Op}, Continues history history' → ∀ back : ThreadInfo,
      InfoKnown history' back → Gives (Samples sources) Continues Faults (do
        let stack ← concatenateStacks back.cleanStack
          (sources.stacksBuilder.getStack segment.tid segment.endTs)
        pure (threads.takeWhile (·.tid ≠ segment.tid), { back with stack })) history'
        fun found history' =>
          (∀ info ∈ found.1, InfoKnown history' info) ∧ InfoKnown history' found.2 := by
    intro history' hcontinues back hback
    refine (gives_concatenateThread hback.cleanStack _ _).bind
      fun stack history'' hcontinues' hnew => .pure
        ⟨fun info hinfo => ?_, hnew, KnownIn.continues hcontinues' hback.cleanStack⟩
    exact ((hbelow info hinfo).continues hcontinues).continues hcontinues'
  unfold Sources.ensureCurrentThread
  cases hfind : threads.find? (·.tid = segment.tid) with
  | some thread =>
      have hthread := hthreads thread (List.mem_of_find?_eq_some hfind)
      exact hstack (refl_of Continues history) thread hthread
  | none =>
      have hbottom : WhileFits (KnownIn ((threads.getLast?.map (·.stack)).getD baseStackId))
          history := by
        cases hlast : threads.getLast? with
        | none => exact hbase
        | some last => exact (hthreads last (List.mem_of_getLast? hlast)).stack
      exact (gives_pushOnStack hbottom _).bind fun cleanStack history' hcontinues hclean =>
        hstack hcontinues ⟨segment.tid, cleanStack, cleanStack⟩ ⟨hclean, hclean⟩

theorem gives_sampleCallback (hback : InfoKnown history back) {stackId : StackId}
    (hid : WhileFits (KnownIn stackId) history) (value : ℕ) :
    Gives (Samples sources) Continues Faults (sampleCallback back stackId value) history
      fun _ _ => True :=
  (gives_concatenateStacks hback.cleanStack hid).bind fun _ _ _ hid =>
    gives_incrementSample hid value

theorem gives_updateStack (hback : InfoKnown history back) :
    Gives (Samples sources) Continues Faults (sources.updateStack segment back) history
      fun back history' => InfoKnown history' back := by
  unfold Sources.updateStack
  split
  · refine (gives_concatenateThread hback.cleanStack _ _).bind
      fun stack history' hcontinues hnew => ?_
    exact .pure ⟨hnew, KnownIn.continues hcontinues hback.cleanStack⟩
  · exact .pure hback

/-- A name on a stack of the thread, as a sample. -/
theorem gives_status {bottom : StackId} (hbottom : WhileFits (KnownIn bottom) history)
    (function : Bytes) (value : ℕ) :
    Gives (Samples sources) Continues Faults (do
      let stackId ← pushOnStack bottom function
      incrementSample stackId value) history fun _ _ => True :=
  (gives_pushOnStack hbottom function).bind fun _ _ _ hid => gives_incrementSample hid value

theorem gives_extractRun (hback : InfoKnown history back) :
    Gives (Samples sources) Continues Faults (sources.extractRun segment back) history
      fun _ _ => True := by
  unfold Sources.extractRun
  refine (Gives.forM fun sample hsample history' hcontinues => .of_accounts fun _ hs =>
    gives_sampleCallback (hback.continues hcontinues)
      (hs.ofThreads.enumerateStacks _ _ _ sample hsample) sample.2).bind
      fun _ history' hcontinues _ => ?_
  dsimp only
  split
  · exact gives_status (KnownIn.continues hcontinues hback.cleanStack) _ _
  · exact .pure trivial

theorem gives_extractWaitBlocked (hback : InfoKnown history back) :
    Gives (Samples sources) Continues Faults (sources.extractWaitBlocked segment back) history
      fun back history' => InfoKnown history' back := by
  unfold Sources.extractWaitBlocked
  refine (gives_updateStack hback).bind fun back history' _ hback => ?_
  refine (gives_pushOnStack hback.stack _).bind fun stackId history'' hcontinues hid => ?_
  exact (gives_incrementSample hid _).bind fun _ _ hcontinues' _ =>
    .pure ((hback.continues hcontinues).continues hcontinues')

theorem gives_splitOverIntervals {diskStackId : StackId}
    (hid : WhileFits (KnownIn diskStackId) history) (tid segmentDuration totalDuration : ℕ)
    (intervals : List (Containers.Interval × ℕ)) (total : ℕ) :
    Gives (Samples sources) Continues Faults
      (sources.splitOverIntervals tid segmentDuration totalDuration diskStackId intervals total)
      history fun _ _ => True := by
  induction intervals generalizing history total with
  | nil => exact .pure trivial
  | cons interval intervals ih =>
      unfold Sources.splitOverIntervals
      split
      · exact .pure trivial
      · split
        · exact .throw trivial
        · dsimp only
          refine (gives_pushOnStack hid _).bind fun stackId history₁ h₁ hname => ?_
          refine (gives_concatenateThread hname _ _).bind fun stackId history₂ h₂ hfull => ?_
          refine (gives_incrementSample hfull _).bind fun _ history₃ h₃ _ => ?_
          split
          · exact .pure trivial
          · exact ih (KnownIn.continues h₃ (KnownIn.continues h₂ (KnownIn.continues h₁ hid))) _

theorem gives_extractBlockDevice (hback : InfoKnown history back) :
    Gives (Samples sources) Continues Faults (sources.extractBlockDevice segment back) history
      fun result history' => ∀ back, result = some back → InfoKnown history' back := by
  unfold Sources.extractBlockDevice
  refine (gives_updateStack hback).bind fun back history₁ _ hback => ?_
  refine (gives_pushOnStack hback.stack _).bind fun diskStackId history₂ h₂ hid => ?_
  refine (gives_splitOverIntervals hid _ _ _ _ _).bind fun result history₃ h₃ _ => ?_
  cases result with
  | none => exact .pure fun _ h => (by cases h)
  | some total =>
      refine (gives_incrementSample (KnownIn.continues h₃ hid) _).bind fun _ history₄ h₄ _ => ?_
      refine .pure ?_
      rintro _ ⟨⟩
      exact ((hback.continues h₂).continues h₃).continues h₄

/-- A call on a path and a known stack. -/
def GivesAlways (sources : Sources) (recurse : Recursion) : Prop :=
  ∀ history path baseStackId, WhileFits (KnownIn baseStackId) history →
    Gives (Samples sources) Continues Faults (recurse path baseStackId) history fun _ _ => True

theorem gives_preemptedCallback {recurse : Recursion} (hrec : GivesAlways sources recurse)
    (fuel : ℕ) {baseStackId : StackId} (hbase : WhileFits (KnownIn baseStackId) history)
    (tid : UInt32) (start end_ : ℕ) :
    Gives (Samples sources) Continues Faults
      (sources.preemptedCallback fuel recurse baseStackId tid start end_) history
      fun _ _ => True := by
  unfold Sources.preemptedCallback
  split
  · exact .pure trivial
  · split
    · exact .throw trivial
    · exact (hrec history _ _ hbase).bind fun _ _ _ _ => .pure trivial

theorem gives_extractWaitCpu {recurse : Recursion} (hrec : GivesAlways sources recurse) (fuel : ℕ)
    (hback : InfoKnown history back) :
    Gives (Samples sources) Continues Faults
      (sources.extractWaitCpu fuel recurse segment back) history fun _ _ => True := by
  unfold Sources.extractWaitCpu
  dsimp only
  refine (gives_pushOnStack hback.cleanStack _).bind fun stackId history' _ hid => ?_
  split
  · next lastCpu hlast =>
      have hvalue : ∀ (value : UInt32 × ℕ × ℕ) (total : ℕ) {history'' : List Db.Op},
          Continues history' history'' → Gives (Samples sources) Continues Faults (do
            let duration ← sources.preemptedCallback fuel recurse stackId value.1 value.2.1
              value.2.2
            pure (addU64 total duration)) history'' fun _ _ => True :=
        fun value total _ hcontinues =>
          (gives_preemptedCallback hrec fuel (KnownIn.continues hcontinues hid) _ _ _).bind
            fun _ _ _ _ => .pure trivial
      refine (Gives.foldlM (fun value _ total _ hcontinues _ => hvalue value total hcontinues)
        trivial).bind fun total history'' h'' _ => ?_
      split
      · exact gives_incrementSample (KnownIn.continues h'' hid) _
      · exact .pure trivial
  · exact gives_incrementSample hid _

theorem gives_extractSegment {recurse : Recursion} (hrec : GivesAlways sources recurse) (fuel : ℕ)
    (hback : InfoKnown history back) :
    Gives (Samples sources) Continues Faults
      (sources.extractSegment fuel recurse segment back) history fun result history' =>
        ∀ back, result = some back → InfoKnown history' back := by
  have hkeeps : ∀ {x : ExtractM Unit},
      Gives (Samples sources) Continues Faults x history (fun _ _ => True) →
      Gives (Samples sources) Continues Faults (do
        x
        pure (some back)) history
        fun result history' => ∀ back, result = some back → InfoKnown history' back := by
    intro x hx
    refine hx.bind fun _ history' hcontinues _ => .pure ?_
    rintro _ ⟨⟩
    exact hback.continues hcontinues
  have hsome : ∀ {x : ExtractM ThreadInfo}, Gives (Samples sources) Continues Faults x history
      (fun back history' => InfoKnown history' back) → Gives (Samples sources) Continues Faults (do
        let back ← x
        pure (some back)) history
        fun result history' => ∀ back, result = some back → InfoKnown history' back := by
    intro x hx
    refine hx.bind fun back history' _ hback => .pure ?_
    rintro _ ⟨⟩
    exact hback
  unfold Sources.extractSegment
  split
  · exact hkeeps (gives_extractRun hback)
  · exact hsome (gives_extractWaitBlocked hback)
  · exact hsome (gives_extractWaitBlocked hback)
  · exact hsome (gives_extractWaitBlocked hback)
  · exact hsome (gives_extractWaitBlocked hback)
  · exact gives_extractBlockDevice hback
  · exact hkeeps (gives_extractWaitCpu hrec fuel hback)
  all_goals exact hkeeps (gives_status hback.cleanStack _ _)

theorem gives_extractPath {recurse : Recursion} (hrec : GivesAlways sources recurse) (fuel : ℕ)
    {baseStackId : StackId} (hbase : WhileFits (KnownIn baseStackId) history) (path : CriticalPath)
    {threads : List ThreadInfo} (hthreads : ∀ info ∈ threads, InfoKnown history info) :
    Gives (Samples sources) Continues Faults
      (sources.extractPath fuel recurse baseStackId path threads) history fun _ _ => True := by
  induction path generalizing history threads with
  | nil => exact .pure trivial
  | cons segment path ih =>
      unfold Sources.extractPath
      refine (gives_ensureCurrentThread hbase hthreads).bind fun found history₁ h₁ hfound => ?_
      obtain ⟨below, back⟩ := found
      obtain ⟨hbelow, hback⟩ := hfound
      dsimp only
      split
      · exact ih (KnownIn.continues h₁ hbase)
          (List.forall_mem_append.mpr ⟨hbelow, List.forall_mem_singleton.mpr hback⟩)
      · refine (gives_extractSegment hrec fuel hback).bind fun result history₂ h₂ hresult => ?_
        cases result with
        | none => exact .pure trivial
        | some back =>
            have hback := hresult back rfl
            refine (gives_concatenateThread hback.cleanStack _ _).bind
              fun stack history₃ h₃ hstack => ih (KnownIn.continues h₃
                (KnownIn.continues h₂ (KnownIn.continues h₁ hbase))) ?_
            refine List.forall_mem_append.mpr ⟨fun info hinfo => ?_, ?_⟩
            · exact ((hbelow info hinfo).continues h₂).continues h₃
            · exact List.forall_mem_singleton.mpr
                ⟨hstack, KnownIn.continues h₃ hback.cleanStack⟩

theorem gives_extractRecursive (fuel depth : ℕ) :
    GivesAlways sources (sources.extractRecursive fuel depth) := by
  induction depth with
  | zero => exact fun _ _ _ _ => .throw trivial
  | succ depth ih =>
      intro history path baseStackId hbase
      exact (gives_extractPath ih fuel hbase path fun _ hinfo => absurd hinfo List.not_mem_nil).bind
        fun _ _ _ _ => .pure trivial

theorem gives_extractStacks (sources : Sources) (fuel depth : ℕ) (path : CriticalPath) :
    Gives (Samples sources) Continues Faults (sources.extractStacks fuel depth path) history
      fun _ _ => True :=
  gives_extractPath (gives_extractRecursive fuel depth) fuel (whileFits_empty history) path
    fun _ hinfo => absurd hinfo List.not_mem_nil

end Segments

end TibeeCompare.Executions
