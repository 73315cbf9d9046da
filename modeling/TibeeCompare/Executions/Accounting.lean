import TibeeCompare.Executions.Ledger
import TibeeCompare.Db.Tables

/-!
What `ExtractStacks` adds to an execution.

As long as there are identifiers left for new strings and stacks, and the stacks that the
builder has can be read, nothing that `ExtractStacks` asks of the database fails. Then its
amounts and its end are those of the ledger.
-/

namespace TibeeCompare.Executions

open Critical Db Interning Stacks

/-! ### Runs -/

namespace ExtractM

variable {α β : Type}

theorem runOn_bind_ok {x : ExtractM α} {next : α → ExtractM β} {s s' : Extractor} {a : α}
    (h : x.runOn s = (.ok a, s')) : runOn (x >>= next) s = runOn (next a) s' := by
  have hrun : x.run.run s = (Except.ok a, s') := h
  rw [runOn, ExceptT.run_bind, StateT.run_bind, hrun]
  rfl

theorem runOn_bind_error {x : ExtractM α} {next : α → ExtractM β} {s s' : Extractor}
    {e : ExtractFault} (h : x.runOn s = (.error e, s')) :
    runOn (x >>= next) s = (.error e, s') := by
  have hrun : x.run.run s = (Except.error e, s') := h
  rw [runOn, ExceptT.run_bind, StateT.run_bind, hrun]
  rfl

theorem runOn_get_bind (next : Extractor → ExtractM α) (s : Extractor) :
    runOn (get >>= next) s = runOn (next s) s := rfl

theorem runOn_liftDb {x : DbM α} {s : Extractor} {a : α} {db : Database}
    (h : x.runOn s.db = (.ok a, db)) : (liftDb x).runOn s = (.ok a, { s with db }) := by
  rw [liftDb, runOn_get_bind, h]
  rfl

end ExtractM

/-! ### Stacks that can be read -/

/-- The stack has that many functions, all of them in the table. -/
inductive Chain (table : List Stack) : StackId → ℕ → Prop
  | empty : Chain table kEmptyStackId 0
  | push {id : StackId} {stack : Stack} {n : ℕ} (hne : id ≠ kEmptyStackId)
      (hat : valueAt table id.toNat = some stack) (h : Chain table stack.bottom n) :
      Chain table id (n + 1)

/-- The stack can be read and has at most `depth` functions. -/
def Readable (table : List Stack) (depth : ℕ) (id : StackId) : Prop :=
  ∃ n ≤ depth, Chain table id n

theorem readable_empty (table : List Stack) (depth : ℕ) : Readable table depth kEmptyStackId :=
  ⟨0, Nat.zero_le depth, .empty⟩

/-- The database has the stacks of `base`, and room for `n` more strings and stacks. -/
structure HasRoom (base : List Stack) (n : ℕ) (t : Tables) : Prop where
  base : base <+: t.stackTable
  names : t.nameTable.length + n < 2 ^ 32
  stackIds : t.stackTable.length + n < 2 ^ 32

def Ready (base : List Stack) (n : ℕ) (s : Extractor) : Prop :=
  ∃ t, Represents s.db t ∧ HasRoom base n t

theorem Ready.mono {base : List Stack} {n m : ℕ} {s : Extractor} (h : Ready base n s)
    (hle : m ≤ n) :
    Ready base m s := by
  obtain ⟨t, hdb, hroom⟩ := h
  have hnames := hroom.names
  have hstacks := hroom.stackIds
  exact ⟨t, hdb, hroom.base, by omega, by omega⟩

/-- With room for `n` strings and stacks, `x` has a result with `post`, gives these amounts to
`IncrementSample`, and leaves the rest of the room. -/
def Adds {α : Type} (base : List Stack) (n : ℕ) (x : ExtractM α) (amounts : List ℕ)
    (post : Except ExtractFault α → Prop) : Prop :=
  ∀ rest s, Ready base (n + rest) s → ∃ r s', x.runOn s = (r, s') ∧
    s'.amounts = s.amounts ++ amounts ∧ Ready base rest s' ∧ post r

/-- The result is a value. -/
def Returns {α : Type} (post : α → Prop) (r : Except ExtractFault α) : Prop :=
  ∃ a, r = .ok a ∧ post a

section Rules

variable {α β : Type} {base : List Stack} {n m : ℕ}

theorem Adds.pure {post : α → Prop} (a : α) (h : post a) :
    Adds base 0 (Pure.pure a) [] (Returns post) := by
  intro rest s hs
  rw [Nat.zero_add] at hs
  exact ⟨.ok a, s, rfl, (List.append_nil _).symm, hs, a, rfl, h⟩

theorem Adds.throw (e : ExtractFault) :
    Adds base 0 (MonadExcept.throw e : ExtractM α) [] (· = .error e) := by
  intro rest s hs
  rw [Nat.zero_add] at hs
  exact ⟨.error e, s, rfl, (List.append_nil _).symm, hs, rfl⟩

theorem Adds.mono {x : ExtractM α} {amounts : List ℕ} {post post' : Except ExtractFault α → Prop}
    (h : Adds base n x amounts post) (hle : n ≤ m) (hpost : ∀ r, post r → post' r) :
    Adds base m x amounts post' := by
  intro rest s hs
  obtain ⟨r, s', hrun, hamounts, hs', hr⟩ := h (rest + (m - n)) s (hs.mono (by omega))
  exact ⟨r, s', hrun, hamounts, hs'.mono (by omega), hpost r hr⟩

theorem Adds.bind {x : ExtractM α} {next : α → ExtractM β} {amounts amounts' : List ℕ}
    {mid : α → Prop} {post : Except ExtractFault β → Prop} (h : Adds base n x amounts (Returns mid))
    (hnext : ∀ a, mid a → Adds base m (next a) amounts' post) :
    Adds base (n + m) (x >>= next) (amounts ++ amounts') post := by
  intro rest s hs
  rw [Nat.add_assoc] at hs
  obtain ⟨-, s', hrun, hamounts, hs', a, rfl, ha⟩ := h (m + rest) s hs
  obtain ⟨r, s'', hrun', hamounts', hs'', hr⟩ := hnext a ha rest s' hs'
  refine ⟨r, s'', (ExtractM.runOn_bind_ok hrun).trans hrun', ?_, hs'', hr⟩
  rw [hamounts', hamounts, List.append_assoc]

theorem Adds.bind_error {x : ExtractM α} {next : α → ExtractM β} {amounts : List ℕ}
    {e : ExtractFault}
    (h : Adds base n x amounts (· = .error e)) :
    Adds base n (x >>= next) amounts (· = .error e) := by
  intro rest s hs
  obtain ⟨-, s', hrun, hamounts, hs', rfl⟩ := h rest s hs
  exact ⟨_, s', ExtractM.runOn_bind_error hrun, hamounts, hs', rfl⟩

/-- First a step without amounts. -/
theorem Adds.seq {x : ExtractM α} {next : α → ExtractM β} {amounts : List ℕ} {mid : α → Prop}
    {post : Except ExtractFault β → Prop} (h : Adds base n x [] (Returns mid))
    (hnext : ∀ a, mid a → Adds base m (next a) amounts post) :
    Adds base (n + m) (x >>= next) amounts post := h.bind hnext

/-- Then a step without amounts. -/
theorem Adds.andThen {x : ExtractM α} {next : α → ExtractM β} {amounts : List ℕ} {mid : α → Prop}
    {post : Except ExtractFault β → Prop} (h : Adds base n x amounts (Returns mid))
    (hnext : ∀ a, mid a → Adds base m (next a) [] post) :
    Adds base (n + m) (x >>= next) amounts post := by
  rw [← List.append_nil amounts]
  exact h.bind hnext

theorem adds_pure (a : α) : Adds base 0 (Pure.pure a) [] (Returns fun _ => True) :=
  Adds.pure a trivial

theorem adds_pure_of_le (n : ℕ) (a : α) : Adds base n (Pure.pure a) [] (Returns fun _ => True) :=
  (adds_pure a).mono (Nat.zero_le n) fun _ h => h

end Rules

/-! ### Strings and stacks -/

theorem length_intern_le {α : Type} [DecidableEq α] (table : List α) (a : α) :
    (intern table a).length ≤ table.length + 1 := by
  rw [intern]
  split
  · exact Nat.le_succ _
  · exact (List.length_append ..).le

section Primitives

variable {base : List Stack} {n : ℕ}

theorem HasRoom.addName {t : Tables} (h : HasRoom base (n + 1) t) (name : Bytes) :
    (t.addName name).Fits ∧ HasRoom base n (t.addName name) := by
  have hnames := h.names
  have hstacks := h.stackIds
  have hlength : (t.addName name).nameTable.length ≤ t.nameTable.length + 1 :=
    length_intern_le t.nameTable name
  have hsame : (t.addName name).stackTable.length = t.stackTable.length := rfl
  exact ⟨⟨by omega, by omega⟩, h.base, by omega, by omega⟩

theorem HasRoom.addStack {t : Tables} (h : HasRoom base (n + 1) t) (stack : Stack) :
    (t.addStack stack).Fits ∧ HasRoom base n (t.addStack stack) := by
  have hnames := h.names
  have hstacks := h.stackIds
  have hlength : (t.addStack stack).stackTable.length ≤ t.stackTable.length + 1 :=
    length_intern_le t.stackTable stack
  have hsame : (t.addStack stack).nameTable.length = t.nameTable.length := rfl
  exact ⟨⟨by omega, by omega⟩, h.base.trans (prefix_intern t.stackTable stack), by omega, by omega⟩

theorem adds_liftDb {α : Type} {x : DbM α} {post : α → Prop}
    (h : ∀ rest t, HasRoom base (n + rest) t →
      ∃ a t', Does x t (.ok a) t' ∧ HasRoom base rest t' ∧ post a) :
    Adds base n (liftDb x) [] (Returns post) := by
  rintro rest s ⟨t, hdb, hroom⟩
  obtain ⟨a, t', hdoes, hroom', ha⟩ := h rest t hroom
  obtain ⟨db', hrun, hdb'⟩ := hdoes s.db hdb
  exact ⟨.ok a, _, ExtractM.runOn_liftDb hrun, (List.append_nil _).symm, ⟨t', hdb', hroom'⟩, a,
    rfl, ha⟩

theorem adds_addStack (stack : Stack) :
    Adds base 1 (liftDb (addStack stack)) [] (Returns fun _ => True) := by
  refine adds_liftDb fun rest t hroom => ?_
  rw [Nat.add_comm] at hroom
  obtain ⟨hfits, hroom'⟩ := hroom.addStack stack
  exact ⟨_, _, addStack_does hfits, hroom', trivial⟩

theorem adds_pushOnStack (bottom : StackId) (function : Bytes) :
    Adds base 2 (pushOnStack bottom function) [] (Returns fun _ => True) := by
  refine adds_liftDb fun rest t hroom => ?_
  rw [Nat.add_comm] at hroom
  obtain ⟨hfits, hroom'⟩ := HasRoom.addName (n := rest + 1) hroom function
  obtain ⟨hfits', hroom''⟩ := hroom'.addStack ⟨(t.addName function).nameId function, bottom⟩
  exact ⟨_, _, Does.bind (addFunctionName_does hfits) (addStack_does hfits'), hroom'', trivial⟩

theorem adds_getStack {id : StackId} {stack : Stack} (hat : valueAt base id.toNat = some stack) :
    Adds base 0 (liftDb (Db.getStack id)) [] (Returns (· = stack)) := by
  refine adds_liftDb fun rest t hroom => ?_
  rw [Nat.zero_add] at hroom
  have hstack : t.stack id = .ok stack := by
    rw [Tables.stack, Tables.stackAt, valueAt_of_grown hroom.base hat]
  exact ⟨stack, t, hstack ▸ getStack_does t id, hroom, rfl⟩

theorem adds_incrementSample (stackId : StackId) (value : ℕ) :
    Adds base 0 (incrementSample stackId value) [value] (Returns fun _ => True) := by
  intro rest s hs
  rw [Nat.zero_add] at hs
  exact ⟨.ok (), _, rfl, rfl, hs, (), rfl, trivial⟩

theorem topStackFunctions_empty (rounds : ℕ) (functions : List FunctionNameId) :
    topStackFunctions rounds kEmptyStackId functions = pure functions := by
  cases rounds <;> rfl

theorem topStackFunctions_succ {top : StackId} (hne : top ≠ kEmptyStackId) (rounds : ℕ)
    (functions : List FunctionNameId) :
    topStackFunctions (rounds + 1) top functions = liftDb (Db.getStack top) >>= fun step =>
      topStackFunctions rounds step.bottom (step.function :: functions) := by
  rw [topStackFunctions.eq_def]
  exact if_neg hne

theorem adds_topStackFunctions {top : StackId} (h : Chain base top n) {rounds : ℕ}
    (hrounds : n ≤ rounds)
    (functions : List FunctionNameId) :
    Adds base 0 (topStackFunctions rounds top functions) []
      (Returns fun all => all.length = functions.length + n) := by
  induction h generalizing rounds functions with
  | empty =>
      rw [topStackFunctions_empty]
      exact .pure functions rfl
  | @push id stack n hne hat _ ih =>
      obtain ⟨rounds, rfl⟩ : ∃ k, rounds = k + 1 := ⟨rounds - 1, by omega⟩
      rw [topStackFunctions_succ hne]
      refine (adds_getStack hat).seq (m := 0) ?_
      rintro step rfl
      refine (ih (by omega) (step.function :: functions)).mono le_rfl ?_
      rintro _ ⟨all, rfl, hlength⟩
      exact ⟨all, rfl, hlength.trans (by rw [List.length_cons]; omega)⟩

theorem adds_foldlM_addStack (functions : List FunctionNameId) (bottom : StackId) :
    Adds base functions.length (functions.foldlM (fun fullStack function =>
      liftDb (addStack ⟨function, fullStack⟩)) bottom) [] (Returns fun _ => True) := by
  induction functions generalizing bottom with
  | nil => exact .pure bottom trivial
  | cons function functions ih =>
      rw [List.foldlM_cons, List.length_cons, Nat.add_comm]
      exact (adds_addStack _).seq fun fullStack _ => ih fullStack

theorem adds_modifyCache (cache : Extractor → StackId × StackId → Option StackId) :
    Adds base 0 (modify fun s => { s with concatenationCache := cache s }) []
      (Returns fun _ => True) := by
  intro rest s hs
  rw [Nat.zero_add] at hs
  exact ⟨.ok ⟨⟩, _, rfl, (List.append_nil _).symm, hs, ⟨⟩, rfl, trivial⟩

/-- What `concatenateStacks` does for a stack that is not in the cache. -/
def concatenateAnew (bottom top : StackId) : ExtractM StackId := do
  let functions ← topStackFunctions (2 ^ 32) top []
  let fullStack ← functions.foldlM (fun fullStack function =>
    liftDb (addStack ⟨function, fullStack⟩)) bottom
  modify fun s => { s with
    concatenationCache := Function.update s.concatenationCache (bottom, top) (some fullStack) }
  pure fullStack

theorem concatenateStacks_of_cached {bottom top fullStack : StackId} {s : Extractor}
    (hne : top ≠ kEmptyStackId) (hcache : s.concatenationCache (bottom, top) = some fullStack) :
    (concatenateStacks bottom top).runOn s = (.ok fullStack, s) := by
  rw [concatenateStacks, if_neg hne, ExtractM.runOn_get_bind, hcache]
  rfl

theorem concatenateStacks_of_not_cached {bottom top : StackId} {s : Extractor}
    (hne : top ≠ kEmptyStackId) (hcache : s.concatenationCache (bottom, top) = none) :
    (concatenateStacks bottom top).runOn s = (concatenateAnew bottom top).runOn s := by
  rw [concatenateStacks, if_neg hne, ExtractM.runOn_get_bind, hcache]
  rfl

theorem adds_concatenateAnew (bottom : StackId) {top : StackId} (h : Chain base top n)
    (hn : n ≤ 2 ^ 32) :
    Adds base n (concatenateAnew bottom top) [] (Returns fun _ => True) := by
  rw [← Nat.zero_add n]
  refine (adds_topStackFunctions h hn []).seq fun functions hlength => ?_
  rw [List.length_nil, Nat.zero_add] at hlength
  subst hlength
  refine (adds_foldlM_addStack functions bottom).seq (m := 0) fun fullStack _ => ?_
  exact (adds_modifyCache _).seq (m := 0) fun _ _ => adds_pure fullStack

theorem adds_concatenateStacks (bottom : StackId) {top : StackId} {depth : ℕ}
    (hdepth : depth ≤ 2 ^ 32) (h : Readable base depth top) :
    Adds base depth (concatenateStacks bottom top) [] (Returns fun _ => True) := by
  obtain ⟨n, hn, hchain⟩ := h
  by_cases hempty : top = kEmptyStackId
  · rw [concatenateStacks, if_pos hempty]
    exact adds_pure_of_le depth bottom
  · intro rest s hs
    cases hcache : s.concatenationCache (bottom, top) with
    | some fullStack =>
        rw [concatenateStacks_of_cached hempty hcache]
        exact ⟨.ok fullStack, s, rfl, (List.append_nil _).symm, hs.mono (by omega), fullStack, rfl,
          trivial⟩
    | none =>
        have hread := adds_concatenateAnew bottom hchain (hn.trans hdepth)
        rw [concatenateStacks_of_not_cached hempty hcache]
        exact hread.mono (by omega) (fun _ h => h) rest s hs

end Primitives

/-! ### Segments -/

/-- The stacks of the builder can be read, and have at most `depth` functions. -/
def AllReadable (base : List Stack) (depth : ℕ) (b : StacksBuilder) : Prop :=
  ∀ thread, ∀ e ∈ b.stacksOf thread, Readable base depth e.stackId

section Segments

variable {base : List Stack} {depth : ℕ} {sources : Sources}

theorem AllReadable.getStack {b : StacksBuilder} (h : AllReadable base depth b) (thread ts : ℕ) :
    Readable base depth (b.getStack thread ts) := by
  rw [StacksBuilder.getStack]
  split
  · exact readable_empty base depth
  · next e he =>
      split
      · exact h thread e (List.mem_of_getElem? he)
      · exact readable_empty base depth

theorem AllReadable.enumerateStacks {b : StacksBuilder} (h : AllReadable base depth b)
    (thread start end_ : ℕ) : ∀ sample ∈ b.enumerateStacks thread start end_,
      Readable base depth sample.1 := by
  intro sample hsample
  obtain ⟨e, he, rfl⟩ := List.mem_map.mp hsample
  exact h thread e (List.mem_of_mem_drop ((List.takeWhile_prefix _).subset he))

variable (hdepth : depth ≤ 2 ^ 32) (hreadable : AllReadable base depth sources.stacksBuilder)

include hdepth hreadable in
theorem adds_getStackOn (bottom : StackId) (thread ts : ℕ) :
    Adds base depth (concatenateStacks bottom (sources.stacksBuilder.getStack thread ts)) []
      (Returns fun _ => True) :=
  adds_concatenateStacks bottom hdepth (hreadable.getStack thread ts)

include hdepth hreadable in
theorem adds_ensureCurrentThread (segment : CriticalPathSegment) (baseStackId : StackId)
    (threads : List ThreadInfo) :
    Adds base (2 + depth) (sources.ensureCurrentThread segment baseStackId threads) []
      (Returns fun _ => True) := by
  have hstack : ∀ (below : List ThreadInfo) (back : ThreadInfo), Adds base depth (do
      let stack ← concatenateStacks back.cleanStack
        (sources.stacksBuilder.getStack segment.tid segment.endTs)
      Pure.pure (below, { back with stack })) [] (Returns fun _ => True) := fun below back =>
    (adds_getStackOn hdepth hreadable _ _ _).seq (m := 0) fun stack _ => .pure _ trivial
  rw [Sources.ensureCurrentThread]
  cases threads.find? (·.tid = segment.tid) with
  | some thread =>
      exact ((adds_pure thread).seq fun back _ => hstack _ back).mono (by omega) fun _ h => h
  | none =>
      refine (adds_pushOnStack _ _).seq fun cleanStack _ => ?_
      rw [← Nat.zero_add depth]
      exact (adds_pure _).seq fun back _ => hstack _ back

include hdepth hreadable in
theorem adds_updateStack (segment : CriticalPathSegment) (back : ThreadInfo) :
    Adds base depth (sources.updateStack segment back) [] (Returns fun _ => True) := by
  rw [Sources.updateStack]
  split
  · exact (adds_getStackOn hdepth hreadable _ _ _).seq (m := 0) fun stack _ => .pure _ trivial
  · exact adds_pure_of_le depth back

theorem adds_pushAndIncrement (bottom : StackId) (function : Bytes) (value : ℕ) :
    Adds base 2 (do
      let stackId ← pushOnStack bottom function
      incrementSample stackId value) [value] (Returns fun _ => True) :=
  (adds_pushOnStack bottom function).seq (m := 0) fun stackId _ =>
    adds_incrementSample stackId value

include hdepth in
theorem adds_samples (back : ThreadInfo) (samples : List (StackId × ℕ))
    (h : ∀ sample ∈ samples, Readable base depth sample.1) :
    Adds base (samples.length * depth)
      (samples.forM fun sample => sampleCallback back sample.1 sample.2) (samples.map Prod.snd)
      (Returns fun _ => True) := by
  induction samples with
  | nil =>
      rw [List.length_nil, Nat.zero_mul]
      exact .pure () trivial
  | cons sample samples ih =>
      have hfirst : Adds base depth (sampleCallback back sample.1 sample.2) [sample.2]
          (Returns fun _ => True) :=
        (adds_concatenateStacks _ hdepth (h sample List.mem_cons_self)).seq (m := 0)
          fun stackId _ => adds_incrementSample stackId sample.2
      rw [List.forM_eq_forM] at ih ⊢
      rw [List.forM_cons, List.length_cons, Nat.succ_mul, Nat.add_comm]
      exact hfirst.bind fun _ _ => ih fun other hmem => h other (List.mem_cons_of_mem _ hmem)

include hdepth hreadable in
theorem adds_extractRun (segment : CriticalPathSegment) (back : ThreadInfo) :
    Adds base ((sources.stacksBuilder.enumerateStacks segment.tid segment.startTs
        segment.endTs).length * depth + 2)
      (sources.extractRun segment back)
      (runAmounts (segmentDuration segment) ((sources.stacksBuilder.enumerateStacks segment.tid
        segment.startTs segment.endTs).map Prod.snd)) (Returns fun _ => True) := by
  rw [Sources.extractRun, runAmounts]
  refine (adds_samples hdepth back _ (hreadable.enumerateStacks _ _ _)).bind fun _ _ => ?_
  generalize sumU64 ((sources.stacksBuilder.enumerateStacks segment.tid segment.startTs
    segment.endTs).map Prod.snd) = total
  rw [← segmentDuration]
  by_cases hlt : total < segmentDuration segment
  · rw [if_pos hlt, if_pos hlt]
    exact adds_pushAndIncrement _ _ _
  · rw [if_neg hlt, if_neg hlt]
    exact adds_pure_of_le 2 ()

include hdepth hreadable in
theorem adds_extractWaitBlocked (segment : CriticalPathSegment) (back : ThreadInfo) :
    Adds base (depth + 2) (sources.extractWaitBlocked segment back) [segmentDuration segment]
      (Returns fun _ => True) := by
  rw [Sources.extractWaitBlocked]
  refine (adds_updateStack hdepth hreadable segment back).seq fun back _ => ?_
  refine (adds_pushOnStack _ _).seq (m := 0) fun stackId _ => ?_
  exact (adds_incrementSample stackId _).andThen (m := 0) fun _ _ => adds_pure back

/-- What the loop over the intervals returns or throws, for an end of the split. -/
def SplitEnds (d : ℕ) : SplitEnding → Except ExtractFault (Option ℕ) → Prop
  | .finished remainder => Returns fun total => ∃ t, total = some t ∧ remainder = subU64 d t
  | .returned => Returns (· = none)
  | .divisionByZero => (· = .error .divisionByZero)

include hdepth hreadable in
theorem adds_splitOverIntervals (tid d totalDuration : ℕ) (diskStackId : StackId)
    (intervals : List DiskInterval) (total : ℕ) :
    Adds base (intervals.length * (2 + depth))
      (sources.splitOverIntervals tid d totalDuration diskStackId intervals total)
      ((split tid d totalDuration intervals total).1.map fun _ => d)
      (SplitEnds d (split tid d totalDuration intervals total).2) := by
  induction intervals generalizing total with
  | nil =>
      rw [Sources.splitOverIntervals, split, List.length_nil, Nat.zero_mul]
      exact .pure _ ⟨total, rfl, rfl⟩
  | cons interval intervals ih =>
      rw [Sources.splitOverIntervals, split, List.length_cons, Nat.succ_mul, Nat.add_comm]
      by_cases hown : interval.2 = tid
      · rw [if_pos hown, if_pos hown]
        have hreturn : Adds base 0 (pure none) [] (SplitEnds d .returned) := .pure none rfl
        exact hreturn.mono (Nat.zero_le _) fun _ h => h
      by_cases hzero : totalDuration = 0
      · rw [if_neg hown, if_pos hzero, if_neg hown, if_pos hzero]
        exact (Adds.throw .divisionByZero).mono (Nat.zero_le _) fun _ h => h
      rw [if_neg hown, if_neg hzero, if_neg hown, if_neg hzero]
      dsimp only
      generalize addU64 total (stackDuration d (durationOf interval) totalDuration total) = total'
      rw [Nat.add_assoc]
      refine (adds_pushOnStack _ _).seq fun stackId _ => ?_
      refine (adds_getStackOn hdepth hreadable _ _ _).seq fun stackId _ => ?_
      by_cases hfull : d ≤ total'
      · rw [if_pos hfull, if_pos hfull]
        refine ((adds_incrementSample stackId d).andThen (m := 0) fun _ _ => ?_).mono
          (Nat.zero_le _) fun _ h => h
        exact .pure _ ⟨total', rfl, rfl⟩
      · rw [if_neg hfull, if_neg hfull, ← Nat.zero_add (intervals.length * _)]
        exact (adds_incrementSample stackId d).bind fun _ _ => ih total'

/-- What the samples of a segment return or throw, for an end of `ExtractStacks`. -/
def SegmentEnds : Ending → Except ExtractFault (Option ThreadInfo) → Prop
  | .done => Returns fun back => ∃ thread, back = some thread
  | .returned => Returns (· = none)
  | .divisionByZero => (· = .error .divisionByZero)

include hdepth hreadable in
theorem adds_extractBlockDevice (segment : CriticalPathSegment) (back : ThreadInfo) :
    Adds base (depth + (2 + (sources.diskRequests.getIntervals segment.startTs
        segment.endTs).length * (2 + depth)))
      (sources.extractBlockDevice segment back)
      (diskAmounts (segmentDuration segment) (splitSegment segment.tid (segmentDuration segment)
        (sources.diskRequests.getIntervals segment.startTs segment.endTs))).1
      (SegmentEnds (diskAmounts (segmentDuration segment) (splitSegment segment.tid
        (segmentDuration segment)
        (sources.diskRequests.getIntervals segment.startTs segment.endTs))).2) := by
  rw [Sources.extractBlockDevice]
  refine (adds_updateStack hdepth hreadable segment back).seq fun back _ => ?_
  refine (adds_pushOnStack _ _).seq fun diskStackId _ => ?_
  dsimp only
  generalize sources.diskRequests.getIntervals segment.startTs segment.endTs = intervals
  rw [← segmentDuration, splitSegment]
  have hloop := adds_splitOverIntervals hdepth hreadable segment.tid (segmentDuration segment)
    (intervalsTotalDuration segment.tid intervals) diskStackId intervals 0
  generalize split segment.tid (segmentDuration segment)
    (intervalsTotalDuration segment.tid intervals) intervals 0 = result at hloop ⊢
  rcases result with ⟨durations, remainder | _ | _⟩
  · refine hloop.bind (m := 0) ?_
    rintro _ ⟨total, rfl, rfl⟩
    exact (adds_incrementSample diskStackId _).andThen (m := 0) fun _ _ => .pure _ ⟨back, rfl⟩
  · refine hloop.andThen (m := 0) ?_
    rintro _ rfl
    exact .pure none rfl
  · exact hloop.bind_error

/-- The room that the samples of a segment take. -/
def segmentWork (sources : Sources) (depth : ℕ) (segment : CriticalPathSegment) : ℕ :=
  ((sources.stacksBuilder.enumerateStacks segment.tid segment.startTs segment.endTs).length +
    (sources.diskRequests.getIntervals segment.startTs segment.endTs).length + 1) * (2 + depth)

theorem le_segmentWork (sources : Sources) (depth : ℕ) (segment : CriticalPathSegment) :
    (sources.stacksBuilder.enumerateStacks segment.tid segment.startTs segment.endTs).length *
        depth + 2 ≤ segmentWork sources depth segment ∧
      depth + (2 + (sources.diskRequests.getIntervals segment.startTs segment.endTs).length *
        (2 + depth)) ≤ segmentWork sources depth segment := by
  rw [segmentWork, Nat.add_mul, Nat.add_mul, Nat.one_mul]
  generalize (sources.stacksBuilder.enumerateStacks segment.tid segment.startTs
    segment.endTs).length = samples
  have hle : samples * depth ≤ samples * (2 + depth) := Nat.mul_le_mul_left samples (by omega)
  omega

include hdepth hreadable in
theorem adds_extractSegment (fuel : ℕ) (recurse : Recursion) (segment : CriticalPathSegment)
    (hwait : segment.type ≠ .waitCpu) (hepsilon : segment.type ≠ .epsilon) (back : ThreadInfo) :
    Adds base (segmentWork sources depth segment)
      (sources.extractSegment fuel recurse segment back) (sources.segmentAmounts segment).1
      (SegmentEnds (sources.segmentAmounts segment).2) := by
  obtain ⟨hsamples, hintervals⟩ := le_segmentWork sources depth segment
  have hdone : ∀ {n : ℕ} {x : ExtractM Unit} {amounts : List ℕ} (back : ThreadInfo),
      n ≤ segmentWork sources depth segment → Adds base n x amounts (Returns fun _ => True) →
      Adds base (segmentWork sources depth segment) (x >>= fun _ => pure (some back)) amounts
        (SegmentEnds .done) := fun back hle h =>
    (h.andThen (m := 0) fun _ _ => .pure _ ⟨back, rfl⟩).mono hle fun _ h => h
  have hblocked : Adds base (segmentWork sources depth segment)
      (sources.extractWaitBlocked segment back >>= fun back => pure (some back))
      [segmentDuration segment] (SegmentEnds .done) := by
    refine ((adds_extractWaitBlocked hdepth hreadable segment back).andThen (m := 0)
      fun back _ => .pure _ ⟨back, rfl⟩).mono (by omega) fun _ h => h
  rw [Sources.extractSegment, Sources.segmentAmounts]
  cases htype : segment.type with
  | epsilon => exact absurd htype hepsilon
  | waitCpu => exact absurd htype hwait
  | run => exact hdone back (by omega) (adds_extractRun hdepth hreadable segment back)
  | blockDevice =>
      exact (adds_extractBlockDevice hdepth hreadable segment back).mono (by omega) fun _ h => h
  | waitBlocked => exact hblocked
  | timer => exact hblocked
  | network => exact hblocked
  | userInput => exact hblocked
  | unknown => exact hdone back (by omega) (adds_pushAndIncrement _ _ _)
  | vertical => exact hdone back (by omega) (adds_pushAndIncrement _ _ _)
  | interrupted => exact hdone back (by omega) (adds_pushAndIncrement _ _ _)

/-! ### Paths -/

/-- The room that a path takes. -/
def pathWork (sources : Sources) (depth : ℕ) (path : CriticalPath) : ℕ :=
  (path.map fun segment => 2 + depth + (segmentWork sources depth segment + depth)).sum

/-- What `extractPath` leaves or throws, for an end of `ExtractStacks`. -/
def PathEnds : Ending → Except ExtractFault CriticalPath → Prop
  | .done => Returns (· = [])
  | .returned => Returns (· ≠ [])
  | .divisionByZero => (· = .error .divisionByZero)

include hdepth hreadable in
theorem adds_extractPath (fuel : ℕ) (recurse : Recursion) (baseStackId : StackId)
    {path : CriticalPath} (hwait : ∀ segment ∈ path, segment.type ≠ .waitCpu)
    (threads : List ThreadInfo) :
    Adds base (pathWork sources depth path)
      (sources.extractPath fuel recurse baseStackId path threads) (sources.pathAmounts path).1
      (PathEnds (sources.pathAmounts path).2) := by
  induction path generalizing threads with
  | nil => exact .pure [] rfl
  | cons segment path ih =>
      have ih := ih fun other hmem => hwait other (List.mem_cons_of_mem _ hmem)
      rw [Sources.extractPath, Sources.pathAmounts, pathWork, List.map_cons, List.sum_cons,
        ← pathWork, Nat.add_assoc]
      refine (adds_ensureCurrentThread hdepth hreadable segment baseStackId threads).seq ?_
      rintro ⟨below, back⟩ -
      dsimp only
      by_cases hepsilon : segment.type = .epsilon
      · have hamounts : sources.segmentAmounts segment = ([], .done) := by
          rw [Sources.segmentAmounts, hepsilon]
        rw [if_pos hepsilon, hamounts]
        exact (ih _).mono (Nat.le_add_left _ _) fun _ h => h
      · rw [if_neg hepsilon, Nat.add_assoc]
        have hsegment := adds_extractSegment hdepth hreadable fuel recurse segment
          (hwait segment List.mem_cons_self) hepsilon back
        generalize sources.segmentAmounts segment = result at hsegment ⊢
        rcases result with ⟨amounts, _ | _ | _⟩
        · refine hsegment.bind ?_
          rintro _ ⟨back, rfl⟩
          exact (adds_getStackOn hdepth hreadable _ _ _).seq fun stack _ => ih _
        · refine (hsegment.andThen (m := 0) ?_).mono (by omega) fun _ h => h
          rintro _ rfl
          exact .pure _ (List.cons_ne_nil segment path)
        · exact hsegment.bind_error.mono (by omega) fun _ h => h

end Segments

/-! ### The account -/

/-- The durations of the segments of a path, without epsilons. -/
def nonEpsilonDuration (path : CriticalPath) : ℕ :=
  ((path.filter (·.type ≠ .epsilon)).map fun segment => segment.endTs - segment.startTs).sum

/-- `ExtractStacks` comes to the end of the path, with amounts that are its duration. -/
def Accounts (sources : Sources) (fuel depth : ℕ) (path : CriticalPath) (s : Extractor) : Prop :=
  ∃ s', (sources.extractStacks fuel depth path).runOn s = (.ok [], s') ∧
    s'.amounts.sum = s.amounts.sum + nonEpsilonDuration path

/-- The database has the stacks of the builder, and room for what the path takes. -/
def Prepared (sources : Sources) (path : CriticalPath) (s : Extractor) : Prop :=
  ∃ t stackDepth, Represents s.db t ∧ stackDepth ≤ 2 ^ 32 ∧
    AllReadable t.stackTable stackDepth sources.stacksBuilder ∧
    t.nameTable.length + pathWork sources stackDepth path < 2 ^ 32 ∧
    t.stackTable.length + pathWork sources stackDepth path < 2 ^ 32

theorem sum_due {path : CriticalPath} (h : ∀ segment ∈ path, segment.startTs ≤ segment.endTs) :
    (path.map due).sum = nonEpsilonDuration path := by
  rw [nonEpsilonDuration]
  induction path with
  | nil => rfl
  | cons segment path ih =>
      have ih := ih fun other hmem => h other (List.mem_cons_of_mem _ hmem)
      have hduration : segmentDuration segment = segment.endTs - segment.startTs :=
        subU64_of_le (h segment List.mem_cons_self)
      rw [List.map_cons, List.sum_cons, ih, due]
      by_cases hepsilon : segment.type = .epsilon
      · rw [if_pos hepsilon, List.filter_cons_of_neg (by simpa using hepsilon), Nat.zero_add]
      · rw [if_neg hepsilon, List.filter_cons_of_pos (by simpa using hepsilon), List.map_cons,
          List.sum_cons, hduration]

/-- On a path without segments that wait for a processor, the amounts are the durations exactly if
the samples of no segment are more than it, and the first interval takes all of each segment that
waits for a disk. -/
theorem accounts_iff {sources : Sources} {path : CriticalPath} {s : Extractor}
    (hprepared : Prepared sources path s) (hwait : ∀ segment ∈ path, segment.type ≠ .waitCpu)
    (hsegments : ∀ segment ∈ path, segment.startTs ≤ segment.endTs ∧ segment.endTs < U64)
    (fuel depth : ℕ) :
    Accounts sources fuel depth path s ↔ ∀ segment ∈ path, sources.Accounted segment := by
  obtain ⟨t, stackDepth, hdb, hdepth, hreadable, hnames, hstacks⟩ := hprepared
  have hready : Ready t.stackTable (pathWork sources stackDepth path + 0) s :=
    ⟨t, hdb, List.prefix_rfl, by omega, by omega⟩
  obtain ⟨r, s', hrun, hamounts, -, hends⟩ := adds_extractPath hdepth hreadable fuel
    (sources.extractRecursive fuel depth) kEmptyStackId hwait [] 0 s hready
  have hdurations : ∀ segment ∈ path, segmentDuration segment < U64 := by
    intro segment hmem
    have hbounds := hsegments segment hmem
    rw [segmentDuration, subU64_of_le hbounds.1]
    omega
  have hledger := ledger_pathAmounts sources hdurations
  rw [sum_due fun segment hmem => (hsegments segment hmem).1] at hledger
  rw [← hledger.exact_iff, Accounts, Sources.extractStacks, hrun]
  generalize sources.pathAmounts path = result at hamounts hends ⊢
  rcases result with ⟨amounts, _ | _ | _⟩
  · obtain ⟨-, rfl, rfl⟩ := hends
    constructor
    · rintro ⟨_, ⟨⟩, hsum⟩
      rw [hamounts, List.sum_append] at hsum
      exact ⟨rfl, Nat.add_left_cancel hsum⟩
    · rintro ⟨-, hsum⟩
      exact ⟨s', rfl, by rw [hamounts, List.sum_append, hsum]⟩
  · obtain ⟨left, rfl, hleft⟩ := hends
    refine iff_of_false ?_ fun h => (by cases h.1)
    rintro ⟨_, ⟨⟩, -⟩
    exact hleft rfl
  · obtain rfl := hends
    refine iff_of_false ?_ fun h => (by cases h.1)
    rintro ⟨_, ⟨⟩, -⟩

/-- Nothing has a name. -/
def nameless : CurrentState := ⟨fun _ => [], fun _ => 0, fun _ => 0⟩

/-- A thread with two stacks, and disk intervals. -/
def onDisk (requests : List Disk.Op) : Sources where
  stacksBuilder := { stacksOf := fun thread =>
    if thread = 1 then [⟨kEmptyStackId, 0, 4, false, false⟩, ⟨kEmptyStackId, 4, 30, true, false⟩]
    else [] }
  graph := .empty
  stateHistory := {}
  diskRequests := Disk.after requests
  currentState := nameless

theorem allReadable_onDisk (requests : List Disk.Op) :
    AllReadable [] 0 (onDisk requests).stacksBuilder := by
  intro thread e he
  have hid : e.stackId = kEmptyStackId := by
    rw [onDisk] at he
    dsimp only at he
    split at he
    · simp only [List.mem_cons, List.not_mem_nil, or_false] at he
      rcases he with rfl | rfl <;> rfl
    · cases he
  rw [hid]
  exact readable_empty [] 0

/-- A path of five kinds of segments, and one other thread on the disk. -/
theorem accounts_iff_oneOtherThread :
    Accounts (onDisk [.addInterval 10 20 2]) 0 0
        [⟨0, 10, 1, .run⟩, ⟨10, 20, 1, .blockDevice⟩, ⟨20, 20, 2, .epsilon⟩, ⟨20, 30, 1, .timer⟩,
          ⟨30, 31, 1, .interrupted⟩] { db := {} } ↔
      ∀ segment ∈ [⟨0, 10, 1, .run⟩, ⟨10, 20, 1, .blockDevice⟩, ⟨20, 20, 2, .epsilon⟩,
        ⟨20, 30, 1, .timer⟩, ⟨30, 31, 1, .interrupted⟩],
        (onDisk [.addInterval 10 20 2]).Accounted segment :=
  accounts_iff ⟨{}, 0, represents_empty, by decide, allReadable_onDisk _, by decide, by decide⟩
    (by decide) (by decide) 0 0

/-- Two other threads wait for the disk as long as the segment: it is counted twice. -/
theorem not_accounts_twoOtherThreads :
    ¬ Accounts (onDisk [.addInterval 0 10 2, .addInterval 0 10 3]) 0 0 [⟨0, 10, 1, .blockDevice⟩]
      { db := {} } := by
  rintro ⟨s', hrun, hsum⟩
  have hamounts : (((onDisk [.addInterval 0 10 2, .addInterval 0 10 3]).extractStacks 0 0
      [⟨0, 10, 1, .blockDevice⟩]).runOn { db := {} }).2.amounts = [10, 10, 0] := by decide +kernel
  rw [hrun] at hamounts
  dsimp only at hamounts
  rw [hamounts] at hsum
  exact absurd hsum (by decide)

end TibeeCompare.Executions
