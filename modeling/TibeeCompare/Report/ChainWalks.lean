import TibeeCompare.Executions.StackChains
import TibeeCompare.Report.SampleTrees

/-!
The loops that walk on the chains of stacks.

`ConcatenateStacks` and `PrintStack` walk down from a stack, `EnsureStacksInMap` down from
several, and `WriteSamples` up from the empty one. On the database of a process each of them
comes to an end, and to no stack that is missing.
-/

namespace TibeeCompare.Db

open Tables

/-- The lines for a stack and those below it. -/
def printFrom : ℕ → StackId → DbM (Option (List Bytes))
  | rounds, id =>
      if id = kEmptyStackId then pure (some [])
      else
        match rounds with
        | 0 => pure none
        | rounds + 1 => do
            let step ← getStack id
            let name ← getFunctionName step.function
            let lines ← printFrom rounds step.bottom
            pure (lines.map (name :: ·))

/-- What `PrintStack` prints, or `none` where it goes on after the given number of rounds. -/
def printStack (rounds : ℕ) (id : StackId) : DbM (Option (List Bytes)) :=
  if id = kEmptyStackId then pure (some [str "<Empty>"]) else printFrom rounds id

theorem printFrom_empty (rounds : ℕ) : printFrom rounds kEmptyStackId = pure (some []) := by
  cases rounds <;> rfl

theorem printFrom_succ {id : StackId} (hne : id ≠ kEmptyStackId) (rounds : ℕ) :
    printFrom (rounds + 1) id = (do
      let step ← getStack id
      let name ← getFunctionName step.function
      let lines ← printFrom rounds step.bottom
      pure (lines.map (name :: ·))) := by
  rw [printFrom, if_neg hne]

/-- The names of a stack are printed. -/
theorem printFrom_does {t : Tables} {id : StackId} {functions : List FunctionNameId}
    (h : Spells t.stackAt id functions) {names : List Bytes}
    (hnames : List.Forall₂ (fun function name => t.nameAt function = some name) functions names)
    {rounds : ℕ} (hrounds : functions.length ≤ rounds) :
    Does (printFrom rounds id) t (.ok (some names)) t := by
  induction h generalizing names rounds with
  | empty =>
      cases hnames
      rw [printFrom_empty]
      exact Does.pure t _
  | @push id stack functions hne hat _ ih =>
      cases hnames with
      | @cons _ name _ names hname hnames =>
          obtain ⟨rounds, rfl⟩ : ∃ n, rounds = n + 1 :=
            Nat.exists_eq_succ_of_ne_zero (Nat.ne_of_gt (Nat.zero_lt_of_lt hrounds))
          have hget := getStack_does t id
          rw [Tables.stack, hat] at hget
          have hgetName := getFunctionName_does t stack.function
          rw [Tables.functionName, hname] at hgetName
          rw [printFrom_succ hne]
          refine Does.bind hget (Does.bind hgetName ?_)
          exact (ih hnames (Nat.le_of_succ_le_succ hrounds)).map _

theorem printStack_returns {db : Database} {t : Tables} (h : Represents db t)
    (hwf : t.WellFormed) {id : StackId} (hid : Known t.stackAt id) :
    ∃ lines db', (printStack (2 ^ 32) id).runOn db = (.ok (some lines), db') := by
  by_cases hempty : id = kEmptyStackId
  · rw [printStack, if_pos hempty]
    exact ⟨_, db, rfl⟩
  · obtain ⟨names, functions, hspells, hnames⟩ := exists_decodes hwf hid
    have hlength := (hwf.length_le hspells).trans id.toNat_lt.le
    obtain ⟨db', hrun, -⟩ := printFrom_does hspells hnames hlength db h
    rw [printStack, if_neg hempty]
    exact ⟨names, db', hrun⟩

end TibeeCompare.Db

namespace TibeeCompare.Executions

open Db ExtractM

/-- A stack always gets an identifier. -/
theorem addStack_returns (stack : Stack) (db : Database) :
    ∃ id db', (addStack stack).runOn db = (.ok id, db') := by
  rw [addStack, DbM.runOn_get_bind]
  cases db.store.get (.stackReverse stack) with
  | some idStr => exact ⟨_, _, rfl⟩
  | none => exact ⟨_, _, rfl⟩

theorem foldlM_addStack_returns (functions : List FunctionNameId) (id : StackId) (s : Extractor) :
    ∃ full s', (functions.foldlM (fun fullStack function =>
      liftDb (addStack ⟨function, fullStack⟩)) id).runOn s = (.ok full, s') := by
  induction functions generalizing id s with
  | nil => exact ⟨id, s, rfl⟩
  | cons function functions ih =>
      obtain ⟨next, db, hadd⟩ := addStack_returns ⟨function, id⟩ s.db
      obtain ⟨full, s', hrun⟩ := ih next { s with db }
      exact ⟨full, s', by rw [List.foldlM_cons, runOn_bind_ok (runOn_liftDb hadd), hrun]⟩

/-- The walk down from `top` comes to the empty stack. -/
theorem concatenateStacks_returns {s : Extractor} {t : Tables} (h : Good s t) (bottom : StackId)
    {top : StackId} (htop : Known t.stackAt top) :
    ∃ full s', (concatenateStacks bottom top).runOn s = (.ok full, s') := by
  by_cases hempty : top = kEmptyStackId
  · subst hempty
    exact ⟨bottom, s, rfl⟩
  · cases hcache : s.concatenationCache (bottom, top) with
    | some full => exact ⟨full, s, concatenateStacks_of_cached hempty hcache⟩
    | none =>
        obtain ⟨functions, hspells, hlength, -⟩ := h.wellFormed.exists_spells htop
        obtain ⟨db, hwalk, -⟩ := runOn_topStackFunctions hspells
          (hlength.trans top.toNat_lt.le) [] h.represents
        obtain ⟨full, s', hfold⟩ :=
          foldlM_addStack_returns (functions.reverse ++ []) bottom { s with db }
        rw [concatenateStacks_of_not_cached hempty hcache, concatenateAnew, runOn_bind_ok hwalk,
          runOn_bind_ok hfold]
        exact ⟨full, _, rfl⟩

end TibeeCompare.Executions

namespace TibeeCompare.Report

open Base Db Executions Forests

/-! ### The samples of an execution -/

theorem bind_returns {α β : Type} {x : Option α} {next : α → Option β} (hx : ∃ a, x = some a)
    (hnext : ∀ a, ∃ b, next a = some b) : ∃ b, x >>= next = some b := by
  obtain ⟨a, rfl⟩ := hx
  exact hnext a

theorem foldlM_returns {α β : Type} {step : β → α → Option β} {l : List α}
    (h : ∀ a ∈ l, ∀ b, ∃ b', step b a = some b') (b : β) : ∃ b', l.foldlM step b = some b' := by
  induction l generalizing b with
  | nil => exact ⟨b, rfl⟩
  | cons a l ih =>
      obtain ⟨b', hstep⟩ := h a List.mem_cons_self b
      rw [List.foldlM_cons, hstep]
      exact ih (fun a ha => h a (List.mem_cons_of_mem _ ha)) b'

/-- Stacks have smaller identifiers than those on top of them, so that the recursion is no
deeper than there are identifiers. -/
theorem writeSamples_returns (execution : Execution) {f : Forest StackId}
    (hbound : ∀ id, f.rank id < 2 ^ 32) {rounds : ℕ} (id : StackId)
    (hrounds : 2 ^ 32 ≤ rounds + f.rank id) :
    ∃ result, writeSamples execution f.children rounds id = some result := by
  induction rounds generalizing id with
  | zero => exact absurd (hbound id) (by omega)
  | succ rounds ih =>
      refine bind_returns (foldlM_returns (fun c hc start => ?_) (0, [])) fun all => ⟨_, rfl⟩
      have hlt := f.rank_lt (f.mem_children.mp hc)
      exact bind_returns (ih c (by omega)) fun result => ⟨_, rfl⟩

section Executions

variable {stored : StackId → Option Stack} {maps : StackMaps} {db : Database} {rounds : ℕ}

/-- All stacks of the samples of an execution are there. -/
def SamplesKnown (stored : StackId → Option Stack) (execution : Execution) : Prop :=
  ∀ entry ∈ execution.samples.entries, Known stored entry.1

theorem writeExecution_returns (hsmaller : BottomsSmaller stored) (h : Linked stored maps [])
    (hdb : storedStack db = stored) {execution : Execution} (hknown : SamplesKnown stored execution)
    (hrounds : 2 ^ 64 ≤ rounds) :
    ∃ maps' written db', (writeExecution rounds maps execution).runOn db =
      (.ok (some (maps', written)), db') ∧ storedStack db' = stored ∧ Linked stored maps' [] := by
  have hlinked : Linked stored maps (execution.samples.entries.map Prod.fst) :=
    ⟨h.stored, h.nodup, h.mem, fun id stack hstack =>
      (h.closed id stack hstack).imp_right (Or.imp_right fun hmem => absurd hmem List.not_mem_nil)⟩
  rcases ensureLoop_ends hsmaller hlinked hdb ((sum_ids_le execution).trans hrounds) with
    ⟨maps', db', hrun, hdb', hlinked', -⟩ | ⟨-, -, -, id, hmem, hne, hmissing⟩
  · have hdeep : 2 ^ 32 ≤ rounds + kEmptyStackId.toNat :=
      ((show 2 ^ 32 ≤ 2 ^ 64 by norm_num).trans hrounds).trans (Nat.le_add_right _ _)
    have hreturns : ∃ result, writeSamples execution (hlinked'.forest hsmaller).children rounds
        kEmptyStackId = some result :=
      writeSamples_returns execution (fun id => id.toNat_lt) kEmptyStackId hdeep
    obtain ⟨⟨count, sampleCalls⟩, hwrite⟩ := hreturns
    have hwrite' : writeSamples execution maps'.reverseStacks rounds kEmptyStackId =
        some (count, sampleCalls) := hwrite
    refine ⟨maps', ⟨count, sampleCalls⟩, db', ?_, hdb', hlinked'⟩
    rw [writeExecution, ensureStacksInMap, DbM.runOn_bind_ok hrun]
    simp only [hwrite']
    rfl
  · obtain ⟨entry, hentry, rfl⟩ := List.mem_map.mp hmem
    obtain ⟨stack, hstack⟩ := (hknown entry hentry).resolve_left hne
    rw [hmissing] at hstack
    cases hstack

theorem writeExecutions_returns (hsmaller : BottomsSmaller stored) (h : Linked stored maps [])
    (hdb : storedStack db = stored) {executions : List Execution}
    (hknown : ∀ execution ∈ executions, SamplesKnown stored execution)
    (hrounds : 2 ^ 64 ≤ rounds) :
    ∃ results db',
      (writeExecutions rounds maps executions).runOn db = (.ok (some results), db') := by
  induction executions generalizing maps db with
  | nil => exact ⟨[], db, rfl⟩
  | cons execution executions ih =>
      obtain ⟨maps', written, mid, hrun, hmid, hlinked⟩ :=
        writeExecution_returns hsmaller h hdb (hknown execution List.mem_cons_self) hrounds
      obtain ⟨results, db', hrest⟩ :=
        ih hlinked hmid fun other hother => hknown other (List.mem_cons_of_mem _ hother)
      refine ⟨written :: results, db', ?_⟩
      rw [writeExecutions, DbM.runOn_bind_ok hrun]
      dsimp only
      rw [DbM.runOn_bind_ok hrest]
      rfl

end Executions

/-! ### The walks of a process -/

/-- Chains go down to the empty stack, and the loops that walk on them end. -/
structure WalksEnd (s : Extractor) : Prop where
  bottoms : ∀ id stack, storedStack s.db id = some stack → stack.bottom = kEmptyStackId ∨
    stack.bottom < id ∧ ∃ below, storedStack s.db stack.bottom = some below
  concatenates : ∀ bottom top, Known (storedStack s.db) top →
    ∃ full s', (concatenateStacks bottom top).runOn s = (.ok full, s')
  prints : ∀ id, Known (storedStack s.db) id →
    ∃ lines db', (printStack (2 ^ 32) id).runOn s.db = (.ok (some lines), db')
  writes : ∀ executions : List Execution,
    (∀ execution ∈ executions, SamplesKnown (storedStack s.db) execution) →
      ∃ results db', (writeExecutions (2 ^ 64) {} executions).runOn s.db = (.ok (some results), db')

theorem walksEnd_of_good {s : Extractor} {t : Tables} (h : Good s t) : WalksEnd s := by
  have hstored := h.represents.storedStack_eq
  have hsmaller := h.wellFormed.bottomsSmaller
  constructor
  · rw [hstored]
    intro id stack hstack
    exact (h.wellFormed.known_bottom hstack).imp_right fun hbelow =>
      ⟨UInt32.lt_iff_toNat_lt.mpr (h.wellFormed.bottom_lt id stack hstack), hbelow⟩
  · rw [hstored]
    exact fun bottom top htop => concatenateStacks_returns h bottom htop
  · rw [hstored]
    exact fun id hid => printStack_returns h.represents h.wellFormed hid
  · rw [hstored]
    exact fun executions hknown =>
      writeExecutions_returns hsmaller linked_empty hstored hknown le_rfl

/-- Whatever a process calls, all stacks that it has seen are in the database, and the loops on
them end. -/
theorem walksEnd_processAfter {calls : List ProcessCall} (hseen : GivenSeen {} calls)
    (hfew : (processTables calls).FewStacks) :
    (∀ id, (processAfter calls).HasSeen id →
      Known (storedStack (processAfter calls).extractor.db) id) ∧
      WalksEnd (processAfter calls).extractor := by
  have h := sound_processAfter hseen hfew
  rw [h.good.represents.storedStack_eq]
  exact ⟨fun id => h.known, walksEnd_of_good h.good⟩

/-- A system call that gets the stack below it, and a push by the next process. -/
def callsOverRestart : List ProcessCall :=
  [.getStackIdentifier [str "read", str "main"], .concatenateStacks 2 2,
    .builder (.startSystemCall 7 (str "open")), .builder (.setTimestamp 200000),
    .builder .terminate, .builder (.setLastSystemCallStack 7 2), .restart,
    .pushOnStack 4 (str "main")]

theorem walksEnd_callsOverRestart :
    (∀ id, (processAfter callsOverRestart).HasSeen id →
      Known (storedStack (processAfter callsOverRestart).extractor.db) id) ∧
      WalksEnd (processAfter callsOverRestart).extractor := by
  have hfirst : 2 ∈ (processAfter (callsOverRestart.take 1)).returned := by decide +kernel
  have hsecond : 2 ∈ (processAfter (callsOverRestart.take 5)).returned := by decide +kernel
  have hthird : 4 ∈ (processAfter (callsOverRestart.take 7)).returned := by decide +kernel
  have hnone (s : Process) : ∀ id ∈ ([] : List StackId), s.HasSeen id := List.forall_mem_nil _
  have hone {s : Process} {id : StackId} (h : id ∈ s.returned) : ∀ other ∈ [id], s.HasSeen other :=
    fun other hother => Or.inr (Or.inl (List.mem_singleton.mp hother ▸ h))
  have hseen : GivenSeen {} callsOverRestart :=
    ⟨hnone _, List.forall_mem_cons.mpr ⟨Or.inr (Or.inl hfirst), hone hfirst⟩, hnone _, hnone _,
      hnone _, hone hsecond, hnone _, hone hthird, trivial⟩
  have hlength : (processTables callsOverRestart).stackTable.length = 7 := by decide +kernel
  exact walksEnd_processAfter hseen (by rw [Tables.FewStacks, hlength]; norm_num)

end TibeeCompare.Report
