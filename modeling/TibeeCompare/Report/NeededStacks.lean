import TibeeCompare.Db.Enumeration
import TibeeCompare.Report.SampleTrees
import TibeeCompare.Report.TibeeReport

/-!
Which stacks are in the maps at the end of a report: those that a sample is of, and all that are
below them.
-/

namespace TibeeCompare.Report

open Base Db Forests

/-! ### Paths of stacks -/

section Paths

variable {stored : StackId → Option Stack}

theorem stackPath_eq (hsmaller : BottomsSmaller stored) {id : StackId} {stack : Stack}
    (hid : id ≠ kEmptyStackId) (hstack : stored id = some stack) :
    stackPath stored id = id :: stackPath stored stack.bottom := by
  have hbottom : bottomOf stored id = some stack.bottom := by
    rw [bottomOf, if_neg hid, hstack]
    rfl
  have hlt := hsmaller.bottom_lt hid hstack
  rw [stackPath]
  cases hn : id.toNat with
  | zero => omega
  | succ n =>
      rw [pathTo, hbottom]
      exact congrArg (id :: ·) (pathTo_eq hsmaller.bottomOf_lt (by omega) (Nat.le_refl _))

theorem mem_stackPath_self (stored : StackId → Option Stack) (id : StackId) :
    id ∈ stackPath stored id := by
  rw [stackPath]
  cases id.toNat with
  | zero => exact List.mem_singleton.mpr rfl
  | succ n => exact List.mem_cons_self

theorem stackPath_of_none {id : StackId} (h : bottomOf stored id = none) :
    stackPath stored id = [id] := by
  rw [stackPath]
  cases id.toNat with
  | zero => rfl
  | succ n => rw [pathTo, h]

/-- A path goes on below each of its stacks. -/
theorem bottom_mem_stackPath (hsmaller : BottomsSmaller stored) {id top : StackId} {stack : Stack}
    (hid : id ≠ kEmptyStackId) (hstack : stored id = some stack)
    (hmem : id ∈ stackPath stored top) : stack.bottom ∈ stackPath stored top := by
  induction hn : top.toNat using Nat.strong_induction_on generalizing top with
  | _ n ih =>
      by_cases hsame : id = top
      · subst hsame
        rw [stackPath_eq hsmaller hid hstack]
        exact List.mem_cons_of_mem _ (mem_stackPath_self _ _)
      · cases hbottom : bottomOf stored top with
        | none =>
            rw [stackPath_of_none hbottom, List.mem_singleton] at hmem
            exact absurd hmem hsame
        | some below =>
            have hlt := hsmaller.bottomOf_lt top below hbottom
            rw [bottomOf] at hbottom
            split at hbottom
            · cases hbottom
            · next htop =>
                obtain ⟨stack', hat, rfl⟩ := Option.map_eq_some_iff.mp hbottom
                rw [stackPath_eq hsmaller htop hat] at hmem ⊢
                have hrest := (List.mem_cons.mp hmem).resolve_left hsame
                exact List.mem_cons_of_mem _ (ih _ (hn ▸ hlt) hrest rfl)

end Paths

/-- A stack that a sample is of, or one below it. -/
def Needed (stored : StackId → Option Stack) (executions : List Execution) (id : StackId) : Prop :=
  id ≠ kEmptyStackId ∧ ∃ execution ∈ executions, ∃ entry ∈ execution.samples.entries,
    id ∈ stackPath stored entry.1

/-! ### What is put into the maps -/

section Loop

variable {t : Tables} {maps maps' : StackMaps} {db db' : Database}

theorem represents_getStack (h : Represents db t) {id : StackId} {stack : Stack}
    (hget : (getStack id).runOn db = (.ok stack, db')) : Represents db' t := by
  obtain ⟨mid, hrun, hmid⟩ := getStack_does t id db h
  rw [hget] at hrun
  exact (Prod.mk.inj hrun).2 ▸ hmid

/-- The loop leaves the tables, and a stack that is new in the maps is on the path of one on the
list. -/
theorem ensureLoop_below (hsmaller : BottomsSmaller t.stackAt) {rounds : ℕ} {todo : List StackId}
    (h : Represents db t)
    (hrun : (ensureLoop rounds todo maps).runOn db = (.ok (some maps'), db')) :
    Represents db' t ∧ ∀ id, (maps'.stacksMap id).isSome = true →
      (maps.stacksMap id).isSome = true ∨ ∃ s ∈ todo, id ∈ stackPath t.stackAt s := by
  induction rounds generalizing todo maps db with
  | zero =>
      cases todo with
      | nil =>
          cases hrun
          exact ⟨h, fun id hid => Or.inl hid⟩
      | cons id todo => cases hrun
  | succ rounds ih =>
      cases todo with
      | nil =>
          cases hrun
          exact ⟨h, fun id hid => Or.inl hid⟩
      | cons id todo =>
          -- an identifier that needs nothing: the empty stack, or one that is in the map
          have hskip : (ensureLoop rounds todo maps).runOn db = (.ok (some maps'), db') →
              Represents db' t ∧ ∀ other, (maps'.stacksMap other).isSome = true →
                (maps.stacksMap other).isSome = true ∨
                  ∃ s ∈ id :: todo, other ∈ stackPath t.stackAt s := by
            intro hrest
            obtain ⟨hdb', hbelow⟩ := ih h hrest
            refine ⟨hdb', fun other hother => (hbelow other hother).imp_right ?_⟩
            rintro ⟨s, hs, hpath⟩
            exact ⟨s, List.mem_cons_of_mem _ hs, hpath⟩
          rw [ensureLoop] at hrun
          by_cases hempty : id = kEmptyStackId
          · rw [if_pos hempty] at hrun
            exact hskip hrun
          rw [if_neg hempty] at hrun
          cases hknown : maps.stacksMap id with
          | some stack =>
              rw [hknown] at hrun
              exact hskip hrun
          | none =>
              rw [hknown] at hrun
              obtain ⟨stack, mid, hget, hrest⟩ := DbM.runOn_bind_eq_ok.mp hrun
              have hstack : t.stackAt id = some stack := by
                rcases getStack_cases db id with ⟨stack', db₁, hstored, hget', -⟩ | ⟨-, e, hget'⟩
                · rw [hget] at hget'
                  cases hget'
                  rwa [h.storedStack_eq] at hstored
                · rw [hget] at hget'
                  cases hget'
              obtain ⟨hdb', hbelow⟩ := ih (represents_getStack h hget) hrest
              refine ⟨hdb', ?_⟩
              intro other hother
              -- the stack itself, or one of those below it, whose bottom was put on the list
              rcases hbelow other hother with hmaps | ⟨s, hs, hpath⟩
              · obtain ⟨stack', hstack'⟩ := Option.isSome_iff_exists.mp hmaps
                rcases stacksMap_add_cases hstack' with ⟨rfl, -⟩ | hold
                · exact Or.inr ⟨other, List.mem_cons_self, mem_stackPath_self _ other⟩
                · exact Or.inl (by rw [hold]; rfl)
              · right
                rcases List.mem_append.mp hs with hs | hs
                · exact ⟨s, List.mem_cons_of_mem _ hs, hpath⟩
                · rw [List.mem_singleton.mp hs] at hpath
                  refine ⟨id, List.mem_cons_self, ?_⟩
                  rw [stackPath_eq hsmaller hempty hstack]
                  exact List.mem_cons_of_mem _ hpath

end Loop

/-! ### One execution after the other -/

section Executions

variable {t : Tables} {maps maps' : StackMaps} {db db' : Database} {execution : Execution}

theorem isSome_of_covered {id : StackId} (hid : id ≠ kEmptyStackId) (h : Covered maps [] id) :
    (maps.stacksMap id).isSome = true := by
  rcases h with hempty | hknown | hmem
  · exact absurd hempty hid
  · exact hknown
  · cases hmem

theorem Linked.ne_empty {stored : StackId → Option Stack} (h : Linked stored maps [])
    {id : StackId} (hid : (maps.stacksMap id).isSome = true) : id ≠ kEmptyStackId := by
  obtain ⟨stack, hstack⟩ := Option.isSome_iff_exists.mp hid
  exact (h.stored id stack hstack).1

/-- What is new in the maps behind the loop is what the execution needs. -/
theorem ensureStacksInMap_needed (hwf : t.WellFormed) (hdb : Represents db t)
    (hlinked : Linked t.stackAt maps []) (hlinked' : Linked t.stackAt maps' []) {rounds : ℕ}
    (hrounds : 2 ^ 64 ≤ rounds)
    (hrun : (ensureStacksInMap rounds execution maps).runOn db = (.ok (some maps'), db')) :
    Represents db' t ∧ ∀ id, (maps'.stacksMap id).isSome = true ↔
      (maps.stacksMap id).isSome = true ∨ Needed t.stackAt [execution] id := by
  have hsmaller := hwf.bottomsSmaller
  obtain ⟨hdb', hbelow⟩ := ensureLoop_below hsmaller hdb hrun
  refine ⟨hdb', ?_⟩
  have htodo : Linked t.stackAt maps (execution.samples.entries.map Prod.fst) :=
    ⟨hlinked.stored, hlinked.nodup, hlinked.mem, fun id stack hstack =>
      (hlinked.closed id stack hstack).imp_right (Or.imp_right fun hmem =>
        absurd hmem List.not_mem_nil)⟩
  have hcovered : ∀ id, Covered maps (execution.samples.entries.map Prod.fst) id →
      Covered maps' [] id := by
    rcases ensureLoop_ends hsmaller htodo hdb.storedStack_eq
      ((sum_ids_le execution).trans hrounds) with
      ⟨maps'', db'', hrun', -, -, hcovered⟩ | ⟨e, db'', hrun', -⟩
    · rw [ensureStacksInMap, hrun'] at hrun
      cases hrun
      exact hcovered
    · rw [ensureStacksInMap, hrun'] at hrun
      cases hrun
  intro id
  constructor
  · intro hid
    rcases hbelow id hid with hold | ⟨s, hs, hpath⟩
    · exact Or.inl hold
    · obtain ⟨entry, hentry, rfl⟩ := List.mem_map.mp hs
      exact Or.inr ⟨hlinked'.ne_empty hid, execution, List.mem_singleton_self _, entry, hentry,
        hpath⟩
  · rintro (hold | ⟨hid, other, hother, entry, hentry, hpath⟩)
    · exact isSome_of_covered (hlinked.ne_empty hold)
        (hcovered id (Or.inr (Or.inl hold)))
    · obtain rfl := List.mem_singleton.mp hother
      have htop := hcovered entry.1 (Or.inr (Or.inr (List.mem_map_of_mem hentry)))
      rw [← hlinked'.path_eq hsmaller htop] at hpath
      exact isSome_of_covered hid
        (hlinked'.covered_of_mem_path hsmaller htop hpath)

/-- The samples of the execution are of stacks that are there, and add up. -/
structure IsReportable (t : Tables) (execution : Execution) : Prop where
  known : ∀ entry ∈ execution.samples.entries, Known t.stackAt entry.1
  total : (execution.samples.entries.map fun entry => entry.2.toNat).sum < 2 ^ 64

/-- One execution: what is written, and what the maps have behind it. -/
theorem writeExecution_needed (hwf : t.WellFormed) (hdb : Represents db t)
    (hlinked : Linked t.stackAt maps []) (hreportable : IsReportable t execution) {rounds : ℕ}
    (hrounds : 2 ^ 64 ≤ rounds) :
    ∃ maps' written db', (writeExecution rounds maps execution).runOn db =
        (.ok (some (maps', written)), db') ∧ Represents db' t ∧ Linked t.stackAt maps' [] ∧
      WritesSamples t.stackAt execution written ∧
      ∀ id, (maps'.stacksMap id).isSome = true ↔
        (maps.stacksMap id).isSome = true ∨ Needed t.stackAt [execution] id := by
  rcases writeExecution_ends hwf.bottomsSmaller hlinked hdb.storedStack_eq hreportable.total
    hrounds with ⟨maps', written, db', hrun, -, hlinked', hwrites⟩ | ⟨-, -, -, hunknown⟩
  · have hrun' := hrun
    rw [writeExecution] at hrun'
    obtain ⟨result, mid, hensure, hrest⟩ := DbM.runOn_bind_eq_ok.mp hrun'
    cases result with
    | none => cases hrest
    | some maps'' =>
        cases hsamples : writeSamples execution maps''.reverseStacks rounds kEmptyStackId with
        | none =>
            simp only [hsamples] at hrest
            cases hrest
        | some result =>
            simp only [hsamples] at hrest
            cases hrest
            obtain ⟨hdb', hneeded⟩ :=
              ensureStacksInMap_needed hwf hdb hlinked hlinked' hrounds hensure
            exact ⟨_, _, _, hrun, hdb', hlinked', hwrites, hneeded⟩
  · obtain ⟨entry, hentry, hne, hnone⟩ := hunknown
    obtain ⟨stack, hstack⟩ := (hreportable.known entry hentry).resolve_left hne
    rw [hnone] at hstack
    cases hstack

theorem needed_cons {stored : StackId → Option Stack} {executions : List Execution}
    {id : StackId} : Needed stored (execution :: executions) id ↔
      Needed stored [execution] id ∨ Needed stored executions id := by
  simp only [Needed, List.mem_cons, List.not_mem_nil, or_false, exists_eq_left, exists_eq_or_imp]
  exact and_or_left

theorem writeEach_needed (hwf : t.WellFormed) (hdb : Represents db t)
    (hlinked : Linked t.stackAt maps []) {executions : List Execution}
    (hreportable : ∀ execution ∈ executions, IsReportable t execution) {rounds : ℕ}
    (hrounds : 2 ^ 64 ≤ rounds) :
    ∃ maps' writtens db', (writeEach rounds maps executions).runOn db =
        (.ok (some (maps', (List.zipWith writeExecutionCalls executions writtens).flatten)), db') ∧
      Represents db' t ∧ Linked t.stackAt maps' [] ∧
      List.Forall₂ (WritesSamples t.stackAt) executions writtens ∧
      ∀ id, (maps'.stacksMap id).isSome = true ↔
        (maps.stacksMap id).isSome = true ∨ Needed t.stackAt executions id := by
  induction executions generalizing maps db with
  | nil =>
      refine ⟨maps, [], db, rfl, hdb, hlinked, .nil, ?_⟩
      intro id
      simp [Needed]
  | cons execution executions ih =>
      rw [List.forall_mem_cons] at hreportable
      obtain ⟨maps₁, written, db₁, hrun, hdb₁, hlinked₁, hwrites, hneeded⟩ :=
        writeExecution_needed hwf hdb hlinked hreportable.1 hrounds
      obtain ⟨maps', writtens, db', hrest, hdb', hlinked', hall, hneeded'⟩ :=
        ih hdb₁ hlinked₁ hreportable.2
      refine ⟨maps', written :: writtens, db', ?_, hdb', hlinked', .cons hwrites hall, ?_⟩
      · rw [writeEach, DbM.runOn_bind_ok hrun]
        dsimp only
        rw [DbM.runOn_bind_ok hrest]
        rfl
      · intro id
        rw [hneeded', hneeded, or_assoc, ← needed_cons]

end Executions

end TibeeCompare.Report
