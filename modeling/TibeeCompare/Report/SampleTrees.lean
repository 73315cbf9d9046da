import TibeeCompare.Report.WriteExecutions
import TibeeCompare.Db.StackTables
import Mathlib.Algebra.Order.BigOperators.Group.List

/-!
What is written for the samples of an execution.

Whatever executions came before, the maps are those of a forest: each stack in them is
stored, it is among the children of its bottom once, and its bottom is in the maps or still on
the worklist. So the recursion over the children sums up what has a stack among its bottoms.
-/

namespace TibeeCompare.Report

open Base Db Forests

/-! ### The maps -/

section Maps

variable {stored : StackId → Option Stack} {maps : StackMaps} {todo : List StackId}

/-- A stack that needs nothing more, or is still to do. -/
def Covered (maps : StackMaps) (todo : List StackId) (id : StackId) : Prop :=
  id = kEmptyStackId ∨ (maps.stacksMap id).isSome = true ∨ id ∈ todo

structure Linked (stored : StackId → Option Stack) (maps : StackMaps) (todo : List StackId) :
    Prop where
  stored : ∀ id stack, maps.stacksMap id = some stack → id ≠ kEmptyStackId ∧ stored id = some stack
  nodup : ∀ bottom, (maps.reverseStacks bottom).Nodup
  mem : ∀ id bottom, id ∈ maps.reverseStacks bottom ↔
    (maps.stacksMap id).map Stack.bottom = some bottom
  closed : ∀ id stack, maps.stacksMap id = some stack → Covered maps todo stack.bottom

theorem linked_empty : Linked stored {} [] where
  stored := by
    intro id stack h
    cases h
  nodup := fun _ => List.nodup_nil
  mem := by
    intro id bottom
    exact iff_of_false (List.not_mem_nil) (by rintro ⟨⟩)
  closed := by
    intro id stack h
    cases h

/-- A stack that needs nothing more is taken off the list. -/
theorem Covered.tail {id other : StackId} (h : Covered maps (id :: todo) other)
    (hid : id = kEmptyStackId ∨ (maps.stacksMap id).isSome = true) : Covered maps todo other := by
  rcases h with hempty | hknown | hmem
  · exact Or.inl hempty
  · exact Or.inr (Or.inl hknown)
  · rcases List.mem_cons.mp hmem with rfl | hmem
    · exact hid.imp_right Or.inl
    · exact Or.inr (Or.inr hmem)

theorem Linked.tail {id : StackId} (h : Linked stored maps (id :: todo))
    (hid : id = kEmptyStackId ∨ (maps.stacksMap id).isSome = true) : Linked stored maps todo :=
  ⟨h.stored, h.nodup, h.mem, fun id' stack hstack => (h.closed id' stack hstack).tail hid⟩

@[simp] theorem stacksMap_add_self (maps : StackMaps) (id : StackId) (stack : Stack) :
    (maps.add id stack).stacksMap id = some stack := Function.update_self _ _ _

@[simp] theorem stacksMap_add_of_ne {id other : StackId} (h : other ≠ id) (stack : Stack) :
    (maps.add id stack).stacksMap other = maps.stacksMap other := Function.update_of_ne h _ _

@[simp] theorem reverseStacks_add_bottom (maps : StackMaps) (id : StackId) (stack : Stack) :
    (maps.add id stack).reverseStacks stack.bottom = maps.reverseStacks stack.bottom ++ [id] :=
  Function.update_self _ _ _

@[simp] theorem reverseStacks_add_of_ne {bottom : StackId} {stack : Stack}
    (h : bottom ≠ stack.bottom) (id : StackId) :
    (maps.add id stack).reverseStacks bottom = maps.reverseStacks bottom :=
  Function.update_of_ne h _ _

/-- The stacks of the map are those from before, and the new one. -/
theorem stacksMap_add_cases {id other : StackId} {stack stack' : Stack}
    (h : (maps.add id stack).stacksMap other = some stack') :
    other = id ∧ stack' = stack ∨ maps.stacksMap other = some stack' := by
  by_cases hsame : other = id
  · subst hsame
    rw [stacksMap_add_self] at h
    exact Or.inl ⟨rfl, (Option.some.inj h).symm⟩
  · rw [stacksMap_add_of_ne hsame] at h
    exact Or.inr h

theorem Covered.add {id other : StackId} {stack : Stack} (h : Covered maps (id :: todo) other) :
    Covered (maps.add id stack) (todo ++ [stack.bottom]) other := by
  by_cases hid : other = id
  · refine Or.inr (Or.inl ?_)
    rw [hid, stacksMap_add_self]
    rfl
  · rcases h with hempty | hknown | hmem
    · exact Or.inl hempty
    · refine Or.inr (Or.inl ?_)
      rwa [stacksMap_add_of_ne hid]
    · refine Or.inr (Or.inr (List.mem_append_left _ ?_))
      exact (List.mem_cons.mp hmem).resolve_left hid

/-- A new stack is linked to its bottom, which is put on the list. -/
theorem Linked.add {id : StackId} {stack : Stack} (h : Linked stored maps (id :: todo))
    (hid : id ≠ kEmptyStackId) (hnew : maps.stacksMap id = none) (hstack : stored id = some stack) :
    Linked stored (maps.add id stack) (todo ++ [stack.bottom]) where
  stored := by
    intro id' stack' h'
    rcases stacksMap_add_cases h' with ⟨rfl, rfl⟩ | h'
    · exact ⟨hid, hstack⟩
    · exact h.stored id' stack' h'
  nodup := by
    intro bottom
    by_cases hbottom : bottom = stack.bottom
    · subst hbottom
      rw [reverseStacks_add_bottom]
      refine (h.nodup _).append (List.nodup_singleton id) ?_
      intro other hother hmem
      rw [List.mem_singleton.mp hmem, h.mem, hnew] at hother
      cases hother
    · rw [reverseStacks_add_of_ne hbottom]
      exact h.nodup bottom
  mem := by
    intro id' bottom
    have hrest := h.mem id' bottom
    by_cases hsame : id' = id
    · subst hsame
      rw [hnew] at hrest
      by_cases hbottom : bottom = stack.bottom
      · subst hbottom
        simp
      · simp [hbottom, Ne.symm hbottom, hrest]
    · by_cases hbottom : bottom = stack.bottom
      · subst hbottom
        simp [hsame, hrest]
      · simp [hsame, hbottom, hrest]
  closed := by
    intro id' stack' h'
    rcases stacksMap_add_cases h' with ⟨rfl, rfl⟩ | h'
    · exact Or.inr (Or.inr (List.mem_append_right _ List.mem_cons_self))
    · exact (h.closed id' stack' h').add

/-- How the loop ends: with nothing left to do, or at a stack on the list that is not stored. -/
def LoopEnds (stored : StackId → Option Stack) (maps : StackMaps) (todo : List StackId)
    (result : Except Db.FatalError (Option StackMaps) × Database) : Prop :=
  (∃ maps' db', result = (.ok (some maps'), db') ∧ storedStack db' = stored ∧
      Linked stored maps' [] ∧ ∀ id, Covered maps todo id → Covered maps' [] id) ∨
    ∃ e db', result = (.error e, db') ∧ ∃ id ∈ todo, id ≠ kEmptyStackId ∧ stored id = none

namespace LoopEnds

variable {id : StackId} {stack : Stack}
  {result : Except Db.FatalError (Option StackMaps) × Database}

/-- A stack is skipped. -/
theorem of_skipped (h : LoopEnds stored maps todo result)
    (hid : id = kEmptyStackId ∨ (maps.stacksMap id).isSome = true) :
    LoopEnds stored maps (id :: todo) result := by
  rcases h with ⟨maps', db, hrun, hdb, hlinked, hcovered⟩ | ⟨e, db, hrun, id', hmem, hmissing⟩
  · exact Or.inl ⟨maps', db, hrun, hdb, hlinked, fun _ h => hcovered _ (h.tail hid)⟩
  · exact Or.inr ⟨e, db, hrun, id', List.mem_cons_of_mem _ hmem, hmissing⟩

/-- A stack is put into the maps, and its bottom, which is empty or stored, on the list. -/
theorem of_added (h : LoopEnds stored (maps.add id stack) (todo ++ [stack.bottom]) result)
    (hbottom : Known stored stack.bottom) : LoopEnds stored maps (id :: todo) result := by
  rcases h with ⟨maps', db, hrun, hdb, hlinked, hcovered⟩ | ⟨e, db, hrun, id', hmem, hmissing⟩
  · exact Or.inl ⟨maps', db, hrun, hdb, hlinked, fun _ h => hcovered _ h.add⟩
  · refine Or.inr ⟨e, db, hrun, id', ?_, hmissing⟩
    rcases List.mem_append.mp hmem with hmem | hmem
    · exact List.mem_cons_of_mem _ hmem
    · rw [List.mem_singleton.mp hmem] at hmissing
      obtain ⟨below, hbelow⟩ := hbottom.resolve_left hmissing.1
      rw [hmissing.2] at hbelow
      cases hbelow

end LoopEnds

/-- Each identifier on the list makes way for a smaller one at most, so that their sum bounds the
rounds. -/
theorem ensureLoop_ends (hsmaller : BottomsSmaller stored) {rounds : ℕ} {db : Database}
    (hlinked : Linked stored maps todo) (hdb : storedStack db = stored)
    (hrounds : (todo.map fun id => id.toNat + 1).sum ≤ rounds) :
    LoopEnds stored maps todo ((ensureLoop rounds todo maps).runOn db) := by
  induction rounds generalizing todo maps db with
  | zero =>
      cases todo with
      | nil => exact Or.inl ⟨maps, db, rfl, hdb, hlinked, fun _ h => h⟩
      | cons id todo =>
          rw [List.map_cons, List.sum_cons] at hrounds
          omega
  | succ rounds ih =>
      cases todo with
      | nil => exact Or.inl ⟨maps, db, rfl, hdb, hlinked, fun _ h => h⟩
      | cons id todo =>
          rw [List.map_cons, List.sum_cons] at hrounds
          have hskip : (id = kEmptyStackId ∨ (maps.stacksMap id).isSome = true) →
              LoopEnds stored maps (id :: todo) ((ensureLoop rounds todo maps).runOn db) :=
            fun hid => (ih (hlinked.tail hid) hdb (by omega)).of_skipped hid
          rw [ensureLoop]
          by_cases hempty : id = kEmptyStackId
          · rw [if_pos hempty]
            exact hskip (Or.inl hempty)
          rw [if_neg hempty]
          cases hknown : maps.stacksMap id with
          | some stack => exact hskip (Or.inr (by rw [hknown]; rfl))
          | none =>
              rcases getStack_cases db id with ⟨stack, mid, hstack, hget, hmid⟩ | ⟨hnone, e, hget⟩
              · rw [hdb] at hstack hmid
                rw [DbM.runOn_bind_ok hget]
                have hlt := hsmaller.bottom_lt hempty hstack
                have hbottom : Known stored stack.bottom :=
                  (hsmaller id stack hempty hstack).imp_right And.right
                -- A bottom is smaller than its stack, so that the sum of what is to do goes down.
                have hsum : ((todo ++ [stack.bottom]).map fun id => id.toNat + 1).sum ≤ rounds := by
                  rw [List.map_append, List.sum_append]
                  simp only [List.map_cons, List.map_nil, List.sum_singleton]
                  omega
                exact (ih (hlinked.add hempty hknown hstack) hmid hsum).of_added hbottom
              · rw [hdb] at hnone
                exact Or.inr ⟨e, db, DbM.runOn_bind_error hget, id, List.mem_cons_self, hempty,
                  hnone⟩

/-! ### The forest of the maps -/

theorem Linked.bottomOf_eq (h : Linked stored maps []) {id : StackId} (hid : Covered maps [] id) :
    (maps.stacksMap id).map Stack.bottom = bottomOf stored id := by
  rw [bottomOf]
  cases hstack : maps.stacksMap id with
  | some stack =>
      obtain ⟨hne, hstored⟩ := h.stored id stack hstack
      rw [if_neg hne, hstored]
  | none =>
      rcases hid with hempty | hknown | hmem
      · rw [if_pos hempty]
        rfl
      · rw [hstack] at hknown
        cases hknown
      · cases hmem

theorem Linked.bottom_lt (h : Linked stored maps []) (hsmaller : BottomsSmaller stored)
    {id bottom : StackId} (hbottom : (maps.stacksMap id).map Stack.bottom = some bottom) :
    bottom.toNat < id.toNat := by
  obtain ⟨stack, hstack, -⟩ := Option.map_eq_some_iff.mp hbottom
  refine hsmaller.bottomOf_lt id bottom ?_
  rw [← h.bottomOf_eq (Or.inr (Or.inl (by rw [hstack]; rfl))), hbottom]

/-- Stacks on top of stacks. -/
def Linked.forest (h : Linked stored maps []) (hsmaller : BottomsSmaller stored) :
    Forest StackId where
  parent id := (maps.stacksMap id).map Stack.bottom
  children := maps.reverseStacks
  rank := UInt32.toNat
  nodup := h.nodup
  mem_children := h.mem _ _
  rank_lt := h.bottom_lt hsmaller

theorem Linked.path_eq (h : Linked stored maps []) (hsmaller : BottomsSmaller stored)
    {id : StackId} (hid : Covered maps [] id) :
    (h.forest hsmaller).path id = stackPath stored id := by
  refine pathTo_congr (p := Covered maps []) (fun id hid => h.bottomOf_eq hid) ?_ hid _
  intro id bottom hid hbottom
  obtain ⟨stack, hstack, rfl⟩ := Option.map_eq_some_iff.mp hbottom
  exact h.closed id stack hstack

/-- All paths end at the empty stack. -/
theorem Linked.empty_mem_path (h : Linked stored maps []) (hsmaller : BottomsSmaller stored)
    {id : StackId} (hid : Covered maps [] id) : kEmptyStackId ∈ (h.forest hsmaller).path id := by
  induction id using (h.forest hsmaller).induction_parent with
  | root id hroot =>
      rw [Forest.path_of_none hroot, List.mem_singleton]
      rcases hid with hempty | hknown | hmem
      · exact hempty.symm
      · obtain ⟨stack, hstack⟩ := Option.isSome_iff_exists.mp hknown
        have hparent : (h.forest hsmaller).parent id = some stack.bottom := by
          show (maps.stacksMap id).map Stack.bottom = _
          rw [hstack, Option.map_some]
        rw [hroot] at hparent
        cases hparent
      · cases hmem
  | step id bottom hbottom ih =>
      rw [Forest.path_of_some hbottom]
      obtain ⟨stack, hstack, rfl⟩ := Option.map_eq_some_iff.mp hbottom
      exact List.mem_cons_of_mem _ (ih (h.closed id stack hstack))

/-- A path leads from a stack in the maps to others in the maps. -/
theorem Linked.covered_of_mem_path (h : Linked stored maps []) (hsmaller : BottomsSmaller stored)
    {id other : StackId} (hid : Covered maps [] id)
    (hother : other ∈ (h.forest hsmaller).path id) : Covered maps [] other := by
  induction id using (h.forest hsmaller).induction_parent with
  | root id hroot =>
      rw [Forest.path_of_none hroot, List.mem_singleton] at hother
      rwa [hother]
  | step id bottom hbottom ih =>
      rw [Forest.path_of_some hbottom, List.mem_cons] at hother
      rcases hother with rfl | hother
      · exact hid
      · obtain ⟨stack, hstack, rfl⟩ := Option.map_eq_some_iff.mp hbottom
        exact ih (h.closed id stack hstack) hother

end Maps

/-! ### The recursion -/

section Samples

variable {execution : Execution} {f : Forest StackId}

/-- The samples of an execution, as weights. -/
def sampleWeights (execution : Execution) : List (StackId × ℕ) :=
  execution.samples.entries.map fun entry => (entry.1, entry.2.toNat)

theorem get_eq_sum (m : IdMap) (id : UInt32) :
    (m.get id).toNat = (((m.entries.map fun entry => (entry.1, entry.2.toNat)).filter
      fun w => w.1 = id).map Prod.snd).sum := by
  obtain ⟨entries, hnodup⟩ := m
  rw [IdMap.get]
  dsimp only at hnodup ⊢
  induction entries with
  | nil => rfl
  | cons entry entries ih =>
      obtain ⟨hnew, hnodup⟩ := List.nodup_cons.mp hnodup
      rw [List.map_cons]
      by_cases hid : entry.1 = id
      · subst hid
        have hnone : ((entries.map fun entry => (entry.1, entry.2.toNat)).filter
            fun w => w.1 = entry.1) = [] := by
          refine List.filter_eq_nil_iff.mpr fun w hw hsame => hnew ?_
          obtain ⟨other, hother, rfl⟩ := List.mem_map.mp hw
          rw [← of_decide_eq_true hsame]
          exact List.mem_map_of_mem hother
        have hlookup : List.lookup entry.1 (entry :: entries) = some entry.2 := by
          rw [List.lookup_cons, beq_self_eq_true]
        rw [List.filter_cons_of_pos (by simp), hnone, hlookup, Option.getD_some]
        rfl
      · have hne : (id == entry.1) = false := by simpa using fun h => hid h.symm
        rw [List.filter_cons_of_neg (by simpa using hid), ← ih hnodup, List.lookup_cons, hne]

theorem foldlM_children {write : StackId → Option (UInt64 × List Call)} {count : StackId → ℕ}
    {calls : StackId → List Call} {children : List StackId}
    (h : ∀ c ∈ children, write c = some (UInt64.ofNat (count c), calls c)) (start : UInt64)
    (done : List Call) :
    children.foldlM
        (fun (childrenCount, calls) childStackId => do
          let (count, childCalls) ← write childStackId
          pure (childrenCount + count, calls ++ childCalls))
        (start, done) =
      some (start + UInt64.ofNat (children.map count).sum, done ++ children.flatMap calls) := by
  induction children generalizing start done with
  | nil => simp
  | cons c children ih =>
      rw [List.foldlM_cons, h c List.mem_cons_self]
      have hrest := ih (fun c' hc' => h c' (List.mem_cons_of_mem _ hc'))
        (start + UInt64.ofNat (count c)) (done ++ calls c)
      refine hrest.trans ?_
      rw [List.map_cons, List.sum_cons, List.flatMap_cons, UInt64.ofNat_add, UInt64.add_assoc,
        List.append_assoc]

/-- The call that is made at a stack. -/
def callAt (f : Forest StackId) (execution : Execution) (id : StackId) : Option Call :=
  let microseconds := f.inclusive (sampleWeights execution) id / 1000
  if id ≠ kEmptyStackId ∧ microseconds ≠ 0 then some (sampleCall id (UInt64.ofNat microseconds))
  else none

theorem callAt_eq (htotal : ((sampleWeights execution).map Prod.snd).sum < 2 ^ 64) (id : StackId) :
    callAt f execution id =
      if id ≠ kEmptyStackId ∧
          UInt64.ofNat (f.inclusive (sampleWeights execution) id) / 1000 ≠ 0 then
        some (sampleCall id (UInt64.ofNat (f.inclusive (sampleWeights execution) id) / 1000))
      else none := by
  have hlt : f.inclusive (sampleWeights execution) id < 2 ^ 64 :=
    (Forest.inclusive_le _ _).trans_lt htotal
  have hdiv : UInt64.ofNat (f.inclusive (sampleWeights execution) id) / 1000 =
      UInt64.ofNat (f.inclusive (sampleWeights execution) id / 1000) := by
    rw [← UInt64.toNat_inj, UInt64.toNat_div, UInt64.toNat_ofNat_of_lt' hlt,
      UInt64.toNat_ofNat_of_lt' ((Nat.div_le_self _ _).trans_lt hlt)]
    rfl
  have hzero : UInt64.ofNat (f.inclusive (sampleWeights execution) id / 1000) = 0 ↔
      f.inclusive (sampleWeights execution) id / 1000 = 0 := by
    rw [← UInt64.toNat_inj, UInt64.toNat_ofNat_of_lt' ((Nat.div_le_self _ _).trans_lt hlt)]
    rfl
  rw [callAt, hdiv]
  simp only [ne_eq, hzero]

/-- The recursion makes the calls of all stacks that it comes to, and returns the sum at the stack
that it started from. -/
theorem writeSamples_eq (hbound : ∀ id, f.rank id < 2 ^ 32)
    (htotal : ((sampleWeights execution).map Prod.snd).sum < 2 ^ 64) {rounds : ℕ} {id : StackId}
    (hrounds : 2 ^ 32 ≤ rounds + f.rank id) :
    writeSamples execution f.children rounds id =
      some (UInt64.ofNat (f.inclusive (sampleWeights execution) id),
        (f.postorder rounds id).filterMap (callAt f execution)) := by
  induction rounds generalizing id with
  | zero => exact absurd (hbound id) (by omega)
  | succ rounds ih =>
      have hchildren : ∀ c ∈ f.children id, writeSamples execution f.children rounds c =
          some (UInt64.ofNat (f.inclusive (sampleWeights execution) c),
            (f.postorder rounds c).filterMap (callAt f execution)) := by
        intro c hc
        have hlt := f.rank_lt (f.mem_children.mp hc)
        exact ih (by omega)
      have hinclusive : execution.samples.get id + ((0 : UInt64) +
          UInt64.ofNat ((f.children id).map (f.inclusive (sampleWeights execution))).sum) =
            UInt64.ofNat (f.inclusive (sampleWeights execution) id) := by
        rw [Forest.inclusive_eq, UInt64.ofNat_add, UInt64.zero_add, sampleWeights, ← get_eq_sum,
          UInt64.ofNat_toNat]
      have hlast := callAt_eq (f := f) htotal id
      rw [writeSamples, foldlM_children hchildren]
      simp only [Option.bind_eq_bind, Option.bind_some, hinclusive, List.nil_append]
      rw [Forest.postorder, List.filterMap_append, List.filterMap_flatMap, List.filterMap_cons,
        List.filterMap_nil, hlast]
      by_cases hcall : id ≠ kEmptyStackId ∧
          UInt64.ofNat (f.inclusive (sampleWeights execution) id) / 1000 ≠ 0
      · rw [if_pos hcall, if_pos hcall]
        rfl
      · rw [if_neg hcall, if_neg hcall, List.append_nil]
        rfl

end Samples

/-! ### The report -/

/-- The key that a call writes a value for. -/
def valueKey? : Call → Option Bytes
  | .keyValue key _ => some key
  | _ => none

/-- The samples of all stacks that have a stack among their bottoms, and of that stack. -/
def inclusiveSamples (stored : StackId → Option Stack) (execution : Execution) (id : StackId) : ℕ :=
  ((execution.samples.entries.filter fun entry => id ∈ stackPath stored entry.1).map
    fun entry => entry.2.toNat).sum

/-- Each stack is written once with its samples in microseconds, unless these are zero, and nothing
else is; what is returned are all samples. -/
structure WritesSamples (stored : StackId → Option Stack) (execution : Execution)
    (written : Written) : Prop where
  count : written.count.toNat =
    (execution.samples.entries.map fun entry => entry.2.toNat).sum
  calls : ∀ id, id ≠ kEmptyStackId →
    (written.sampleCalls.filter fun call => valueKey? call = some (decimalDigits id.toNat)) =
      if inclusiveSamples stored execution id / 1000 ≠ 0 then
        [.keyValue (decimalDigits id.toNat)
          (.number (decimal (inclusiveSamples stored execution id / 1000)))]
      else []
  others : ∀ call ∈ written.sampleCalls,
    ∃ id, id ≠ kEmptyStackId ∧ valueKey? call = some (decimalDigits id.toNat)

section Report

variable {stored : StackId → Option Stack} {maps : StackMaps} {execution : Execution}

/-- The samples of an execution whose stacks are in the maps. -/
theorem Linked.inclusive_eq (h : Linked stored maps []) (hsmaller : BottomsSmaller stored)
    (hsamples : ∀ entry ∈ execution.samples.entries, Covered maps [] entry.1) (id : StackId) :
    (h.forest hsmaller).inclusive (sampleWeights execution) id =
      inclusiveSamples stored execution id := by
  rw [Forest.inclusive, sampleWeights, List.filter_map, List.map_map, inclusiveSamples]
  congr 2
  refine List.filter_congr fun entry hentry => ?_
  simp only [Function.comp, h.path_eq hsmaller (hsamples entry hentry)]

theorem valueKey?_callAt {f : Forest StackId} {id : StackId} {call : Call}
    (h : callAt f execution id = some call) :
    id ≠ kEmptyStackId ∧ valueKey? call = some (decimalDigits id.toNat) := by
  rw [callAt] at h
  split at h
  · next hcall =>
      cases h
      exact ⟨hcall.1, rfl⟩
  · cases h

/-- The calls with the key of a stack are those that are made at this stack. -/
theorem filter_callAt {f : Forest StackId} (ids : List StackId) (id : StackId) :
    ((ids.filterMap (callAt f execution)).filter fun call =>
        valueKey? call = some (decimalDigits id.toNat)) =
      (List.replicate (ids.count id) id).filterMap (callAt f execution) := by
  rw [List.filter_filterMap, ← List.filter_eq, List.filterMap_filter]
  refine List.filterMap_congr fun other _ => ?_
  cases hcall : callAt f execution other with
  | none => simp
  | some call =>
      have hkey := (valueKey?_callAt hcall).2
      by_cases hid : other = id
      · subst hid
        simp [hkey]
      · have hne : decimalDigits other.toNat ≠ decimalDigits id.toNat := fun heq =>
          hid (UInt32.toNat_inj.mp (decimalDigits_injective heq))
        simp [hkey, hid, hne]

/-- All samples are on top of the empty stack. -/
theorem Linked.inclusive_empty (h : Linked stored maps []) (hsmaller : BottomsSmaller stored)
    (hsamples : ∀ entry ∈ execution.samples.entries, Covered maps [] entry.1) :
    (h.forest hsmaller).inclusive (sampleWeights execution) kEmptyStackId =
      (execution.samples.entries.map fun entry => entry.2.toNat).sum := by
  rw [h.inclusive_eq hsmaller hsamples, inclusiveSamples]
  congr 2
  refine List.filter_eq_self.mpr fun entry hentry => decide_eq_true ?_
  rw [← h.path_eq hsmaller (hsamples entry hentry)]
  exact h.empty_mem_path hsmaller (hsamples entry hentry)

/-- A stack that the maps do not have is not above the empty one. -/
theorem Linked.empty_notMem_path (h : Linked stored maps []) (hsmaller : BottomsSmaller stored)
    {id : StackId} (hid : id ≠ kEmptyStackId) (hnot : ¬ Covered maps [] id) :
    kEmptyStackId ∉ (h.forest hsmaller).path id := by
  have hroot : (h.forest hsmaller).parent id = none := by
    refine Option.map_eq_none_iff.mpr
      (Option.eq_none_iff_forall_ne_some.mpr fun stack hstack => ?_)
    exact hnot (Or.inr (Or.inl (by rw [hstack]; rfl)))
  rw [Forest.path_of_none hroot, List.mem_singleton]
  exact hid.symm

/-- And no sample has it on its path. -/
theorem Linked.inclusiveSamples_eq_zero (h : Linked stored maps [])
    (hsmaller : BottomsSmaller stored)
    (hsamples : ∀ entry ∈ execution.samples.entries, Covered maps [] entry.1) {id : StackId}
    (hnot : ¬ Covered maps [] id) : inclusiveSamples stored execution id = 0 := by
  have hnone : (execution.samples.entries.filter fun entry =>
      id ∈ stackPath stored entry.1) = [] := by
    refine List.filter_eq_nil_iff.mpr fun entry hentry hmem => hnot ?_
    have hpath := h.path_eq hsmaller (hsamples entry hentry)
    exact h.covered_of_mem_path hsmaller (hsamples entry hentry)
      (by rw [hpath]; exact of_decide_eq_true hmem)
  rw [inclusiveSamples, hnone]
  rfl

theorem Linked.writesSamples (h : Linked stored maps []) (hsmaller : BottomsSmaller stored)
    (hsamples : ∀ entry ∈ execution.samples.entries, Covered maps [] entry.1)
    (htotal : (execution.samples.entries.map fun entry => entry.2.toNat).sum < 2 ^ 64) {rounds : ℕ}
    (hrounds : 2 ^ 32 ≤ rounds) :
    ∃ written : Written, writeSamples execution maps.reverseStacks rounds kEmptyStackId =
        some (written.count, written.sampleCalls) ∧
      WritesSamples stored execution written := by
  let f := h.forest hsmaller
  have hbound : ∀ id, f.rank id < 2 ^ 32 := fun id => id.toNat_lt
  have hweights : ((sampleWeights execution).map Prod.snd).sum < 2 ^ 64 := by
    rwa [sampleWeights, List.map_map]
  have hwrite : writeSamples execution maps.reverseStacks rounds kEmptyStackId =
      some (UInt64.ofNat (f.inclusive (sampleWeights execution) kEmptyStackId),
        (f.postorder rounds kEmptyStackId).filterMap (callAt f execution)) :=
    writeSamples_eq hbound hweights (hrounds.trans (Nat.le_add_right _ _))
  refine ⟨⟨UInt64.ofNat (f.inclusive (sampleWeights execution) kEmptyStackId),
    (f.postorder rounds kEmptyStackId).filterMap (callAt f execution)⟩, hwrite, ?_, ?_, ?_⟩
  · have hall := h.inclusive_empty hsmaller hsamples
    rw [hall]
    exact UInt64.toNat_ofNat_of_lt' htotal
  · intro id hid
    have hinclusive := h.inclusive_eq hsmaller hsamples id
    have hcount : (f.postorder rounds kEmptyStackId).count id =
        if kEmptyStackId ∈ f.path id then 1 else 0 := by
      rw [Forest.count_postorder hbound (hrounds.trans (Nat.le_add_right _ _)),
        (Forest.nodup_path id).count]
    dsimp only
    rw [filter_callAt, hcount]
    by_cases hcovered : Covered maps [] id
    · have hlt : inclusiveSamples stored execution id / 1000 < 2 ^ 64 := by
        rw [← hinclusive]
        exact (Nat.div_le_self _ _).trans_lt ((Forest.inclusive_le _ _).trans_lt hweights)
      rw [if_pos (h.empty_mem_path hsmaller hcovered), List.replicate_one, List.filterMap_cons,
        List.filterMap_nil, callAt, hinclusive]
      by_cases hzero : inclusiveSamples stored execution id / 1000 ≠ 0
      · rw [if_pos hzero, if_pos ⟨hid, hzero⟩, sampleCall, UInt64.toNat_ofNat_of_lt' hlt]
      · rw [if_neg hzero, if_neg fun hboth => hzero hboth.2]
    · rw [if_neg (h.empty_notMem_path hsmaller hid hcovered),
        h.inclusiveSamples_eq_zero hsmaller hsamples hcovered]
      rfl
  · intro call hcall
    obtain ⟨id, -, hid⟩ := List.mem_filterMap.mp hcall
    exact ⟨id, valueKey?_callAt hid⟩

/-- A sample of a stack that is not stored. -/
def HasUnknown (stored : StackId → Option Stack) (execution : Execution) : Prop :=
  ∃ entry ∈ execution.samples.entries, entry.1 ≠ kEmptyStackId ∧ stored entry.1 = none

/-- The identifiers of the samples are distinct, so that there are no more than 2 ^ 32. -/
theorem sum_ids_le (execution : Execution) :
    ((execution.samples.entries.map Prod.fst).map fun id => id.toNat + 1).sum ≤ 2 ^ 64 := by
  have hle := List.sum_le_card_nsmul
    ((execution.samples.entries.map Prod.fst).map fun id => id.toNat + 1) (2 ^ 32) (by
      intro n hn
      obtain ⟨id, -, rfl⟩ := List.mem_map.mp hn
      exact id.toNat_lt)
  rw [List.length_map, List.length_map, nsmul_eq_mul, Nat.cast_id] at hle
  calc _ ≤ execution.samples.entries.length * 2 ^ 32 := hle
    _ ≤ 2 ^ 32 * 2 ^ 32 := Nat.mul_le_mul_right _ execution.samples.length_le
    _ = 2 ^ 64 := by norm_num

theorem writeExecution_ends (hsmaller : BottomsSmaller stored) {db : Database}
    (h : Linked stored maps []) (hdb : storedStack db = stored)
    (htotal : (execution.samples.entries.map fun entry => entry.2.toNat).sum < 2 ^ 64) {rounds : ℕ}
    (hrounds : 2 ^ 64 ≤ rounds) :
    (∃ maps' written db', (writeExecution rounds maps execution).runOn db =
        (.ok (some (maps', written)), db') ∧ storedStack db' = stored ∧ Linked stored maps' [] ∧
          WritesSamples stored execution written) ∨
      ∃ e db', (writeExecution rounds maps execution).runOn db = (.error e, db') ∧
        HasUnknown stored execution := by
  have hlinked : Linked stored maps (execution.samples.entries.map Prod.fst) :=
    ⟨h.stored, h.nodup, h.mem, fun id stack hstack =>
      (h.closed id stack hstack).imp_right (Or.imp_right fun hmem => absurd hmem List.not_mem_nil)⟩
  rcases ensureLoop_ends hsmaller hlinked hdb ((sum_ids_le execution).trans hrounds) with
    ⟨maps', db', hrun, hdb', hlinked', hcovered⟩ | ⟨e, db', hrun, id, hmem, hmissing⟩
  · obtain ⟨written, hwrite, hwrites⟩ := hlinked'.writesSamples hsmaller
      (fun entry hentry => hcovered _ (Or.inr (Or.inr (List.mem_map_of_mem hentry)))) htotal
      ((show 2 ^ 32 ≤ 2 ^ 64 by norm_num).trans hrounds)
    refine Or.inl ⟨maps', written, db', ?_, hdb', hlinked', hwrites⟩
    rw [writeExecution, ensureStacksInMap, DbM.runOn_bind_ok hrun]
    simp only [hwrite]
    rfl
  · obtain ⟨entry, hentry, rfl⟩ := List.mem_map.mp hmem
    refine Or.inr ⟨e, db', ?_, entry, hentry, hmissing⟩
    rw [writeExecution, ensureStacksInMap, DbM.runOn_bind_error hrun]

theorem writeExecutions_ends (hsmaller : BottomsSmaller stored) {executions : List Execution}
    {db : Database} (h : Linked stored maps []) (hdb : storedStack db = stored)
    (htotals : ∀ execution ∈ executions,
      (execution.samples.entries.map fun entry => entry.2.toNat).sum < 2 ^ 64) {rounds : ℕ}
    (hrounds : 2 ^ 64 ≤ rounds) :
    (∃ results db', (writeExecutions rounds maps executions).runOn db = (.ok (some results), db') ∧
        List.Forall₂ (WritesSamples stored) executions results) ∨
      ∃ e db', (writeExecutions rounds maps executions).runOn db = (.error e, db') ∧
        ∃ execution ∈ executions, HasUnknown stored execution := by
  induction executions generalizing maps db with
  | nil => exact Or.inl ⟨[], db, rfl, List.Forall₂.nil⟩
  | cons execution executions ih =>
      rw [writeExecutions]
      rcases writeExecution_ends hsmaller h hdb (htotals execution List.mem_cons_self) hrounds with
        ⟨maps', written, mid, hrun, hmid, hlinked, hwrites⟩ | ⟨e, db', hrun, hunknown⟩
      · rw [DbM.runOn_bind_ok hrun]
        dsimp only
        have htotals' := fun other hother => htotals other (List.mem_cons_of_mem _ hother)
        rcases ih hlinked hmid htotals' with
          ⟨results, db', hrest, hall⟩ | ⟨e, db', hrest, other, hother, hunknown⟩
        · refine Or.inl ⟨written :: results, db', ?_, List.Forall₂.cons hwrites hall⟩
          rw [DbM.runOn_bind_ok hrest]
          rfl
        · exact Or.inr ⟨e, db', DbM.runOn_bind_error hrest, other, List.mem_cons_of_mem _ hother,
            hunknown⟩
      · exact Or.inr ⟨e, db', DbM.runOn_bind_error hrun, execution, List.mem_cons_self, hunknown⟩

end Report

/-- The samples of each execution are written, whatever executions came before, unless an
execution has a sample of a stack that is not stored. -/
theorem writeExecutions_writesSamples {db : Database} (hsmaller : BottomsSmaller (storedStack db))
    {executions : List Execution}
    (htotals : ∀ execution ∈ executions,
      (execution.samples.entries.map fun entry => entry.2.toNat).sum < 2 ^ 64) {rounds : ℕ}
    (hrounds : 2 ^ 64 ≤ rounds) :
    (∃ results db', (writeExecutions rounds {} executions).runOn db = (.ok (some results), db') ∧
        List.Forall₂ (WritesSamples (storedStack db)) executions results) ∨
      ∃ e db', (writeExecutions rounds {} executions).runOn db = (.error e, db') ∧
        ∃ execution ∈ executions, HasUnknown (storedStack db) execution :=
  writeExecutions_ends hsmaller linked_empty rfl htotals hrounds

def twoStacks : List Op := [.addFunctionName (str "f"), .addStack ⟨1, 0⟩, .addStack ⟨1, 1⟩]

theorem bottomsSmaller_twoStacks : BottomsSmaller (storedStack (after twoStacks)) := by
  have hfits : (tables twoStacks).Fits := ⟨by decide +kernel, by decide +kernel⟩
  have hname : ∃ name, (({} : Tables).addName (str "f")).nameAt 1 = some name :=
    ⟨str "f", by decide +kernel⟩
  have hname' : ∃ name, ((({} : Tables).addName (str "f")).addStack ⟨1, 0⟩).nameAt 1 = some name :=
    ⟨str "f", by decide +kernel⟩
  have hbelow : Known ((({} : Tables).addName (str "f")).addStack ⟨1, 0⟩).stackAt 1 :=
    Tables.known_iff.mpr (by decide +kernel)
  have hwf : (tables twoStacks).WellFormed :=
    ((Tables.wellFormed_empty.addName (str "f")).addStack hname (Or.inl rfl)).addStack hname' hbelow
  rw [(represents_after hfits).storedStack_eq]
  exact hwf.bottomsSmaller

/-- One millisecond and a half on the lower stack, then one on each. -/
def twoExecutions : List Execution :=
  [({} : Execution).incrementSample 1 1500000,
    (({} : Execution).incrementSample 2 1000000).incrementSample 1 1000000]

theorem writeExecutions_writesSamples_twoExecutions :
    ∃ results db', (writeExecutions (2 ^ 64) {} twoExecutions).runOn (after twoStacks) =
        (.ok (some results), db') ∧
      List.Forall₂ (WritesSamples (storedStack (after twoStacks))) twoExecutions results := by
  refine (writeExecutions_writesSamples bottomsSmaller_twoStacks (by decide +kernel)
    le_rfl).resolve_right ?_
  rintro ⟨-, -, -, execution, hmem, entry, hentry, -, hnone⟩
  have hall : (twoExecutions.all fun execution => execution.samples.entries.all fun entry =>
      (storedStack (after twoStacks) entry.1).isSome) = true := by decide +kernel
  have hsome := List.all_eq_true.mp (List.all_eq_true.mp hall execution hmem) entry hentry
  rw [hnone] at hsome
  cases hsome

end TibeeCompare.Report
