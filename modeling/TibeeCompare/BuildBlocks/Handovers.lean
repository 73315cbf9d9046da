import TibeeCompare.BuildBlocks.Saving

/-!
What the components have of the executions that were handed over to the database.

A property of the components and of all executions handed over so far holds throughout a run if
each call of `BuildBlock` keeps it, and so does a save: an extraction, and the execution with
what it gave.
-/

namespace TibeeCompare.BuildBlocks

open Db Executions

variable {σ : Type}

/-- An execution with what an extraction gives. -/
def Components.measure (c : Components σ) (execution : Execution) (s : σ) : Execution :=
  { execution with
    metrics := (c.extract execution s).1.1
    samples := (c.extract execution s).1.2 }

structure Accumulates (c : Components σ) (inv : List Execution → σ → Prop) : Prop where
  setTimestamp {es : List Execution} {s : σ} (ts : UInt64) (h : inv es s) :
    inv es (c.setTimestamp ts s)
  terminate {es : List Execution} {s : σ} (h : inv es s) : inv es (c.terminate s)
  cleanup {es : List Execution} {s : σ} (ts : UInt64) (h : inv es s) : inv es (c.cleanup ts s)
  save {es : List Execution} {s : σ} {execution : Execution} (hbare : bare execution = execution)
    (h : inv es s) : inv (es ++ [c.measure execution s])
      (c.addExecution (c.measure execution s) (c.extract execution s).2)

/-! ### Executions that were not measured yet -/

/-- Nothing was measured of the executions of a builder. -/
structure Unmeasured (b : ExecutionsBuilder) : Prop where
  completed : ∀ e ∈ b.completedExecutions, bare e = e
  active : ∀ thread e, b.activeExecutions thread = some e → bare e = e

theorem unmeasured_empty : Unmeasured {} where
  completed _ he := by cases he
  active _ _ h := by cases h

namespace Unmeasured

variable {b : ExecutionsBuilder}

theorem startExecution (h : Unmeasured b) (thread : UInt32) (name : Bytes) (needsToEnd : Bool) :
    Unmeasured (b.startExecution thread name needsToEnd) where
  completed := h.completed
  active other e he := by
    unfold ExecutionsBuilder.startExecution at he
    dsimp only at he
    by_cases hthread : other = thread
    · subst hthread
      rw [Function.update_self] at he
      cases he
      rfl
    · rw [Function.update_of_ne hthread] at he
      exact h.active other e he

theorem endExecution (h : Unmeasured b) (thread : UInt32) :
    Unmeasured (b.endExecution thread).2 := by
  unfold ExecutionsBuilder.endExecution
  cases hactive : b.activeExecutions thread with
  | none => exact h
  | some execution =>
      have hbare := h.active thread execution hactive
      constructor
      · refine List.forall_mem_append.mpr ⟨h.completed, List.forall_mem_singleton.mpr ?_⟩
        rw [bare] at hbare ⊢
        rw [← hbare]
      · intro other e he
        dsimp only at he
        by_cases hthread : other = thread
        · subst hthread
          rw [Function.update_self] at he
          cases he
        · rw [Function.update_of_ne hthread] at he
          exact h.active other e he

theorem terminate (h : Unmeasured b) (order : List UInt32) : Unmeasured (b.terminate order) := by
  unfold ExecutionsBuilder.terminate
  induction order generalizing b with
  | nil => exact h
  | cons thread order ih =>
      rw [List.foldl_cons]
      split
      · exact ih (h.endExecution thread)
      · exact ih h

theorem flush (h : Unmeasured b) : Unmeasured b.flush where
  completed _ he := by cases he
  active := h.active

end Unmeasured

/-! ### Saves -/

/-- The property holds of the components of a block and of what it handed over. -/
structure Holds (inv : List Execution → σ → Prop) (block : BuildBlock σ) : Prop where
  components : inv (handed block.calls) block.components
  unmeasured : Unmeasured block.executionsBuilder

namespace Holds

variable {c : Components σ} {inv : List Execution → σ → Prop} {block : BuildBlock σ}

theorem saveExecution (hc : Accumulates c inv) (h : Holds inv block) {execution : Execution}
    (hbare : bare execution = execution) : Holds inv (block.saveExecution c execution) := by
  rw [BuildBlock.saveExecution]
  split
  · exact h
  · refine ⟨?_, h.unmeasured⟩
    have hsave := hc.save hbare h.components
    dsimp only
    rw [handed_append]
    exact hsave

theorem foldl_saveExecution (hc : Accumulates c inv) (h : Holds inv block)
    {executions : List Execution} (hbare : ∀ e ∈ executions, bare e = e) :
    Holds inv (executions.foldl (BuildBlock.saveExecution c) block) := by
  induction executions generalizing block with
  | nil => exact h
  | cons execution executions ih =>
      rw [List.forall_mem_cons] at hbare
      exact ih (h.saveExecution hc hbare.1) hbare.2

theorem saveExecutions (hc : Accumulates c inv) (h : Holds inv block) :
    Holds inv (block.saveExecutions c) := by
  rw [BuildBlock.saveExecutions]
  have hfresh := h.unmeasured.terminate (c.order block.components)
  have hterminated : Holds inv { block with
      executionsBuilder := block.executionsBuilder.terminate (c.order block.components)
      components := c.terminate block.components } := ⟨hc.terminate h.components, hfresh⟩
  have hsaved := hterminated.foldl_saveExecution hc hfresh.completed
  exact ⟨hsaved.components, hsaved.unmeasured.flush⟩

theorem onTimestamp (hc : Accumulates c inv) (h : Holds inv block) (ts : UInt64) :
    Holds inv (block.onTimestamp c ts) := by
  rw [BuildBlock.onTimestamp]
  split
  · exact h
  · have hset : Holds inv (block.setTimestamp c ts) :=
      ⟨hc.setTimestamp ts h.components, h.unmeasured.completed, h.unmeasured.active⟩
    dsimp only
    split
    · exact ⟨hset.components, hset.unmeasured⟩
    · split
      · have hsaved := hset.saveExecutions hc
        refine ⟨?_, hsaved.unmeasured⟩
        unfold BuildBlock.cleanup
        dsimp only
        rw [handed_cleanup]
        exact hc.cleanup _ hsaved.components
      · exact hset

theorem onEnd (hc : Accumulates c inv) (h : Holds inv block) : Holds inv (block.onEnd c) := by
  rw [BuildBlock.onEnd]
  split
  · exact h
  · exact h.saveExecutions hc

end Holds

/-! ### Blocks between the notifications -/

/-- What was saved does not depend on the components. -/
theorem Saving.withComponents {past : List Op} {block : BuildBlock σ} (h : Saving past block)
    (components : σ) : Saving past { block with components } :=
  ⟨h.stats, h.ts, h.active, h.needsToEnd, h.saveTs_le, h.noOverflow, h.lagging, h.saved, h.cutoffs,
    h.afterCutoffs⟩

/-- At the end of the trace, all that was completed has been looked at. -/
theorem Saving.savesCompleted {c : Components σ} {ops : List Op} {block : BuildBlock σ}
    (h : Saving ops.reverse block) : SavesCompleted ops (block.onEnd c).calls := by
  rw [BuildBlock.onEnd, if_neg (by rw [h.stats]; decide)]
  obtain ⟨hsaved, hflushed, -⟩ := h.saveExecutions (c := c)
  obtain ⟨saved, hended, hshort, honce⟩ := hsaved.saved
  rw [hflushed, List.append_nil] at hended
  subst hended
  exact ⟨hshort, honce, hsaved.afterCutoffs⟩

end TibeeCompare.BuildBlocks
