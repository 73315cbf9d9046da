import TibeeCompare.BuildBlocks.BuildBlock

/-!
Two build blocks with components that no extraction can tell apart.

The components are related at a time and a cutoff, and an extraction only needs to be alike for
executions that start from the cutoff on: `BuildBlock` skips the others, as its cutoff is the
last one that it cleaned with. Then the blocks make the same calls, however long they run.
-/

namespace TibeeCompare.BuildBlocks

open Db Executions

variable {σ σ' : Type} {c : Components σ} {c' : Components σ'}
  {r : UInt64 → UInt64 → σ → σ' → Prop}

/-- What relates components at the time `now`, after cleanups up to `cutoff`, is kept by all that
`BuildBlock` asks of them, and they give the same answers. -/
structure AnswerAlike (c : Components σ) (c' : Components σ')
    (r : UInt64 → UInt64 → σ → σ' → Prop) : Prop where
  setTimestamp {now cutoff : UInt64} {s : σ} {s' : σ'} {ts : UInt64} (h : r now cutoff s s')
    (hle : now ≤ ts) : r ts cutoff (c.setTimestamp ts s) (c'.setTimestamp ts s')
  terminate {now cutoff : UInt64} {s : σ} {s' : σ'} (h : r now cutoff s s') :
    r now cutoff (c.terminate s) (c'.terminate s')
  cleanup {now cutoff : UInt64} {s : σ} {s' : σ'} {ts : UInt64} (h : r now cutoff s s')
    (hle : cutoff ≤ ts) : r now ts (c.cleanup ts s) (c'.cleanup ts s')
  extract {now cutoff : UInt64} {s : σ} {s' : σ'} {execution : Execution}
    (h : r now cutoff s s') (hle : cutoff ≤ execution.startTs) :
    (c'.extract execution s').1 = (c.extract execution s).1 ∧
      r now cutoff (c.extract execution s).2 (c'.extract execution s').2
  addExecution {now cutoff : UInt64} {s : σ} {s' : σ'} (execution : Execution)
    (h : r now cutoff s s') : r now cutoff (c.addExecution execution s)
      (c'.addExecution execution s')
  order {now cutoff : UInt64} {s : σ} {s' : σ'} (h : r now cutoff s s') : c'.order s' = c.order s

/-- The blocks are the same but for their components, which are related. -/
structure Lockstep (r : UInt64 → UInt64 → σ → σ' → Prop) (block : BuildBlock σ)
    (block' : BuildBlock σ') : Prop where
  stats : block'.stats = block.stats
  executionsBuilder : block'.executionsBuilder = block.executionsBuilder
  saveTs : block'.saveTs = block.saveTs
  lastCleanupTs : block'.lastCleanupTs = block.lastCleanupTs
  numExecutions : block'.numExecutions = block.numExecutions
  calls : block'.calls = block.calls
  lastCleanupTs_le : block.lastCleanupTs ≤ block.saveTs
  saveTs_le : block.saveTs ≤ block.executionsBuilder.ts
  components : r block.executionsBuilder.ts block.lastCleanupTs block.components block'.components

theorem lockstep_initial {s : σ} {s' : σ'} (stats : Bool) (h : r 0 0 s s') :
    Lockstep r ({ stats, components := s } : BuildBlock σ) { stats, components := s' } :=
  ⟨rfl, rfl, rfl, rfl, rfl, rfl, UInt64.le_refl 0, UInt64.le_refl 0, h⟩

@[simp] theorem endExecution_ts (b : ExecutionsBuilder) (thread : UInt32) :
    (b.endExecution thread).2.ts = b.ts := by
  unfold ExecutionsBuilder.endExecution
  split <;> rfl

@[simp] theorem terminate_ts (b : ExecutionsBuilder) (order : List UInt32) :
    (b.terminate order).ts = b.ts := by
  unfold ExecutionsBuilder.terminate
  induction order generalizing b with
  | nil => rfl
  | cons thread order ih =>
      rw [List.foldl_cons, ih]
      split
      · exact endExecution_ts b thread
      · rfl

namespace Lockstep

variable {block : BuildBlock σ} {block' : BuildBlock σ'}

/-- Other blocks work on the components. -/
theorem withComponents (h : Lockstep r block block') {s : σ} {s' : σ'}
    (hs : r block.executionsBuilder.ts block.lastCleanupTs s s') :
    Lockstep r { block with components := s } { block' with components := s' } :=
  ⟨h.stats, h.executionsBuilder, h.saveTs, h.lastCleanupTs, h.numExecutions, h.calls,
    h.lastCleanupTs_le, h.saveTs_le, hs⟩

/-- Or on the executions, without a change of the clock. -/
theorem withExecutions (h : Lockstep r block block') {b : ExecutionsBuilder}
    (hts : b.ts = block.executionsBuilder.ts) :
    Lockstep r { block with executionsBuilder := b } { block' with executionsBuilder := b } := by
  refine ⟨h.stats, rfl, h.saveTs, h.lastCleanupTs, h.numExecutions, h.calls, h.lastCleanupTs_le,
    ?_, ?_⟩
  · show block.saveTs ≤ b.ts
    rw [hts]
    exact h.saveTs_le
  · show r b.ts _ _ _
    rw [hts]
    exact h.components

theorem saveExecution (hc : AnswerAlike c c' r) (h : Lockstep r block block')
    (execution : Execution) :
    Lockstep r (block.saveExecution c execution) (block'.saveExecution c' execution) := by
  rw [BuildBlock.saveExecution, BuildBlock.saveExecution, h.lastCleanupTs]
  split
  · exact h
  · next hstart =>
      obtain ⟨hmaps, hextract⟩ := hc.extract h.components (UInt64.not_lt.mp hstart)
      generalize c.extract execution block.components = extracted at hmaps hextract
      generalize c'.extract execution block'.components = extracted' at hmaps hextract
      obtain ⟨maps, s⟩ := extracted
      obtain ⟨maps', s'⟩ := extracted'
      obtain rfl : maps' = maps := hmaps
      rw [h.numExecutions, h.calls]
      exact ⟨h.stats, h.executionsBuilder, h.saveTs, rfl, rfl, rfl, h.lastCleanupTs_le,
        h.saveTs_le, hc.addExecution _ hextract⟩

theorem foldl_saveExecution (hc : AnswerAlike c c' r) (h : Lockstep r block block')
    (executions : List Execution) :
    Lockstep r (executions.foldl (BuildBlock.saveExecution c) block)
      (executions.foldl (BuildBlock.saveExecution c') block') := by
  induction executions generalizing block block' with
  | nil => exact h
  | cons execution executions ih => exact ih (h.saveExecution hc execution)

theorem saveExecutions (hc : AnswerAlike c c' r) (h : Lockstep r block block') :
    Lockstep r (block.saveExecutions c) (block'.saveExecutions c') := by
  rw [BuildBlock.saveExecutions, BuildBlock.saveExecutions, h.executionsBuilder,
    hc.order h.components]
  have hterminated := (h.withComponents (hc.terminate h.components)).withExecutions
    (terminate_ts block.executionsBuilder (c.order block.components))
  have hsaved := hterminated.foldl_saveExecution hc
    (block.executionsBuilder.terminate (c.order block.components)).completedExecutions
  dsimp only at hsaved ⊢
  rw [hsaved.executionsBuilder]
  exact hsaved.withExecutions rfl

theorem setTimestamp (hc : AnswerAlike c c' r) (h : Lockstep r block block') {ts : UInt64}
    (hts : block.executionsBuilder.ts ≤ ts) :
    Lockstep r (block.setTimestamp c ts) (block'.setTimestamp c' ts) := by
  rw [BuildBlock.setTimestamp, BuildBlock.setTimestamp, h.executionsBuilder]
  exact ⟨h.stats, rfl, h.saveTs, h.lastCleanupTs, h.numExecutions, h.calls, h.lastCleanupTs_le,
    UInt64.le_trans h.saveTs_le hts, hc.setTimestamp h.components hts⟩

/-- The next save counts from now on. -/
theorem withSaveTs (h : Lockstep r block block') :
    Lockstep r { block with saveTs := block.executionsBuilder.ts }
      { block' with saveTs := block.executionsBuilder.ts } :=
  ⟨h.stats, h.executionsBuilder, rfl, h.lastCleanupTs, h.numExecutions, h.calls,
    UInt64.le_trans h.lastCleanupTs_le h.saveTs_le, UInt64.le_refl _, h.components⟩

theorem cleanup (hc : AnswerAlike c c' r) (h : Lockstep r block block') :
    Lockstep r (block.cleanup c) (block'.cleanup c') := by
  rw [BuildBlock.cleanup, BuildBlock.cleanup, h.saveTs, h.calls]
  exact ⟨h.stats, h.executionsBuilder, rfl, rfl, h.numExecutions, rfl, UInt64.le_refl _,
    h.saveTs_le, hc.cleanup h.components h.lastCleanupTs_le⟩

theorem foldl_saveExecution_executions (c : Components σ) (executions : List Execution)
    (block : BuildBlock σ) :
    (executions.foldl (BuildBlock.saveExecution c) block).executionsBuilder =
      block.executionsBuilder := by
  induction executions generalizing block with
  | nil => rfl
  | cons execution executions ih =>
      rw [List.foldl_cons, ih, BuildBlock.saveExecution]
      split <;> rfl

theorem saveExecutions_ts (c : Components σ) (block : BuildBlock σ) :
    (block.saveExecutions c).executionsBuilder.ts = block.executionsBuilder.ts := by
  unfold BuildBlock.saveExecutions
  dsimp only [ExecutionsBuilder.flush]
  rw [foldl_saveExecution_executions]
  exact terminate_ts _ _

/-- The clock moves to the timestamp, but for statistics. -/
theorem onTimestamp_ts (c : Components σ) (block : BuildBlock σ) (ts : UInt64) :
    (block.onTimestamp c ts).executionsBuilder.ts =
      if block.stats then block.executionsBuilder.ts else ts := by
  unfold BuildBlock.onTimestamp
  split
  · rfl
  · dsimp only
    split
    · rfl
    · split
      · exact saveExecutions_ts c _
      · rfl

theorem onTimestamp (hc : AnswerAlike c c' r) (h : Lockstep r block block') {ts : UInt64}
    (hts : block.executionsBuilder.ts ≤ ts) :
    Lockstep r (block.onTimestamp c ts) (block'.onTimestamp c' ts) := by
  rw [BuildBlock.onTimestamp, BuildBlock.onTimestamp, h.stats]
  split
  · exact h
  · have hset := h.setTimestamp hc hts
    dsimp only
    rw [hset.saveTs]
    split
    · exact hset.withSaveTs
    · split
      · have hcleaned := (hset.saveExecutions hc).cleanup hc
        have hnow : ((block.setTimestamp c ts).saveExecutions c |>.cleanup c).executionsBuilder.ts =
            ts := saveExecutions_ts c _
        have hnext := hcleaned.withSaveTs
        rw [hnow] at hnext
        exact hnext
      · exact hset

theorem onEnd (hc : AnswerAlike c c' r) (h : Lockstep r block block') :
    Lockstep r (block.onEnd c) (block'.onEnd c') := by
  rw [BuildBlock.onEnd, BuildBlock.onEnd, h.stats]
  split
  · exact h
  · exact h.saveExecutions hc

end Lockstep

end TibeeCompare.BuildBlocks
