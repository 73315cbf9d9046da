import TibeeCompare.BuildBlocks.BuildBlock
import Mathlib.Data.List.Induction

/-!
Which executions are saved.

An execution is skipped if it starts before the last cutoff. The last cutoff lies one save
before the last one, and an execution that was not there at the last save ends after
it, so that only an execution that is longer than the interval between saves is skipped.
-/

namespace TibeeCompare.BuildBlocks

open Db Executions

/-- The executions that are added to the database. -/
def handed (calls : List Call) : List Execution :=
  calls.filterMap fun
    | .addExecution execution => some execution
    | .cleanup _ => none

/-- An execution without what its critical path gave. -/
def bare (execution : Execution) : Execution :=
  { execution with metrics := IdMap.empty, samples := IdMap.empty }

def IsShort (execution : Execution) : Prop :=
  execution.endTs.toNat ≤ execution.startTs.toNat + kSaveInterval.toNat

instance : DecidablePred IsShort := fun _ => inferInstanceAs (Decidable (_ ≤ _))

/-! ### What is completed

Operations are looked at from the last one back. -/

/-- The time after some operations. -/
def clock : List Op → UInt64
  | [] => 0
  | .timestamp ts :: _ => ts
  | _ :: past => clock past

/-- The execution that a thread is in: that of its last start, if it has not ended. -/
def active (thread : UInt32) : List Op → Option Execution
  | [] => none
  | .timestamp _ :: past => active thread past
  | .startExecution thread' name :: past =>
      if thread' = thread then some
        { name, startTs := clock past, startThread := thread, endTs := clock past,
          endThread := thread }
      else active thread past
  | .endExecution thread' :: past => if thread' = thread then none else active thread past

/-- The executions that ended, each with the last start on its thread. -/
def ended : List Op → List Execution
  | [] => []
  | .endExecution thread :: past =>
      ended past ++ ((active thread past).map fun execution =>
        { execution with endTs := clock past, endThread := thread }).toList
  | _ :: past => ended past

/-- The executions that some operations complete. -/
def completed (ops : List Op) : List Execution := ended ops.reverse

/-- A later call after an earlier one: an execution that is added after a cleanup does not start
before its cutoff. -/
def Call.Permits : Call → Call → Prop
  | .cleanup ts, .addExecution execution => ts ≤ execution.startTs
  | _, _ => True

/-- Each execution that is completed is saved once if it is short, and no more than once if it
is not; none that is saved starts before a cutoff of an earlier cleanup. -/
structure SavesCompleted (ops : List Op) (calls : List Call) : Prop where
  short : ((completed ops).filter (IsShort ·)).Sublist ((handed calls).map bare)
  once : ((handed calls).map bare).Sublist (completed ops)
  afterCutoffs : calls.Pairwise Call.Permits

/-- The clock does not go back. -/
def NonDecreasing (ops : List Op) : Prop := (ops.filterMap Op.timestamp?).Pairwise (· ≤ ·)

instance (ops : List Op) : Decidable (NonDecreasing ops) :=
  inferInstanceAs (Decidable (List.Pairwise _ _))

/-- No addition of the interval between saves overflows. -/
def NoOverflow (ops : List Op) : Prop :=
  ∀ ts ∈ ops.filterMap Op.timestamp?, ts.toNat + kSaveInterval.toNat < U64

instance (ops : List Op) : Decidable (NoOverflow ops) :=
  List.decidableBAll _ _

theorem bare_of_active {thread : UInt32} {past : List Op} {execution : Execution}
    (h : active thread past = some execution) : bare execution = execution := by
  induction past with
  | nil => cases h
  | cons op past ih =>
      cases op with
      | timestamp ts => exact ih h
      | startExecution thread' name =>
          rw [active] at h
          split at h
          · obtain rfl := Option.some.inj h
            rfl
          · exact ih h
      | endExecution thread' =>
          rw [active] at h
          split at h
          · cases h
          · exact ih h

theorem bare_of_ended {past : List Op} {execution : Execution} (h : execution ∈ ended past) :
    bare execution = execution := by
  induction past with
  | nil => cases h
  | cons op past ih =>
      cases op with
      | timestamp ts => exact ih h
      | startExecution thread name => exact ih h
      | endExecution thread =>
          rw [ended] at h
          rcases List.mem_append.mp h with h | h
          · exact ih h
          · obtain ⟨started, hstarted, rfl⟩ :=
              Option.map_eq_some_iff.mp (Option.mem_toList.mp h)
            have hbare := bare_of_active hstarted
            rw [bare] at hbare ⊢
            rw [← hbare]

theorem handed_append (calls calls' : List Call) :
    handed (calls ++ calls') = handed calls ++ handed calls' := List.filterMap_append

/-! ### One save -/

section Save

variable {σ : Type} {c : Components σ}

/-- What saving some executions does to a block: those that do not start before the last
cutoff are added. -/
structure Saves (executions : List Execution) (block block' : BuildBlock σ) : Prop where
  stats : block'.stats = block.stats
  executionsBuilder : block'.executionsBuilder = block.executionsBuilder
  saveTs : block'.saveTs = block.saveTs
  lastCleanupTs : block'.lastCleanupTs = block.lastCleanupTs
  calls : ∃ added : List Execution, block'.calls = block.calls ++ added.map .addExecution ∧
    added.map bare = (executions.filter fun e => block.lastCleanupTs ≤ e.startTs).map bare ∧
    ∀ e ∈ added, block.lastCleanupTs ≤ e.startTs

theorem saves_saveExecution (block : BuildBlock σ) (execution : Execution) :
    Saves [execution] block (block.saveExecution c execution) := by
  rw [BuildBlock.saveExecution]
  split
  · next hskipped =>
      refine ⟨rfl, rfl, rfl, rfl, [], (List.append_nil _).symm, ?_, by simp⟩
      rw [List.filter_cons_of_neg (by simpa using hskipped)]
      rfl
  · next hsaved =>
      have hsaved : block.lastCleanupTs ≤ execution.startTs := by simpa using hsaved
      refine ⟨rfl, rfl, rfl, rfl, [_], rfl, ?_, ?_⟩
      · rw [List.filter_cons_of_pos (by simpa using hsaved)]
        rfl
      · intro e he
        rw [List.mem_singleton.mp he]
        exact hsaved

theorem Saves.trans {executions executions' : List Execution} {block block' block'' : BuildBlock σ}
    (h : Saves executions block block') (h' : Saves executions' block' block'') :
    Saves (executions ++ executions') block block'' := by
  obtain ⟨added, hcalls, hbare, hstarts⟩ := h.calls
  obtain ⟨added', hcalls', hbare', hstarts'⟩ := h'.calls
  rw [h.lastCleanupTs] at hbare' hstarts'
  refine ⟨h'.stats.trans h.stats, h'.executionsBuilder.trans h.executionsBuilder,
    h'.saveTs.trans h.saveTs, h'.lastCleanupTs.trans h.lastCleanupTs, added ++ added', ?_, ?_, ?_⟩
  · rw [hcalls', hcalls, List.map_append, List.append_assoc]
  · rw [List.map_append, hbare, hbare', ← List.map_append, ← List.filter_append]
  · intro e he
    rcases List.mem_append.mp he with he | he
    · exact hstarts e he
    · exact hstarts' e he

theorem saves_foldl (block : BuildBlock σ) (executions : List Execution) :
    Saves executions block (executions.foldl (BuildBlock.saveExecution c) block) := by
  induction executions generalizing block with
  | nil => exact ⟨rfl, rfl, rfl, rfl, [], (List.append_nil _).symm, rfl, by simp⟩
  | cons execution executions ih => exact (saves_saveExecution block execution).trans (ih _)

end Save

/-! ### Whole runs -/

/-- What holds while a trace is read: the executions that ended are those that were looked at
at the saves so far and those that wait for the next one. -/
structure Saving {σ : Type} (past : List Op) (block : BuildBlock σ) : Prop where
  stats : block.stats = false
  ts : block.executionsBuilder.ts = clock past
  active : ∀ thread, block.executionsBuilder.activeExecutions thread = active thread past
  needsToEnd : ∀ thread, block.executionsBuilder.needsToEnd thread ≠ some false
  saveTs_le : block.saveTs ≤ clock past
  noOverflow : block.saveTs.toNat + kSaveInterval.toNat < U64
  /-- Once there was a cleanup, its cutoff lies an interval before the last save, and what waits
  ended since then. -/
  lagging : block.lastCleanupTs = 0 ∨
    block.lastCleanupTs.toNat + kSaveInterval.toNat < block.saveTs.toNat ∧
      ∀ e ∈ block.executionsBuilder.completedExecutions, block.saveTs ≤ e.endTs
  saved : ∃ saved, ended past = saved ++ block.executionsBuilder.completedExecutions ∧
    (saved.filter (IsShort ·)).Sublist ((handed block.calls).map bare) ∧
    ((handed block.calls).map bare).Sublist saved
  cutoffs : ∀ ts, Call.cleanup ts ∈ block.calls → ts ≤ block.lastCleanupTs
  afterCutoffs : block.calls.Pairwise Call.Permits

section Runs

variable {σ : Type} {c : Components σ} {past : List Op} {block : BuildBlock σ}

/-- No execution that waits for the next save is short and starts before the last cutoff. -/
theorem Saving.not_skipped (h : Saving past block) {e : Execution}
    (he : e ∈ block.executionsBuilder.completedExecutions) (hshort : IsShort e) :
    block.lastCleanupTs ≤ e.startTs := by
  rcases h.lagging with hzero | ⟨hlag, hends⟩
  · rw [hzero, UInt64.le_iff_toNat_le]
    exact Nat.zero_le _
  · have hend := UInt64.le_iff_toNat_le.mp (hends e he)
    rw [IsShort] at hshort
    rw [UInt64.le_iff_toNat_le]
    omega

theorem terminate_eq_self {b : ExecutionsBuilder} (h : ∀ thread, b.needsToEnd thread ≠ some false)
    (order : List UInt32) : b.terminate order = b := by
  rw [ExecutionsBuilder.terminate]
  induction order with
  | nil => rfl
  | cons thread order ih => rw [List.foldl_cons, if_neg (h thread), ih]

/-- An execution that starts after the last cutoff is added after all cleanups with theirs. -/
theorem Saving.permits (h : Saving past block) {e : Execution}
    (he : block.lastCleanupTs ≤ e.startTs) :
    ∀ call ∈ block.calls, call.Permits (.addExecution e) := by
  intro call hcall
  cases call with
  | addExecution _ => trivial
  | cleanup ts => exact UInt64.le_trans (h.cutoffs ts hcall) he

theorem handed_map_addExecution (added : List Execution) :
    handed (added.map .addExecution) = added := by
  rw [handed, List.filterMap_map]
  exact List.filterMap_some

theorem handed_cleanup (calls : List Call) (ts : UInt64) :
    handed (calls ++ [.cleanup ts]) = handed calls := by
  rw [handed_append]
  exact List.append_nil _

/-- Without a short one among those that are skipped, all short executions of a batch are
kept. -/
theorem filter_isShort_sublist {batch : List Execution} {p : Execution → Bool}
    (h : ∀ e ∈ batch, IsShort e → p e = true) :
    (batch.filter (IsShort ·)).Sublist (batch.filter p) := by
  have heq : batch.filter (IsShort ·) = (batch.filter p).filter (IsShort ·) := by
    rw [List.filter_filter]
    refine List.filter_congr fun e he => ?_
    by_cases hshort : IsShort e
    · simp [hshort, h e he hshort]
    · simp [hshort]
  rw [heq]
  exact List.filter_sublist

/-- A save looks at all executions that wait for it. -/
theorem Saving.saveExecutions (h : Saving past block) :
    Saving past (block.saveExecutions c) ∧
      (block.saveExecutions c).executionsBuilder.completedExecutions = [] ∧
      (block.saveExecutions c).saveTs = block.saveTs := by
  rw [BuildBlock.saveExecutions]
  dsimp only
  rw [terminate_eq_self h.needsToEnd]
  have hsaves := saves_foldl (c := c) { block with components := c.terminate block.components }
    block.executionsBuilder.completedExecutions
  generalize block.executionsBuilder.completedExecutions.foldl _ _ = block' at hsaves
  rcases block' with ⟨stats, builder, components, saveTs, lastCleanupTs, numExecutions, calls⟩
  obtain ⟨rfl, rfl, rfl, rfl, added, rfl, hbare, hstarts⟩ := hsaves
  obtain ⟨saved, hended, hshort, honce⟩ := h.saved
  dsimp only at hbare hstarts ⊢
  have hbatch : (handed (block.calls ++ added.map .addExecution)).map bare =
      (handed block.calls).map bare ++ block.executionsBuilder.completedExecutions.filter
        fun e => block.lastCleanupTs ≤ e.startTs := by
    rw [handed_append, handed_map_addExecution, List.map_append, hbare]
    congr 1
    refine (List.map_congr_left fun e he => ?_).trans (List.map_id' _)
    have hmem : e ∈ ended past := by
      rw [hended]
      exact List.mem_append_right _ (List.mem_of_mem_filter he)
    exact bare_of_ended hmem
  refine ⟨⟨h.stats, h.ts, h.active, h.needsToEnd, h.saveTs_le, h.noOverflow, ?_,
    ⟨ended past, (List.append_nil _).symm, ?_, ?_⟩, ?_, ?_⟩, rfl, rfl⟩
  · exact h.lagging.imp_right fun hlag => ⟨hlag.1, fun e he => (by cases he)⟩
  · rw [hbatch, hended, List.filter_append]
    exact hshort.append (filter_isShort_sublist fun e he hs => decide_eq_true (h.not_skipped he hs))
  · rw [hbatch, hended]
    exact honce.append List.filter_sublist
  · intro ts hts
    refine h.cutoffs ts ((List.mem_append.mp hts).resolve_right fun hadded => ?_)
    obtain ⟨e, -, he⟩ := List.mem_map.mp hadded
    cases he
  · refine List.pairwise_append.mpr ⟨h.afterCutoffs, ?_, fun call hcall other hother => ?_⟩
    · exact List.pairwise_map.mpr (List.pairwise_of_forall fun _ _ => trivial)
    · obtain ⟨e, he, rfl⟩ := List.mem_map.mp hother
      exact h.permits (hstarts e he) call hcall

theorem Saving.startExecution (h : Saving past block) (thread : UInt32) (name : Bytes) :
    Saving (.startExecution thread name :: past) ((Op.startExecution thread name).run c block) := by
  refine ⟨h.stats, h.ts, fun thread' => ?_, fun thread' => ?_, h.saveTs_le, h.noOverflow, h.lagging,
    h.saved, h.cutoffs, h.afterCutoffs⟩
  · rw [BuildBlocks.active, Op.run, ExecutionsBuilder.startExecution]
    by_cases hthread : thread = thread'
    · subst hthread
      rw [if_pos rfl, ← h.ts]
      exact Function.update_self ..
    · rw [if_neg hthread, ← h.active thread']
      exact Function.update_of_ne (Ne.symm hthread) _ _
  · rw [Op.run, ExecutionsBuilder.startExecution]
    by_cases hthread : thread' = thread
    · subst hthread
      dsimp only
      rw [Function.update_self]
      decide
    · dsimp only
      rw [Function.update_of_ne hthread]
      exact h.needsToEnd thread'

theorem Saving.endExecution (h : Saving past block) (thread : UInt32) :
    Saving (.endExecution thread :: past) ((Op.endExecution thread).run c block) := by
  rw [Op.run, ExecutionsBuilder.endExecution]
  cases hactive : block.executionsBuilder.activeExecutions thread with
  | none =>
      have hended : ended (.endExecution thread :: past) = ended past := by
        rw [ended, ← h.active thread, hactive]
        exact List.append_nil _
      refine ⟨h.stats, h.ts, fun thread' => ?_, h.needsToEnd, h.saveTs_le, h.noOverflow, h.lagging,
        hended.symm ▸ h.saved, h.cutoffs, h.afterCutoffs⟩
      rw [BuildBlocks.active]
      by_cases hthread : thread = thread'
      · subst hthread
        rw [if_pos rfl]
        exact hactive
      · rw [if_neg hthread]
        exact h.active thread'
  | some execution =>
      have hended : ended (.endExecution thread :: past) = ended past ++
          [{ execution with endTs := block.executionsBuilder.ts, endThread := thread }] := by
        rw [ended, ← h.active thread, hactive, h.ts]
        rfl
      obtain ⟨saved, hsaved, hshort, honce⟩ := h.saved
      refine ⟨h.stats, h.ts, fun thread' => ?_, h.needsToEnd, h.saveTs_le, h.noOverflow, ?_,
        ⟨saved, ?_, hshort, honce⟩, h.cutoffs, h.afterCutoffs⟩
      · rw [BuildBlocks.active]
        dsimp only
        by_cases hthread : thread = thread'
        · subst hthread
          rw [if_pos rfl, Function.update_self]
        · rw [if_neg hthread, Function.update_of_ne (Ne.symm hthread)]
          exact h.active thread'
      · refine h.lagging.imp_right fun hlag => ⟨hlag.1, fun e he => ?_⟩
        rcases List.mem_append.mp he with he | he
        · exact hlag.2 e he
        · rw [List.mem_singleton.mp he, h.ts]
          exact h.saveTs_le
      · rw [hended, hsaved, List.append_assoc]

/-- A step of the clock, with no save. -/
theorem Saving.setTimestamp (h : Saving past block) {ts : UInt64} (hts : clock past ≤ ts) :
    Saving (.timestamp ts :: past) (block.setTimestamp c ts) :=
  ⟨h.stats, rfl, h.active, h.needsToEnd, UInt64.le_trans h.saveTs_le hts, h.noOverflow, h.lagging,
    h.saved, h.cutoffs, h.afterCutoffs⟩

theorem Saving.timestamp (h : Saving past block) {ts : UInt64} (hts : clock past ≤ ts)
    (hoverflow : ts.toNat + kSaveInterval.toNat < U64) :
    Saving (.timestamp ts :: past) ((Op.timestamp ts).run c block) := by
  have hset := h.setTimestamp (c := c) hts
  rw [Op.run, BuildBlock.onTimestamp, if_neg (by rw [h.stats]; decide)]
  dsimp only
  -- the first timestamp only starts the interval
  split
  · next hzero =>
      have hcleanup : (block.setTimestamp c ts).lastCleanupTs = 0 := by
        refine hset.lagging.resolve_right fun hlag => ?_
        rw [hzero] at hlag
        exact absurd hlag.1 (Nat.not_lt_zero _)
      exact ⟨hset.stats, hset.ts, hset.active, hset.needsToEnd, UInt64.le_refl ts, hoverflow,
        .inl hcleanup, hset.saved, hset.cutoffs, hset.afterCutoffs⟩
  split
  · next hzero hlate =>
      -- the interval is over: what is there is saved, before the cleanup at its start
      obtain ⟨hsaved, hflushed, hsaveTs⟩ := hset.saveExecutions (c := c)
      generalize (block.setTimestamp c ts).saveExecutions c = block' at hsaved hflushed hsaveTs ⊢
      rw [← hsaveTs] at hlate
      have hinterval : block'.saveTs.toNat + kSaveInterval.toNat < ts.toNat := by
        have hlt := UInt64.lt_iff_toNat_lt.mp hlate
        rwa [UInt64.toNat_add, Nat.mod_eq_of_lt hsaved.noOverflow] at hlt
      have hcutoff : block'.lastCleanupTs ≤ block'.saveTs := by
        rw [UInt64.le_iff_toNat_le]
        rcases hsaved.lagging with hzero | hlag
        · rw [hzero]
          exact Nat.zero_le _
        · omega
      refine ⟨hsaved.stats, hsaved.ts, hsaved.active, hsaved.needsToEnd, UInt64.le_refl ts,
        hoverflow, .inr ⟨hinterval, fun e he => ?_⟩, ?_, fun ts' hts' => ?_, ?_⟩
      · rw [BuildBlock.cleanup, hflushed] at he
        cases he
      · rw [BuildBlock.cleanup, handed_cleanup]
        exact hsaved.saved
      · rcases List.mem_append.mp hts' with hts' | hts'
        · exact UInt64.le_trans (hsaved.cutoffs ts' hts') hcutoff
        · obtain ⟨rfl⟩ := List.mem_singleton.mp hts'
          exact UInt64.le_refl _
      · refine List.pairwise_append.mpr ⟨hsaved.afterCutoffs, List.pairwise_singleton _ _, ?_⟩
        intro call _ other hother
        rw [List.mem_singleton.mp hother]
        cases call <;> exact trivial
  · exact hset

theorem saving_initial (components : σ) : Saving [] ({ components } : BuildBlock σ) :=
  ⟨rfl, rfl, fun _ => rfl, fun _ => by simp, UInt64.le_refl 0,
    show (0 : UInt64).toNat + kSaveInterval.toNat < U64 by decide, .inl rfl,
    ⟨[], rfl, List.Sublist.refl _, List.Sublist.refl _⟩, fun _ hts => (by cases hts),
    List.Pairwise.nil⟩

theorem clock_mem (ops : List Op) :
    clock ops.reverse = 0 ∨ clock ops.reverse ∈ ops.filterMap Op.timestamp? := by
  induction ops using List.reverseRecOn with
  | nil => exact .inl rfl
  | append_singleton ops op ih =>
      rw [List.reverse_concat, List.filterMap_append]
      cases op with
      | timestamp ts => exact .inr (List.mem_append_right _ List.mem_cons_self)
      | startExecution thread name => exact ih.imp_right fun h => List.mem_append_left _ h
      | endExecution thread => exact ih.imp_right fun h => List.mem_append_left _ h

theorem saving_foldl (components : σ) {ops : List Op} (hclock : NonDecreasing ops)
    (hoverflow : NoOverflow ops) : Saving ops.reverse (ops.foldl (Op.run c) { components }) := by
  induction ops using List.reverseRecOn with
  | nil => exact saving_initial components
  | append_singleton ops op ih =>
      rw [NonDecreasing, List.filterMap_append, List.pairwise_append] at hclock
      rw [NoOverflow, List.filterMap_append] at hoverflow
      obtain ⟨hops, -, hlater⟩ := hclock
      have hsaving := ih hops fun ts hts => hoverflow ts (List.mem_append_left _ hts)
      rw [List.reverse_concat, List.foldl_append]
      cases op with
      | timestamp ts =>
          refine hsaving.timestamp ?_ (hoverflow ts (List.mem_append_right _ List.mem_cons_self))
          rcases clock_mem ops with hzero | hmem
          · rw [hzero, UInt64.le_iff_toNat_le]
            exact Nat.zero_le _
          · exact hlater _ hmem ts List.mem_cons_self
      | startExecution thread name => exact hsaving.startExecution (c := c) thread name
      | endExecution thread => exact hsaving.endExecution (c := c) thread

/-- For all components, the saves of a trace add each short execution that ended once, none
twice, and none after a cleanup with a cutoff that it starts before. -/
theorem after_savesCompleted (c : Components σ) (components : σ) {ops : List Op}
    (hclock : NonDecreasing ops) (hoverflow : NoOverflow ops) :
    SavesCompleted ops (after c components ops).calls := by
  have hsaving := saving_foldl (c := c) components hclock hoverflow
  rw [after, BuildBlock.onEnd, if_neg (by rw [hsaving.stats]; decide)]
  obtain ⟨hsaved, hflushed, -⟩ := hsaving.saveExecutions (c := c)
  obtain ⟨saved, hended, hshort, honce⟩ := hsaved.saved
  rw [hflushed, List.append_nil] at hended
  subst hended
  exact ⟨hshort, honce, hsaved.afterCutoffs⟩

end Runs

/-- Components without a state, that measure nothing. -/
def noComponents : Components Unit where
  setTimestamp _ _ := ()
  terminate _ := ()
  cleanup _ _ := ()
  extract _ _ := ((IdMap.empty, IdMap.empty), ())
  addExecution _ _ := ()
  order _ := []

/-- An execution that is as long as two intervals between saves, and a short one. -/
def longAndShort : List Op :=
  [.timestamp 1, .startExecution 1 (str "long"), .timestamp 14000000000,
    .startExecution 2 (str "short"), .timestamp 15000000000, .endExecution 2,
    .timestamp 27000000000, .endExecution 1]

theorem after_savesCompleted_longAndShort :
    SavesCompleted longAndShort (after noComponents () longAndShort).calls :=
  after_savesCompleted noComponents () (by decide) (by decide)

example : (handed (after noComponents () longAndShort).calls).map (·.name) = [str "short"] := by
  decide

end TibeeCompare.BuildBlocks
