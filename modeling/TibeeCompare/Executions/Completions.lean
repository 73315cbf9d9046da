import TibeeCompare.Executions.ExecutionsBuilder
import Mathlib.Data.List.Perm.Subperm
import Mathlib.Data.List.Nodup

/-!
Which executions the builder completes.

The flags of threads stay in their table when executions end. A flag is read only for a thread
that has an active execution, and then it is the flag of the start of this execution: each start
writes both tables. So the builder does what a list of open starts does in which every start
keeps its own flag.
-/

namespace TibeeCompare.Executions

open Db

/-- The calls on the builder. -/
inductive BuilderCall
  | setTimestamp (ts : UInt64)
  | startExecution (thread : UInt32) (name : Bytes) (needsToEnd : Bool)
  | endExecution (thread : UInt32)
  | terminate
  | flush
deriving DecidableEq

/-- An iteration over `_needsToEnd` visits each of its threads once, in any order. -/
def ExecutionsBuilder.Traverses (b : ExecutionsBuilder) (order : List UInt32) : Prop :=
  order.Nodup ∧ ∀ thread, thread ∈ order ↔ (b.needsToEnd thread).isSome

def BuilderCall.Takes (b b' : ExecutionsBuilder) : BuilderCall → Prop
  | setTimestamp ts => b' = b.setTimestamp ts
  | startExecution thread name needsToEnd => b' = b.startExecution thread name needsToEnd
  | endExecution thread => b' = (b.endExecution thread).2
  | terminate => ∃ order, b.Traverses order ∧ b' = b.terminate order
  | flush => b' = b.flush

/-- The builders after some calls, the latest call first. -/
inductive Reaches : List BuilderCall → ExecutionsBuilder → Prop
  | nil : Reaches [] {}
  | call {past : List BuilderCall} {b b' : ExecutionsBuilder} {call : BuilderCall}
      (hpast : Reaches past b) (htakes : call.Takes b b') : Reaches (call :: past) b'

/-! ### Starts and their ends -/

/-- A start, with its position among the calls and its time. -/
structure Start where
  position : ℕ
  thread : UInt32
  name : Bytes
  ts : UInt64
  needsToEnd : Bool
deriving DecidableEq

structure Completion where
  start : Start
  endTs : UInt64
deriving DecidableEq

/-- The execution that a start makes. -/
def Start.execution (start : Start) : Execution :=
  { name := start.name, startTs := start.ts, startThread := start.thread, endTs := start.ts,
    endThread := start.thread }

def Completion.execution (completion : Completion) : Execution :=
  { completion.start.execution with endTs := completion.endTs }

/-- The time after some calls. -/
def clockAfter : List BuilderCall → UInt64
  | [] => 0
  | .setTimestamp ts :: _ => ts
  | _ :: past => clockAfter past

/-- The starts that stay open at a call, with the one that it makes. -/
def stillOpen (past : List BuilderCall) (starts : List Start) : BuilderCall → List Start
  | .startExecution thread name needsToEnd =>
      ⟨past.length, thread, name, clockAfter past, needsToEnd⟩ ::
        starts.filter (·.thread ≠ thread)
  | .endExecution thread => starts.filter (·.thread ≠ thread)
  | .terminate => starts.filter (·.needsToEnd)
  | .setTimestamp _ => starts
  | .flush => starts

/-- The starts that are neither ended nor replaced. -/
def openStarts : List BuilderCall → List Start
  | [] => []
  | call :: past => stillOpen past (openStarts past) call

/-- The open start of a thread. -/
def openStart (past : List BuilderCall) (thread : UInt32) : Option Start :=
  (openStarts past).find? (·.thread = thread)

/-- The starts that a call ends: that of the thread for an end of an execution, and all that do
not need an end for the end of the trace. -/
def endedBy (past : List BuilderCall) : BuilderCall → List Start
  | .endExecution thread => (openStart past thread).toList
  | .terminate => (openStarts past).filter fun start => !start.needsToEnd
  | .setTimestamp _ => []
  | .startExecution _ _ _ => []
  | .flush => []

def completedBy (past : List BuilderCall) (call : BuilderCall) : List Completion :=
  (endedBy past call).map fun start => ⟨start, clockAfter past⟩

/-- What some calls complete. -/
def completions : List BuilderCall → List Completion
  | [] => []
  | call :: past => completions past ++ completedBy past call

/-- What they complete after the last `Flush`. -/
def sinceFlush : List BuilderCall → List Completion
  | [] => []
  | .flush :: _ => []
  | call :: past => sinceFlush past ++ completedBy past call

/-- A start is one of the calls, with the time at which it was made. -/
def Start.IsAmong (start : Start) (past : List BuilderCall) : Prop :=
  ∃ before, (.startExecution start.thread start.name start.needsToEnd :: before) <:+ past ∧
    start.position = before.length ∧ start.ts = clockAfter before

/-- The completed executions of the builder are those of the starts that were ended since the last
`Flush`. A completion has its start among the calls, and no start has two. -/
structure CompletesPairs (past : List BuilderCall) (b : ExecutionsBuilder) : Prop where
  executions : b.completedExecutions.Perm ((sinceFlush past).map Completion.execution)
  recent : sinceFlush past <:+ completions past
  starts : ∀ completion ∈ completions past, completion.start.IsAmong past
  once : ((completions past).map (·.start.position)).Nodup

/-! ### The list of open starts -/

theorem isAmong_cons {start : Start} {past : List BuilderCall} (h : start.IsAmong past)
    (call : BuilderCall) : start.IsAmong (call :: past) := by
  obtain ⟨before, hsuffix, hposition, hts⟩ := h
  exact ⟨before, hsuffix.trans (List.suffix_cons call past), hposition, hts⟩

theorem isAmong_of_mem_openStarts {past : List BuilderCall} {start : Start}
    (h : start ∈ openStarts past) : start.IsAmong past := by
  induction past with
  | nil => cases h
  | cons call past ih =>
      cases call with
      | startExecution thread name needsToEnd =>
          rcases List.mem_cons.mp h with rfl | h
          · exact ⟨past, List.suffix_rfl, rfl, rfl⟩
          · exact isAmong_cons (ih (List.mem_of_mem_filter h)) _
      | endExecution thread => exact isAmong_cons (ih (List.mem_of_mem_filter h)) _
      | terminate => exact isAmong_cons (ih (List.mem_of_mem_filter h)) _
      | setTimestamp ts => exact isAmong_cons (ih h) _
      | flush => exact isAmong_cons (ih h) _

theorem mem_openStarts_of_endedBy {past : List BuilderCall} {call : BuilderCall} {start : Start}
    (h : start ∈ endedBy past call) : start ∈ openStarts past := by
  cases call with
  | endExecution thread => exact List.mem_of_find?_eq_some (Option.mem_toList.mp h)
  | terminate => exact List.mem_of_mem_filter h
  | _ => cases h

theorem isAmong_of_mem_completions {past : List BuilderCall} {completion : Completion}
    (h : completion ∈ completions past) : completion.start.IsAmong past := by
  induction past with
  | nil => cases h
  | cons call past ih =>
      rw [completions] at h
      rcases List.mem_append.mp h with h | h
      · exact isAmong_cons (ih h) call
      · obtain ⟨start, hstart, rfl⟩ := List.mem_map.mp h
        exact isAmong_cons (isAmong_of_mem_openStarts (mem_openStarts_of_endedBy hstart)) call

theorem sinceFlush_suffix (past : List BuilderCall) : sinceFlush past <:+ completions past := by
  induction past with
  | nil => exact List.suffix_rfl
  | cons call past ih =>
      obtain ⟨earlier, hearlier⟩ := ih
      by_cases hflush : call = .flush
      · subst hflush
        exact List.nil_suffix
      · refine ⟨earlier, ?_⟩
        rw [sinceFlush.eq_3 call past hflush, completions, ← hearlier, List.append_assoc]

/-- No two open starts are on one thread. -/
theorem openStarts_threads (past : List BuilderCall) :
    (openStarts past).Pairwise fun a b => a.thread ≠ b.thread := by
  induction past with
  | nil => exact List.Pairwise.nil
  | cons call past ih =>
      cases call with
      | startExecution thread name needsToEnd =>
          refine List.pairwise_cons.mpr ⟨fun start hstart => ?_, ih.filter _⟩
          have hne := List.of_mem_filter hstart
          exact Ne.symm (of_decide_eq_true hne)
      | endExecution thread => exact ih.filter _
      | terminate => exact ih.filter _
      | setTimestamp ts => exact ih
      | flush => exact ih

theorem eq_of_thread_eq {past : List BuilderCall} {a b : Start} (ha : a ∈ openStarts past)
    (hb : b ∈ openStarts past) (h : a.thread = b.thread) : a = b := by
  have hone := (openStarts_threads past).imp fun {a b} hne (heq : a.thread = b.thread) =>
    (absurd heq hne : a = b)
  have htwo := (openStarts_threads past).imp fun {a b} hne (heq : b.thread = a.thread) =>
    (absurd heq.symm hne : b = a)
  exact List.Pairwise.forall_of_forall_of_flip (fun _ _ _ => rfl) hone htwo ha hb h

theorem openStart_eq_some {past : List BuilderCall} {thread : UInt32} {start : Start} :
    openStart past thread = some start ↔ start ∈ openStarts past ∧ start.thread = thread := by
  constructor
  · intro h
    have hthread := List.find?_some h
    exact ⟨List.mem_of_find?_eq_some h, of_decide_eq_true hthread⟩
  · rintro ⟨hmem, rfl⟩
    have hsome : (openStart past start.thread).isSome := by
      rw [openStart, List.find?_isSome]
      exact ⟨start, hmem, decide_eq_true rfl⟩
    obtain ⟨found, hfound⟩ := Option.isSome_iff_exists.mp hsome
    have hmem' := List.mem_of_find?_eq_some hfound
    have hthread := List.find?_some hfound
    rw [hfound, eq_of_thread_eq hmem' hmem (of_decide_eq_true hthread)]

/-! ### No start has two ends -/

/-- The starts that are open or were ended. -/
def knownStarts (past : List BuilderCall) : List Start :=
  openStarts past ++ (completions past).map (·.start)

theorem lt_length_of_isAmong {start : Start} {past : List BuilderCall} (h : start.IsAmong past) :
    start.position < past.length := by
  obtain ⟨before, hsuffix, hposition, -⟩ := h
  rw [hposition]
  exact hsuffix.length_le

theorem isAmong_of_mem_knownStarts {past : List BuilderCall} {start : Start}
    (h : start ∈ knownStarts past) : start.IsAmong past := by
  rcases List.mem_append.mp h with h | h
  · exact isAmong_of_mem_openStarts h
  · obtain ⟨completion, hcompletion, rfl⟩ := List.mem_map.mp h
    exact isAmong_of_mem_completions hcompletion

/-- A start that a call ends is not open any more. -/
theorem ended_subperm {call : BuilderCall} (past : List BuilderCall)
    (hcall : ∀ thread name needsToEnd, call ≠ .startExecution thread name needsToEnd) :
    (openStarts (call :: past) ++ endedBy past call).Subperm (openStarts past) := by
  cases call with
  | startExecution thread name needsToEnd => exact absurd rfl (hcall thread name needsToEnd)
  | setTimestamp ts => exact (List.Perm.of_eq (List.append_nil _)).subperm
  | flush => exact (List.Perm.of_eq (List.append_nil _)).subperm
  | terminate => exact (List.filter_append_perm _ _).subperm
  | endExecution thread =>
      have hfound : (endedBy past (.endExecution thread)).Sublist
          ((openStarts past).filter fun start => !decide (start.thread ≠ thread)) := by
        have hkeep : (fun start : Start => !decide (start.thread ≠ thread)) =
            fun start => decide (start.thread = thread) := by
          funext start
          simp
        rw [hkeep, endedBy, openStart, ← List.head?_filter]
        cases (openStarts past).filter fun start => decide (start.thread = thread) with
        | nil => exact List.Sublist.refl _
        | cons start rest => exact (List.nil_sublist rest).cons_cons start
      exact ((List.Sublist.refl _).append hfound).subperm.trans
        (List.filter_append_perm _ _).subperm

theorem knownStarts_subperm {call : BuilderCall} (past : List BuilderCall)
    (hcall : ∀ thread name needsToEnd, call ≠ .startExecution thread name needsToEnd) :
    (knownStarts (call :: past)).Subperm (knownStarts past) := by
  have hended : (completedBy past call).map (·.start) = endedBy past call := by
    rw [completedBy, List.map_map]
    exact List.map_id _
  have hperm : (knownStarts (call :: past)).Perm
      ((openStarts (call :: past) ++ endedBy past call) ++ (completions past).map (·.start)) := by
    rw [knownStarts, completions, List.map_append, hended, List.append_assoc]
    exact List.perm_append_comm.append_left _
  exact hperm.subperm.trans ((List.subperm_append_right _).mpr (ended_subperm past hcall))

theorem knownStarts_start (past : List BuilderCall) (thread : UInt32) (name : Bytes)
    (needsToEnd : Bool) :
    ∃ others, knownStarts (.startExecution thread name needsToEnd :: past) =
        ⟨past.length, thread, name, clockAfter past, needsToEnd⟩ :: others ∧
      others.Sublist (knownStarts past) := by
  refine ⟨(openStarts past).filter (·.thread ≠ thread) ++ (completions past).map (·.start), ?_,
    List.filter_sublist.append (List.Sublist.refl _)⟩
  rw [knownStarts, completions]
  exact congrArg (openStarts _ ++ List.map _ ·) (List.append_nil _)

theorem knownStarts_once (past : List BuilderCall) :
    ((knownStarts past).map (·.position)).Nodup := by
  induction past with
  | nil => exact List.nodup_nil
  | cons call past ih =>
      by_cases hstart : ∃ thread name needsToEnd, call = .startExecution thread name needsToEnd
      · obtain ⟨thread, name, needsToEnd, rfl⟩ := hstart
        obtain ⟨others, heq, hsub⟩ := knownStarts_start past thread name needsToEnd
        rw [heq, List.map_cons, List.nodup_cons]
        refine ⟨fun hmem => ?_, (hsub.map _).nodup ih⟩
        -- all other starts were made before
        obtain ⟨start, hmem, hposition⟩ := List.mem_map.mp hmem
        have hlt := lt_length_of_isAmong (isAmong_of_mem_knownStarts (hsub.mem hmem))
        exact absurd hposition hlt.ne
      · have hcall : ∀ thread name needsToEnd, call ≠ .startExecution thread name needsToEnd :=
          fun thread name needsToEnd h => hstart ⟨thread, name, needsToEnd, h⟩
        obtain ⟨list, hperm, hsub⟩ := knownStarts_subperm past hcall
        exact (hperm.map _).nodup_iff.mp ((hsub.map _).nodup ih)

/-! ### The builder has the open starts -/

/-- The builder after some calls, in terms of the starts. -/
structure Tracks (past : List BuilderCall) (b : ExecutionsBuilder) : Prop where
  ts : b.ts = clockAfter past
  active : ∀ thread, b.activeExecutions thread = (openStart past thread).map Start.execution
  flags : ∀ start ∈ openStarts past, b.needsToEnd start.thread = some start.needsToEnd
  completed : b.completedExecutions.Perm ((sinceFlush past).map Completion.execution)

theorem find?_filter_thread (starts : List Start) (thread other : UInt32) :
    (starts.filter (·.thread ≠ thread)).find? (·.thread = other) =
      if other = thread then none else starts.find? (·.thread = other) := by
  rw [List.find?_filter]
  split
  · next heq =>
      subst heq
      rw [List.find?_eq_none]
      intro start _ h
      simp at h
  · next hne =>
      congr 1
      funext start
      rw [decide_eq_decide]
      constructor
      · exact fun h => of_decide_eq_true h.2
      · intro h
        exact ⟨decide_eq_true (h ▸ hne), decide_eq_true h⟩

theorem openStart_startExecution (past : List BuilderCall) (thread : UInt32) (name : Bytes)
    (needsToEnd : Bool) (other : UInt32) :
    openStart (.startExecution thread name needsToEnd :: past) other =
      if other = thread then some ⟨past.length, thread, name, clockAfter past, needsToEnd⟩
      else openStart past other := by
  rw [openStart, openStarts, stillOpen, List.find?_cons]
  dsimp only
  by_cases heq : other = thread
  · simp [heq]
  · rw [decide_eq_false (Ne.symm heq), find?_filter_thread, if_neg heq, if_neg heq, openStart]

theorem openStart_endExecution (past : List BuilderCall) (thread other : UInt32) :
    openStart (.endExecution thread :: past) other =
      if other = thread then none else openStart past other :=
  find?_filter_thread _ _ _

theorem openStart_terminate (past : List BuilderCall) (thread : UInt32) :
    openStart (.terminate :: past) thread = (openStart past thread).filter (·.needsToEnd) := by
  ext start
  rw [Option.filter_eq_some_iff, openStart_eq_some, openStart_eq_some, openStarts, stillOpen,
    List.mem_filter]
  tauto

theorem sinceFlush_cons {call : BuilderCall} (past : List BuilderCall) (hcall : call ≠ .flush) :
    sinceFlush (call :: past) = sinceFlush past ++ completedBy past call :=
  sinceFlush.eq_3 call past hcall

theorem Tracks.setTimestamp {past : List BuilderCall} {b : ExecutionsBuilder} (h : Tracks past b)
    (ts : UInt64) : Tracks (.setTimestamp ts :: past) (b.setTimestamp ts) where
  ts := rfl
  active := h.active
  flags := h.flags
  completed := h.completed.trans (.of_eq (congrArg _ (List.append_nil _).symm))

theorem Tracks.startExecution {past : List BuilderCall} {b : ExecutionsBuilder}
    (h : Tracks past b) (thread : UInt32) (name : Bytes) (needsToEnd : Bool) :
    Tracks (.startExecution thread name needsToEnd :: past)
      (b.startExecution thread name needsToEnd) where
  ts := h.ts
  active other := by
    rw [openStart_startExecution, ExecutionsBuilder.startExecution]
    dsimp only
    split
    · next heq =>
        subst heq
        rw [Function.update_self, h.ts]
        rfl
    · next hne => rw [Function.update_of_ne hne, h.active]
  flags start hstart := by
    rw [ExecutionsBuilder.startExecution]
    dsimp only
    rcases List.mem_cons.mp hstart with rfl | hstart
    · exact Function.update_self ..
    · have hne := List.of_mem_filter hstart
      rw [Function.update_of_ne (of_decide_eq_true hne)]
      exact h.flags start (List.mem_of_mem_filter hstart)
  completed := h.completed.trans (.of_eq (congrArg _ (List.append_nil _).symm))

theorem Tracks.flush {past : List BuilderCall} {b : ExecutionsBuilder} (h : Tracks past b) :
    Tracks (.flush :: past) b.flush where
  ts := h.ts
  active := h.active
  flags := h.flags
  completed := .nil

theorem Tracks.endExecution {past : List BuilderCall} {b : ExecutionsBuilder} (h : Tracks past b)
    (thread : UInt32) : Tracks (.endExecution thread :: past) (b.endExecution thread).2 := by
  have hactive := h.active thread
  have hflags : ∀ start ∈ openStarts (.endExecution thread :: past),
      b.needsToEnd start.thread = some start.needsToEnd :=
    fun start hstart => h.flags start (List.mem_of_mem_filter hstart)
  have hcall : BuilderCall.endExecution thread ≠ .flush := by simp
  rw [ExecutionsBuilder.endExecution]
  cases hopen : openStart past thread with
  | none =>
      rw [hopen, Option.map_none] at hactive
      rw [hactive]
      refine ⟨h.ts, fun other => ?_, hflags, ?_⟩
      · rw [openStart_endExecution]
        dsimp only
        split
        · next heq => rw [heq, hactive, Option.map_none]
        · exact h.active other
      · rw [sinceFlush_cons past hcall, completedBy, endedBy, hopen]
        exact h.completed.trans (.of_eq (congrArg _ (List.append_nil _).symm))
  | some start =>
      obtain ⟨-, rfl⟩ := openStart_eq_some.mp hopen
      rw [hopen, Option.map_some] at hactive
      rw [hactive]
      refine ⟨h.ts, fun other => ?_, hflags, ?_⟩
      · rw [openStart_endExecution]
        dsimp only
        split
        · next heq => rw [heq, Function.update_self, Option.map_none]
        · next hne => rw [Function.update_of_ne hne, h.active]
      · rw [sinceFlush_cons past hcall, completedBy, endedBy, hopen, List.map_append]
        dsimp only
        rw [h.ts]
        exact h.completed.append_right _

/-! ### The end of the trace -/

namespace ExecutionsBuilder

/-- The execution that `Terminate` completes when it comes to a thread. -/
def ending (b : ExecutionsBuilder) (thread : UInt32) : Option Execution :=
  if b.needsToEnd thread = some false then
    (b.activeExecutions thread).map fun execution =>
      { execution with endTs := b.ts, endThread := thread }
  else none

theorem endThread_of_ending {b : ExecutionsBuilder} {thread : UInt32} {execution : Execution}
    (h : b.ending thread = some execution) : execution.endThread = thread := by
  rw [ending] at h
  split at h
  · obtain ⟨started, -, rfl⟩ := Option.map_eq_some_iff.mp h
    rfl
  · cases h

/-- One thread of the iteration. -/
def visit (b : ExecutionsBuilder) (thread : UInt32) : ExecutionsBuilder :=
  if b.needsToEnd thread = some false then (b.endExecution thread).2 else b

theorem visit_eq (b : ExecutionsBuilder) (thread : UInt32) :
    b.visit thread =
      { b with
        completedExecutions := b.completedExecutions ++ (b.ending thread).toList
        activeExecutions := fun other =>
          if other = thread ∧ b.needsToEnd other = some false then none
          else b.activeExecutions other } := by
  rw [visit, ending]
  split
  · next hflag =>
      have hactive : Function.update b.activeExecutions thread none = fun other =>
          if other = thread ∧ b.needsToEnd other = some false then none
          else b.activeExecutions other := by
        funext other
        by_cases heq : other = thread
        · subst heq
          simp [hflag]
        · simp [heq]
      rw [endExecution, ← hactive]
      cases hnone : b.activeExecutions thread with
      | none =>
          rw [← hnone, Function.update_eq_self]
          simp [hnone]
      | some execution => rfl
  · next hflag =>
      have hactive : (fun other => if other = thread ∧ b.needsToEnd other = some false then none
          else b.activeExecutions other) = b.activeExecutions := by
        funext other
        refine if_neg fun h => hflag ?_
        rw [← h.1, h.2]
      rw [hactive, Option.toList_none, List.append_nil]

/-- What `Terminate` does: each thread with an active execution and a flag that is not set has
this execution completed. -/
theorem terminate_eq {order : List UInt32} (hnodup : order.Nodup) (b : ExecutionsBuilder) :
    b.terminate order =
      { b with
        completedExecutions := b.completedExecutions ++ order.filterMap b.ending
        activeExecutions := fun other =>
          if other ∈ order ∧ b.needsToEnd other = some false then none
          else b.activeExecutions other } := by
  induction order generalizing b with
  | nil => simp [terminate]
  | cons thread order ih =>
      obtain ⟨hnot, hnodup⟩ := List.nodup_cons.mp hnodup
      have hterminate : b.terminate (thread :: order) = (b.visit thread).terminate order := rfl
      rw [hterminate, ih hnodup, visit_eq]
      have hending : ∀ other ∈ order, ending { b with
            completedExecutions := b.completedExecutions ++ (b.ending thread).toList
            activeExecutions := fun other =>
              if other = thread ∧ b.needsToEnd other = some false then none
              else b.activeExecutions other } other = b.ending other := by
        intro other hother
        have hne : other ≠ thread := fun h => hnot (h ▸ hother)
        rw [ending]
        simp only [hne, false_and, if_false]
        rfl
      dsimp only
      rw [List.filterMap_congr hending, List.append_assoc]
      congr 1
      · cases hthread : b.ending thread with
        | none => rw [List.filterMap_cons_none hthread]; rfl
        | some execution => rw [List.filterMap_cons_some hthread]; rfl
      · funext other
        by_cases heq : other = thread
        · simp [heq, hnot]
        · simp [heq]

end ExecutionsBuilder

/-- What the iteration completes is what the open starts without need of an end give. -/
theorem Tracks.ending_iff {past : List BuilderCall} {b : ExecutionsBuilder} (h : Tracks past b)
    (thread : UInt32) (execution : Execution) :
    b.ending thread = some execution ↔
      ∃ start ∈ openStarts past, start.needsToEnd = false ∧ start.thread = thread ∧
        (⟨start, clockAfter past⟩ : Completion).execution = execution := by
  rw [ExecutionsBuilder.ending, h.active, h.ts]
  constructor
  · intro heq
    split at heq
    · next hflag =>
        rw [Option.map_map, Option.map_eq_some_iff] at heq
        obtain ⟨start, hopen, rfl⟩ := heq
        obtain ⟨hmem, rfl⟩ := openStart_eq_some.mp hopen
        have hown := h.flags start hmem
        rw [hflag] at hown
        exact ⟨start, hmem, (Option.some.inj hown).symm, rfl, rfl⟩
    · cases heq
  · rintro ⟨start, hmem, hneeds, rfl, rfl⟩
    have hflag := h.flags start hmem
    rw [hneeds] at hflag
    rw [if_pos hflag, openStart_eq_some.mpr ⟨hmem, rfl⟩]
    rfl

/-- The iteration comes to all threads that have an open start. -/
theorem Tracks.visits {past : List BuilderCall} {b : ExecutionsBuilder} (h : Tracks past b)
    {order : List UInt32} (horder : b.Traverses order) {start : Start}
    (hmem : start ∈ openStarts past) : start.thread ∈ order := by
  rw [horder.2, h.flags start hmem]
  rfl

/-- The iteration completes what `Terminate` ends. Both sides are without repetition, since the
executions are of different threads. -/
theorem Tracks.endings_perm {past : List BuilderCall} {b : ExecutionsBuilder} (h : Tracks past b)
    {order : List UInt32} (horder : b.Traverses order) :
    (order.filterMap b.ending).Perm
      ((completedBy past .terminate).map Completion.execution) := by
  have hleft : (order.filterMap b.ending).Nodup := by
    refine horder.1.filterMap fun thread thread' execution hthread hthread' => ?_
    rw [← ExecutionsBuilder.endThread_of_ending hthread,
      ← ExecutionsBuilder.endThread_of_ending hthread']
  have hright : ((completedBy past .terminate).map Completion.execution).Nodup := by
    rw [completedBy, List.map_map, endedBy]
    refine List.pairwise_map.mpr (((openStarts_threads past).filter _).imp fun hne heq => hne ?_)
    exact congrArg Execution.endThread heq
  refine (List.perm_ext_iff_of_nodup hleft hright).mpr fun execution => ?_
  rw [List.mem_filterMap, completedBy, List.map_map, List.mem_map, endedBy]
  constructor
  · rintro ⟨thread, -, hending⟩
    obtain ⟨start, hmem, hneeds, -, rfl⟩ := (h.ending_iff thread execution).mp hending
    exact ⟨start, List.mem_filter.mpr ⟨hmem, by simp [hneeds]⟩, rfl⟩
  · rintro ⟨start, hstart, rfl⟩
    obtain ⟨hmem, hneeds⟩ := List.mem_filter.mp hstart
    rw [Bool.not_eq_true'] at hneeds
    exact ⟨start.thread, h.visits horder hmem,
      (h.ending_iff start.thread _).mpr ⟨start, hmem, hneeds, rfl, rfl⟩⟩

theorem Tracks.terminate {past : List BuilderCall} {b : ExecutionsBuilder} (h : Tracks past b)
    {order : List UInt32} (horder : b.Traverses order) :
    Tracks (.terminate :: past) (b.terminate order) := by
  have hcall : BuilderCall.terminate ≠ .flush := by simp
  rw [ExecutionsBuilder.terminate_eq horder.1]
  refine ⟨h.ts, fun thread => ?_, fun start hstart => ?_, ?_⟩
  · rw [openStart_terminate]
    dsimp only
    cases hopen : openStart past thread with
    | none =>
        have hactive := h.active thread
        rw [hopen] at hactive
        rw [hactive, Option.map_none, ite_self]
        rfl
    | some start =>
        obtain ⟨hmem, rfl⟩ := openStart_eq_some.mp hopen
        have hflag := h.flags start hmem
        have hvisited := h.visits horder hmem
        rw [h.active, hopen, hflag]
        cases hneeds : start.needsToEnd with
        | false => simp [hvisited, hneeds]
        | true => simp [hneeds]
  · exact h.flags start (List.mem_of_mem_filter hstart)
  · rw [sinceFlush_cons past hcall, List.map_append]
    exact h.completed.append (h.endings_perm horder)

/-! ### Runs -/

theorem Reaches.tracks {past : List BuilderCall} {b : ExecutionsBuilder} (h : Reaches past b) :
    Tracks past b := by
  induction h with
  | nil => exact ⟨rfl, fun _ => rfl, fun _ hstart => absurd hstart List.not_mem_nil, .nil⟩
  | @call past b b' call _ htakes ih =>
      cases call with
      | setTimestamp ts =>
          obtain rfl := htakes
          exact ih.setTimestamp ts
      | startExecution thread name needsToEnd =>
          obtain rfl := htakes
          exact ih.startExecution thread name needsToEnd
      | endExecution thread =>
          obtain rfl := htakes
          exact ih.endExecution thread
      | terminate =>
          obtain ⟨order, horder, rfl⟩ := htakes
          exact ih.terminate horder
      | flush =>
          obtain rfl := htakes
          exact ih.flush

/-- After any calls, whatever the order in which the iterations of `Terminate` visited the threads,
the completed executions are those of the starts that ended since the last `Flush`. -/
theorem completesPairs_of_reaches {past : List BuilderCall} {b : ExecutionsBuilder}
    (h : Reaches past b) : CompletesPairs past b where
  executions := h.tracks.completed
  recent := sinceFlush_suffix past
  starts _ hcompletion := isAmong_of_mem_completions hcompletion
  once := by
    have honce := knownStarts_once past
    rw [knownStarts, List.map_append, List.map_map] at honce
    exact (List.nodup_append.mp honce).2.1

/-- A flag that is not set stays behind the first execution of thread 1; the second one, which
needs an end, is not completed at the end of the trace. -/
def staleFlag : List BuilderCall :=
  [.terminate, .setTimestamp 30, .startExecution 2 (str "c") false,
    .startExecution 1 (str "b") true, .endExecution 1, .setTimestamp 20,
    .startExecution 1 (str "a") false, .setTimestamp 10]

def staleFlagBuilder : ExecutionsBuilder :=
  let first := (((ExecutionsBuilder.setTimestamp {} 10).startExecution 1 (str "a")
    false).setTimestamp 20).endExecution 1
  ((first.2.startExecution 1 (str "b") true).startExecution 2 (str "c") false).setTimestamp 30

theorem traverses_staleFlag : staleFlagBuilder.Traverses [2, 1] := by
  refine ⟨by decide, fun thread => ?_⟩
  have hflags : staleFlagBuilder.needsToEnd = Function.update (Function.update (Function.update
      (fun _ => none) 1 (some false)) 1 (some true)) 2 (some false) := rfl
  rw [hflags]
  by_cases htwo : thread = 2
  · simp [htwo]
  · by_cases hone : thread = 1
    · simp [hone]
    · simp [htwo, hone]

theorem completesPairs_staleFlag :
    CompletesPairs staleFlag (staleFlagBuilder.terminate [2, 1]) ∧
      (sinceFlush staleFlag).map (fun c => (c.start.name, c.start.ts, c.endTs)) =
        [(str "a", 10, 20), (str "c", 20, 30)] :=
  ⟨completesPairs_of_reaches (.call (.call (.call (.call (.call (.call (.call (.call .nil rfl)
    rfl) rfl) rfl) rfl) rfl) rfl) ⟨[2, 1], traverses_staleFlag, rfl⟩), by decide⟩

end TibeeCompare.Executions
