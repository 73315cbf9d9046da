import TibeeCompare.Basic
import Mathlib.Data.List.Basic
import Mathlib.Data.UInt
import Mathlib.Logic.Function.Basic

/-!
`SpecialBlock`: the times of updates and of two of their steps, for one update in ten.

What a handler reads from the event and the current state is its arguments: the time, the thread
and a name. The maps of the source create an entry with zeros where they have none.
-/

namespace TibeeCompare.ExecutionBlocks

structure ThreadStats where
  executionBegin : UInt64 := 0
  executionEnd : UInt64 := 0
  stepBegin : Bytes → UInt64 := fun _ => 0
  stepEnd : Bytes → UInt64 := fun _ => 0

/-- A line of `std::cout`. -/
structure Timings where
  execution : UInt64
  lock : UInt64
  plan : UInt64
deriving DecidableEq, Repr

structure SpecialBlock where
  threadStats : UInt32 → ThreadStats := fun _ => {}
  numPrinted : ℕ := 0
  lines : List Timings := []

/-- The events of the tool that the block listens to. -/
inductive Tracekit
  | begin_ (type : Bytes)
  | end_
  | stepBegin (step : Bytes)
  | stepEnd (step : Bytes)
deriving DecidableEq, Repr

structure TracekitEvent where
  ts : UInt64
  thread : UInt32
  kind : Tracekit
deriving DecidableEq, Repr

def kUpdate : Bytes := str "update"

namespace SpecialBlock

variable (block : SpecialBlock) (ts : UInt64) (thread : UInt32)

def setStats (stats : ThreadStats) : SpecialBlock :=
  { block with threadStats := Function.update block.threadStats thread stats }

def onExecutionBegin (type : Bytes) : SpecialBlock :=
  block.setStats thread { executionBegin := if type = kUpdate then ts else 0 }

def onExecutionEnd : SpecialBlock :=
  let stats := block.threadStats thread
  if stats.executionBegin = 0 then block
  else
    let numPrinted := block.numPrinted + 1
    if numPrinted ≠ 10 then { block with numPrinted }
    else
      let execution := ts - stats.executionBegin
      let lock := stats.stepEnd (str "lock") - stats.stepBegin (str "lock")
      let plan := stats.stepEnd (str "plan") - stats.stepBegin (str "plan")
      let block := block.setStats thread { stats with executionBegin := 0, executionEnd := ts }
      { block with numPrinted := 0, lines := block.lines ++ [⟨execution, lock, plan⟩] }

def onStepBegin (step : Bytes) : SpecialBlock :=
  let stats := block.threadStats thread
  block.setStats thread { stats with stepBegin := Function.update stats.stepBegin step ts }

def onStepEnd (step : Bytes) : SpecialBlock :=
  let stats := block.threadStats thread
  block.setStats thread { stats with stepEnd := Function.update stats.stepEnd step ts }

def onEvent (event : TracekitEvent) : SpecialBlock :=
  match event.kind with
  | .begin_ type => block.onExecutionBegin event.ts event.thread type
  | .end_ => block.onExecutionEnd event.ts event.thread
  | .stepBegin step => block.onStepBegin event.ts event.thread step
  | .stepEnd step => block.onStepEnd event.ts event.thread step

end SpecialBlock

/-! ### What is printed -/

/-- The last begin of the thread is that of an update, at `ts`. -/
def UpdatingSince (past : List TracekitEvent) (thread : UInt32) (ts : UInt64) : Prop :=
  ∃ before later, past = before ++ ⟨ts, thread, .begin_ kUpdate⟩ :: later ∧
    ∀ type, ∀ event ∈ later, event.thread = thread → event.kind ≠ .begin_ type

/-- The line is for an end, and has the time since the begin of the update. -/
def Measured (past : List TracekitEvent) (line : Timings) : Prop :=
  ∃ before thread beginTs endTs later, past = before ++ ⟨endTs, thread, .end_⟩ :: later ∧
    UpdatingSince before thread beginTs ∧ line.execution = endTs - beginTs

def numEnds (past : List TracekitEvent) : ℕ := past.countP fun event => event.kind = .end_

section

variable {past : List TracekitEvent} {event : TracekitEvent} {thread : UInt32} {ts : UInt64}

theorem UpdatingSince.append (h : UpdatingSince past thread ts)
    (hother : ∀ type, event.thread = thread → event.kind ≠ .begin_ type) :
    UpdatingSince (past ++ [event]) thread ts := by
  obtain ⟨before, later, rfl, hlater⟩ := h
  refine ⟨before, later ++ [event], by simp, fun type other hmem => ?_⟩
  rcases List.mem_append.mp hmem with hmem | hmem
  · exact hlater type other hmem
  · rw [List.mem_singleton.mp hmem]
    exact hother type

theorem updatingSince_self (past : List TracekitEvent) (ts : UInt64) (thread : UInt32) :
    UpdatingSince (past ++ [⟨ts, thread, .begin_ kUpdate⟩]) thread ts :=
  ⟨past, [], rfl, fun _ _ hmem => absurd hmem List.not_mem_nil⟩

theorem Measured.append {line : Timings} (h : Measured past line) (event : TracekitEvent) :
    Measured (past ++ [event]) line := by
  obtain ⟨before, thread, beginTs, endTs, later, rfl, hsince, hline⟩ := h
  exact ⟨before, thread, beginTs, endTs, later ++ [event], by simp, hsince, hline⟩

end

/-- What the block knows of the events so far. -/
structure Watches (past : List TracekitEvent) (block : SpecialBlock) : Prop where
  begins : ∀ thread, (block.threadStats thread).executionBegin ≠ 0 →
    UpdatingSince past thread (block.threadStats thread).executionBegin
  lines : ∀ line ∈ block.lines, Measured past line
  /-- Each line used up ten ends. -/
  few : 10 * block.lines.length + block.numPrinted ≤ numEnds past

section watches

variable {past : List TracekitEvent} {block : SpecialBlock}

/-- An event that is no begin leaves the begins of all threads, but for an update that is over. -/
theorem Watches.begins_append (h : Watches past block) (event : TracekitEvent)
    {stats : ThreadStats} (hkind : ∀ type, event.kind ≠ .begin_ type)
    (hstats : stats.executionBegin = 0 ∨
      stats.executionBegin = (block.threadStats event.thread).executionBegin) (thread : UInt32)
    (hne : ((block.setStats event.thread stats).threadStats thread).executionBegin ≠ 0) :
    UpdatingSince (past ++ [event]) thread
      ((block.setStats event.thread stats).threadStats thread).executionBegin := by
  unfold SpecialBlock.setStats at hne ⊢
  dsimp only at hne ⊢
  by_cases hthread : thread = event.thread
  · subst hthread
    rw [Function.update_self] at hne ⊢
    have hsame := hstats.resolve_left hne
    rw [hsame] at hne ⊢
    exact (h.begins _ hne).append fun type _ => hkind type
  · rw [Function.update_of_ne hthread] at hne ⊢
    exact (h.begins thread hne).append fun type _ => hkind type

theorem numEnds_append_of_ne {event : TracekitEvent} (hkind : event.kind ≠ .end_) :
    numEnds (past ++ [event]) = numEnds past := by
  rw [numEnds, numEnds, List.countP_append, List.countP_singleton, if_neg (by simpa using hkind),
    Nat.add_zero]

theorem numEnds_append_end (past : List TracekitEvent) (ts : UInt64) (thread : UInt32) :
    numEnds (past ++ [⟨ts, thread, .end_⟩]) = numEnds past + 1 := by
  rw [numEnds, numEnds, List.countP_append, List.countP_singleton, if_pos (by simp)]

theorem Watches.onExecutionBegin (h : Watches past block) (ts : UInt64) (thread : UInt32)
    (type : Bytes) : Watches (past ++ [⟨ts, thread, .begin_ type⟩])
      (block.onExecutionBegin ts thread type) where
  begins other hne := by
    unfold SpecialBlock.onExecutionBegin SpecialBlock.setStats at hne ⊢
    dsimp only at hne ⊢
    by_cases hthread : other = thread
    · subst hthread
      rw [Function.update_self] at hne ⊢
      dsimp only at hne ⊢
      by_cases htype : type = kUpdate
      · subst htype
        rw [if_pos rfl]
        exact updatingSince_self past ts other
      · rw [if_neg htype] at hne
        exact absurd rfl hne
    · rw [Function.update_of_ne hthread] at hne ⊢
      exact (h.begins other hne).append fun _ hsame => absurd hsame.symm hthread
  lines line hline := (h.lines line hline).append _
  few := by
    rw [numEnds_append_of_ne (by simp)]
    exact h.few

theorem Watches.onExecutionEnd (h : Watches past block) (ts : UInt64) (thread : UInt32) :
    Watches (past ++ [⟨ts, thread, .end_⟩]) (block.onExecutionEnd ts thread) := by
  have hbegins : ∀ other, (block.threadStats other).executionBegin ≠ 0 →
      UpdatingSince (past ++ [⟨ts, thread, .end_⟩]) other
        (block.threadStats other).executionBegin :=
    fun other hne => (h.begins other hne).append fun _ _ => by simp
  have hlines : ∀ line ∈ block.lines, Measured (past ++ [⟨ts, thread, .end_⟩]) line :=
    fun line hline => (h.lines line hline).append _
  have hfew := h.few
  have hends := numEnds_append_end past ts thread
  unfold SpecialBlock.onExecutionEnd
  dsimp only
  split
  · exact ⟨hbegins, hlines, by omega⟩
  · next hupdating =>
      split
      · refine ⟨hbegins, hlines, ?_⟩
        dsimp only
        omega
      · next hten =>
          refine ⟨fun other hne => ?_, ?_, ?_⟩
          · exact h.begins_append ⟨ts, thread, .end_⟩ (by simp) (.inl rfl) other hne
          · refine List.forall_mem_append.mpr ⟨hlines, List.forall_mem_singleton.mpr ?_⟩
            exact ⟨past, thread, _, ts, [], rfl, h.begins thread hupdating, rfl⟩
          · show 10 * (block.lines ++ [_]).length + 0 ≤ _
            rw [List.length_append, List.length_singleton]
            omega

theorem Watches.onEvent (h : Watches past block) (event : TracekitEvent) :
    Watches (past ++ [event]) (block.onEvent event) := by
  obtain ⟨ts, thread, kind⟩ := event
  cases kind with
  | begin_ type => exact h.onExecutionBegin ts thread type
  | end_ => exact h.onExecutionEnd ts thread
  | stepBegin step =>
      refine ⟨fun other hne => ?_, fun line hline => (h.lines line hline).append _, ?_⟩
      · refine h.begins_append ⟨ts, thread, .stepBegin step⟩ (by simp) (.inr ?_) other hne
        rfl
      · rw [numEnds_append_of_ne (by simp)]
        exact h.few
  | stepEnd step =>
      refine ⟨fun other hne => ?_, fun line hline => (h.lines line hline).append _, ?_⟩
      · refine h.begins_append ⟨ts, thread, .stepEnd step⟩ (by simp) (.inr ?_) other hne
        rfl
      · rw [numEnds_append_of_ne (by simp)]
        exact h.few

/-- What was printed after some events: one line for ten ends at most, each with the time of an
update from its begin to its end. -/
theorem watches_foldl (h : Watches past block) (events : List TracekitEvent) :
    Watches (past ++ events) (events.foldl SpecialBlock.onEvent block) := by
  induction events generalizing past block with
  | nil =>
      rw [List.append_nil]
      exact h
  | cons event events ih =>
      rw [List.foldl_cons, ← List.singleton_append, ← List.append_assoc]
      exact ih (h.onEvent event)

theorem watches_initial : Watches [] {} where
  begins _ hne := absurd rfl hne
  lines _ hline := absurd hline List.not_mem_nil
  few := le_rfl

end watches

end TibeeCompare.ExecutionBlocks
