import TibeeCompare.State.Histories
import TibeeCompare.Lib.Runs
import Mathlib.Data.Option.Basic

/-!
Histories of the state with cleanups, against the same histories without them.

A cleanup keeps, for each key, the last entry before its cutoff and all later ones. So
the last value of a key, on which all writes depend, is always there, and so is the
entry that answers a query from the cutoff on.
-/

namespace TibeeCompare.State

open Timelines

def Op.cutoff? : Op → Option ℕ
  | cleanup ts => some ts
  | _ => none

def cutoffs (ops : List Op) : List ℕ := ops.filterMap Op.cutoff?

def withoutCleanups (ops : List Op) : List Op := ops.filter fun op => op.cutoff?.isNone

/-- The two histories answer all queries from `t` on alike. -/
def AgreeFrom (t : ℕ) (h h' : StateHistory) : Prop :=
  ∀ key, h.getUIntegerValue key t = h'.getUIntegerValue key t ∧
    h.getULongValue key t = h'.getULongValue key t ∧
    ∀ end_, h.enumerateUIntegerValues key t end_ = h'.enumerateUIntegerValues key t end_

/-- The run with the cleanups and the run without them either both do not return, or
answer alike from the cutoffs on. -/
def SameAnswers (ops : List Op) : Prop :=
  Option.Rel (fun h h' => ∀ t, (∀ cutoff ∈ cutoffs ops, cutoff ≤ t) → AgreeFrom t h h')
    (after (withoutCleanups ops)) (after ops)

/-! ### One key -/

section Entries

variable {V : Type} [DecidableEq V]

/-- Entries in order, none of which is later than `now`. -/
structure Timely (now : ℕ) (entries : List (Entry V)) : Prop where
  sorted : Sorted entries
  le_now : ∀ e ∈ entries, e.ts ≤ now

omit [DecidableEq V] in
theorem Timely.mono {now now' : ℕ} {entries : List (Entry V)} (h : Timely now entries)
    (hnow : now ≤ now') : Timely now' entries :=
  ⟨h.sorted, fun e he => (h.le_now e he).trans hnow⟩

theorem Timely.setValue {now : ℕ} {entries : List (Entry V)} (h : Timely now entries) (value : V) :
    Timely now (setValue now value entries) := by
  rcases setValue_cases now value entries with ⟨-, heq⟩ | heq
  · rwa [heq]
  · rw [heq]
    refine ⟨List.pairwise_append.mpr ⟨h.sorted, List.pairwise_singleton _ _, ?_⟩, ?_⟩
    · intro a ha e he
      rw [List.mem_singleton.mp he]
      exact h.le_now a ha
    · intro e he
      rcases List.mem_append.mp he with he | he
      · exact h.le_now e he
      · rw [List.mem_singleton.mp he]

/-- A value is added to trimmed entries as it is to all of them. -/
theorem trims_setValue {p : Entry V → Bool} {entries trimmed : List (Entry V)}
    (h : Trims p entries trimmed) (ts : ℕ) (value : V) :
    Trims p (setValue ts value entries) (setValue ts value trimmed) := by
  rw [setValue, setValue, h.getLast?]
  split
  · exact h
  · exact h.append _

end Entries

/-- `trimmed` has the entries of a key that cleanups up to `cutoff` leave. -/
structure Cleaned {V : Type} (cutoff now : ℕ) (entries trimmed : List (Entry V)) : Prop where
  timely : Timely now entries
  trims : Trims (before cutoff) entries trimmed

section Cleaned

variable {V : Type} {cutoff now : ℕ} {entries trimmed : List (Entry V)}

theorem Cleaned.sorted (h : Cleaned cutoff now entries trimmed) : Sorted trimmed :=
  List.Pairwise.sublist h.trims.suffix.sublist h.timely.sorted

theorem Cleaned.cleanEntries (h : Cleaned cutoff now entries trimmed) (ts : ℕ) :
    Cleaned (max cutoff ts) now entries (cleanEntries ts trimmed) := by
  refine ⟨h.timely, Trims.trans (h.trims.mono fun e he => ?_)
    ((trims_searchBack (h.sorted.before ts)).mono fun e he => ?_)⟩
  · exact before_eq_true.mpr ((before_eq_true.mp he).trans_le (Nat.le_max_left _ _))
  · exact before_eq_true.mpr ((before_eq_true.mp he).trans_le (Nat.le_max_right _ _))

/-- From the cutoff on, a search finds the same entries. -/
theorem Cleaned.entriesFrom_eq (h : Cleaned cutoff now entries trimmed) {t : ℕ} (ht : cutoff ≤ t) :
    entriesFrom t trimmed = entriesFrom t entries :=
  have htrims := h.trims.mono fun _ he =>
    atOrBefore_eq_true.mpr ((before_eq_true.mp he).le.trans ht)
  htrims.searchBack_eq (h.timely.sorted.atOrBefore t)

end Cleaned

/-- Two branches on equivalent conditions are related if they are so one by one. -/
theorem related_ite {α β : Type} {r : α → β → Prop} {c c' : Prop} [Decidable c] [Decidable c']
    (hc : c' ↔ c) {a b : α} {a' b' : β} (hthen : r a a') (helse : r b b') :
    r (if c then a else b) (if c' then a' else b') := by
  by_cases h : c
  · rwa [if_pos h, if_pos (hc.mpr h)]
  · rwa [if_neg h, if_neg (mt hc.mp h)]

/-! ### The whole state -/

/-- `h'` is `h` after cleanups with cutoffs up to `cutoff`. -/
structure Follows (cutoff : ℕ) (h h' : StateHistory) : Prop where
  ts : h'.ts = h.ts
  perfCounterStates : h'.perfCounterStates = h.perfCounterStates
  uInteger : ∀ key, Cleaned cutoff h.ts (h.uIntegerHistory key) (h'.uIntegerHistory key)
  uLong : ∀ key, Cleaned cutoff h.ts (h.uLongHistory key) (h'.uLongHistory key)

namespace Follows

variable {cutoff : ℕ} {h h' : StateHistory}

theorem setTimestamp (hf : Follows cutoff h h') {ts : ℕ} (hts : h.ts ≤ ts) :
    Follows cutoff (h.setTimestamp ts) (h'.setTimestamp ts) :=
  ⟨rfl, hf.perfCounterStates,
    fun key => ⟨(hf.uInteger key).timely.mono hts, (hf.uInteger key).trims⟩,
    fun key => ⟨(hf.uLong key).timely.mono hts, (hf.uLong key).trims⟩⟩

theorem cleanup (hf : Follows cutoff h h') (ts : ℕ) :
    Follows (max cutoff ts) h (h'.cleanup ts) :=
  ⟨hf.ts, hf.perfCounterStates, fun key => (hf.uInteger key).cleanEntries ts,
    fun key => (hf.uLong key).cleanEntries ts⟩

/-- What holds for the old entries of each key and the new ones of one holds for all. -/
theorem cleaned_update {V : Type} {now : ℕ} {histories histories' : AttributeKey → List (Entry V)}
    (hall : ∀ key, Cleaned cutoff now (histories key) (histories' key)) {key : AttributeKey}
    {entries entries' : List (Entry V)} (hone : Cleaned cutoff now entries entries')
    (other : AttributeKey) :
    Cleaned cutoff now (Function.update histories key entries other)
      (Function.update histories' key entries' other) := by
  by_cases hkey : other = key
  · subst hkey
    rwa [Function.update_self, Function.update_self]
  · rw [Function.update_of_ne hkey, Function.update_of_ne hkey]
    exact hall other

theorem setUIntegerValue (hf : Follows cutoff h h') (key : AttributeKey) (value : UInt32) :
    Follows cutoff (h.setUIntegerValue key value) (h'.setUIntegerValue key value) := by
  refine ⟨hf.ts, hf.perfCounterStates, cleaned_update hf.uInteger ?_, hf.uLong⟩
  rw [hf.ts]
  exact ⟨(hf.uInteger key).timely.setValue value, trims_setValue (hf.uInteger key).trims _ _⟩

theorem setULongValue (hf : Follows cutoff h h') (key : AttributeKey) (value : UInt64) :
    Follows cutoff (h.setULongValue key value) (h'.setULongValue key value) := by
  refine ⟨hf.ts, hf.perfCounterStates, hf.uInteger, cleaned_update hf.uLong ?_⟩
  rw [hf.ts]
  exact ⟨(hf.uLong key).timely.setValue value, trims_setValue (hf.uLong key).trims _ _⟩

theorem setPerfCounterState (hf : Follows cutoff h h') (key : AttributeKey)
    (state : PerfCounterState) :
    Follows cutoff (h.setPerfCounterState key state) (h'.setPerfCounterState key state) := by
  refine ⟨hf.ts, ?_, hf.uInteger, hf.uLong⟩
  rw [StateHistory.setPerfCounterState, StateHistory.setPerfCounterState, hf.perfCounterStates]

theorem getULongLastValue (hf : Follows cutoff h h') (key : AttributeKey) :
    h'.getULongLastValue key = h.getULongLastValue key := by
  rw [StateHistory.getULongLastValue, StateHistory.getULongLastValue, (hf.uLong key).trims.getLast?]

theorem uLongHistory_eq_nil (hf : Follows cutoff h h') (key : AttributeKey) :
    h'.uLongHistory key = [] ↔ h.uLongHistory key = [] := (hf.uLong key).trims.eq_nil_iff

theorem perfCounterCpuValue (hf : Follows cutoff h h')
    {setBaseValue : StateHistory → AttributeKey → UInt64 → Option StateHistory}
    (hbase : ∀ h h' key value, Follows cutoff h h' →
      Option.Rel (Follows cutoff) (setBaseValue h key value) (setBaseValue h' key value))
    (key : AttributeKey) (value : UInt64) :
    Option.Rel (Follows cutoff) (StateHistory.perfCounterCpuValue setBaseValue h key value)
      (StateHistory.perfCounterCpuValue setBaseValue h' key value) := by
  rw [StateHistory.perfCounterCpuValue, StateHistory.perfCounterCpuValue, hf.perfCounterStates,
    hf.getULongLastValue]
  split
  · exact hbase h h' key value hf
  · exact .some ((hf.setULongValue key _).setPerfCounterState key _)

theorem perfCounterCpuBaseValue (rounds : ℕ) (hf : Follows cutoff h h') (key : AttributeKey)
    (value : UInt64) :
    Option.Rel (Follows cutoff) (StateHistory.perfCounterCpuBaseValue rounds h key value)
      (StateHistory.perfCounterCpuBaseValue rounds h' key value) := by
  induction rounds generalizing h h' key value with
  | zero => exact .none
  | succ rounds ih =>
      rw [StateHistory.perfCounterCpuBaseValue, StateHistory.perfCounterCpuBaseValue,
        hf.perfCounterStates, hf.getULongLastValue]
      have hf' := hf.setPerfCounterState key { h.perfCounterStates key with
        cpuAbsolute := value, cpuReal := h.getULongLastValue key }
      exact related_ite (hf'.uLongHistory_eq_nil key)
        (hf'.perfCounterCpuValue (fun _ _ key value hf => ih hf key value) key value) (.some hf')

theorem setPerfCounterThreadValue (hf : Follows cutoff h h') (key : AttributeKey) (value : UInt64) :
    Follows cutoff (h.setPerfCounterThreadValue key value)
      (h'.setPerfCounterThreadValue key value) := by
  rw [StateHistory.setPerfCounterThreadValue, StateHistory.setPerfCounterThreadValue,
    hf.perfCounterStates, hf.getULongLastValue]
  have hf' := hf.setPerfCounterState key { h.perfCounterStates key with
    threadAbsolute := value, threadReal := h.getULongLastValue key }
  exact related_ite Iff.rfl
    (related_ite (hf'.uLongHistory_eq_nil key) (hf'.setULongValue key 0) hf')
    ((hf.setULongValue key _).setPerfCounterState key _)

/-- An operation other than a cleanup. -/
theorem run (hf : Follows cutoff h h') {op : Op} (hop : op.cutoff? = none)
    (hclock : ∀ ts, op.timestamp? = some ts → h.ts ≤ ts) :
    Option.Rel (Follows cutoff) (op.run h) (op.run h') := by
  cases op with
  | setTimestamp ts => exact .some (hf.setTimestamp (hclock ts rfl))
  | setUIntegerValue key value => exact .some (hf.setUIntegerValue key value)
  | setULongValue key value => exact .some (hf.setULongValue key value)
  | setPerfCounterCpuBaseValue key value => exact hf.perfCounterCpuBaseValue 2 key value
  | setPerfCounterCpuValue key value =>
      exact hf.perfCounterCpuValue
        (fun _ _ key value hf => hf.perfCounterCpuBaseValue 2 key value) key value
  | setPerfCounterThreadValue key value => exact .some (hf.setPerfCounterThreadValue key value)
  | cleanup ts => cases hop

theorem agreeFrom (hf : Follows cutoff h h') {t : ℕ} (ht : cutoff ≤ t) : AgreeFrom t h h' := by
  intro key
  refine ⟨?_, ?_, fun end_ => ?_⟩
  · rw [StateHistory.getUIntegerValue, StateHistory.getUIntegerValue, getValue, getValue,
      (hf.uInteger key).entriesFrom_eq ht]
  · rw [StateHistory.getULongValue, StateHistory.getULongValue, getValue, getValue,
      (hf.uLong key).entriesFrom_eq ht]
  · rw [StateHistory.enumerateUIntegerValues, StateHistory.enumerateUIntegerValues,
      enumerateValues, enumerateValues, (hf.uInteger key).entriesFrom_eq ht]

end Follows

/-! ### Whole runs -/

/-- The latest of some cutoffs and another one. -/
def latest (cutoff : ℕ) (ops : List Op) : ℕ := (cutoffs ops).foldl max cutoff

theorem latest_le {t cutoff : ℕ} {ops : List Op} (hcutoff : cutoff ≤ t)
    (hall : ∀ other ∈ cutoffs ops, other ≤ t) : latest cutoff ops ≤ t :=
  foldl_max_le hcutoff hall

theorem perfCounterCpuValue_ts
    {setBaseValue : StateHistory → AttributeKey → UInt64 → Option StateHistory}
    (hbase : ∀ h key value h', setBaseValue h key value = some h' → h'.ts = h.ts)
    {h h' : StateHistory} {key : AttributeKey} {value : UInt64}
    (hrun : StateHistory.perfCounterCpuValue setBaseValue h key value = some h') :
    h'.ts = h.ts := by
  rw [StateHistory.perfCounterCpuValue] at hrun
  split at hrun
  · exact hbase h key value h' hrun
  · rw [← Option.some.inj hrun]
    rfl

theorem perfCounterCpuBaseValue_ts (rounds : ℕ) (h : StateHistory) (key : AttributeKey)
    (value : UInt64) (h' : StateHistory)
    (hrun : StateHistory.perfCounterCpuBaseValue rounds h key value = some h') : h'.ts = h.ts := by
  induction rounds generalizing h key value h' with
  | zero => cases hrun
  | succ rounds ih =>
      rw [StateHistory.perfCounterCpuBaseValue] at hrun
      split at hrun
      · have hts := perfCounterCpuValue_ts ih hrun
        exact hts
      · rw [← Option.some.inj hrun]
        rfl

/-- The clock is the one that the last operation on it set. -/
theorem Op.run_ts {h h' : StateHistory} {op : Op} (hrun : op.run h = some h') :
    h'.ts = op.timestamp?.getD h.ts := by
  cases op with
  | setPerfCounterCpuBaseValue key value => exact perfCounterCpuBaseValue_ts 2 h key value h' hrun
  | setPerfCounterCpuValue key value =>
      exact perfCounterCpuValue_ts (perfCounterCpuBaseValue_ts 2) hrun
  | setPerfCounterThreadValue key value =>
      rw [← Option.some.inj hrun, StateHistory.setPerfCounterThreadValue]
      dsimp only
      split_ifs <;> rfl
  | _ =>
      rw [← Option.some.inj hrun]
      rfl

/-- What is still to come is not before the clock. -/
theorem le_of_run {h h' : StateHistory} {op : Op} {ops : List Op} (hrun : op.run h = some h')
    (hclock : NonDecreasing (op :: ops))
    (hnow : ∀ ts ∈ (op :: ops).filterMap Op.timestamp?, h.ts ≤ ts) :
    ∀ ts ∈ ops.filterMap Op.timestamp?, h'.ts ≤ ts := by
  intro ts hts
  rw [Op.run_ts hrun]
  cases hop : op.timestamp? with
  | none => exact hnow ts (by rwa [List.filterMap_cons_none hop])
  | some now =>
      rw [NonDecreasing, List.filterMap_cons_some hop] at hclock
      exact (List.pairwise_cons.mp hclock).1 ts hts

theorem runAll_follows {cutoff : ℕ} {h h' : StateHistory} (hf : Follows cutoff h h') {ops : List Op}
    (hclock : NonDecreasing ops) (hnow : ∀ ts ∈ ops.filterMap Op.timestamp?, h.ts ≤ ts) :
    Option.Rel (Follows (latest cutoff ops)) (runAll h (withoutCleanups ops)) (runAll h' ops) := by
  induction ops generalizing cutoff h h' with
  | nil => exact .some hf
  | cons op ops ih =>
      have hops : NonDecreasing ops :=
        List.Pairwise.sublist ((List.sublist_cons_self op ops).filterMap _) hclock
      rw [runAll_cons]
      cases hop : op.cutoff? with
      | some ts =>
          obtain rfl : op = .cleanup ts := by
            cases op <;> cases hop
            rfl
          exact ih (hf.cleanup ts) hops hnow
      | none =>
          have hlatest : latest cutoff (op :: ops) = latest cutoff ops := by
            rw [latest, cutoffs, List.filterMap_cons_none hop]
            rfl
          have hkept : withoutCleanups (op :: ops) = op :: withoutCleanups ops :=
            List.filter_cons_of_pos (by rw [hop]; rfl)
          have hstep := hf.run hop fun ts hts => hnow ts (by
            rw [List.filterMap_cons_some hts]
            exact List.mem_cons_self)
          rw [hkept, runAll_cons, hlatest]
          exact Runs.rel_bind hstep fun s s' hrun hf' =>
            ih hf' hops (le_of_run hrun hclock hnow)

theorem follows_empty : Follows 0 {} {} := by
  have hcleaned : ∀ {V : Type}, Cleaned 0 0 ([] : List (Entry V)) [] := fun {V} =>
    ⟨⟨List.Pairwise.nil, fun _ he => (by cases he)⟩, Trims.refl _ _⟩
  exact ⟨rfl, rfl, fun _ => hcleaned, fun _ => hcleaned⟩

/-- Cleanups change nothing that is asked from the cutoffs on, whatever is recorded
before and after them. -/
theorem sameAnswers_of_nonDecreasing {ops : List Op} (hclock : NonDecreasing ops) :
    SameAnswers ops := by
  have hrel := runAll_follows follows_empty hclock fun ts _ => Nat.zero_le ts
  rw [SameAnswers, after, after]
  generalize runAll {} (withoutCleanups ops) = kept, runAll {} ops = cleaned at hrel
  cases hrel with
  | none => exact .none
  | some hf => exact .some fun t ht => hf.agreeFrom (latest_le (Nat.zero_le t) ht)

/-- Two cleanups between values and counter readings. -/
theorem sameAnswers_twoCleanups : SameAnswers [.setTimestamp 1, .setUIntegerValue 1 5,
    .setPerfCounterCpuBaseValue 2 100, .setTimestamp 3, .setUIntegerValue 1 6,
    .setPerfCounterCpuValue 2 150, .cleanup 3, .setTimestamp 8, .setUIntegerValue 1 5,
    .setPerfCounterThreadValue 2 20, .cleanup 5, .setPerfCounterCpuValue 2 170] :=
  sameAnswers_of_nonDecreasing (by decide)

end TibeeCompare.State
