import TibeeCompare.Basic
import TibeeCompare.Lib.Timelines

/-!
`state::StateHistory`: the values of attributes over time, and the states of the
performance counters.

A vector is never empty once its key is in a map, so that a key without entries reads
as one that is not in the map.
-/

namespace TibeeCompare.State

open Timelines

abbrev AttributeKey := ℕ

/-! ### The values of one key -/

structure Entry (V : Type) where
  ts : ℕ
  value : V
deriving DecidableEq

section Entries

variable {V : Type}

/-- A value that is the last one already is not added again. -/
def setValue [DecidableEq V] (ts : ℕ) (value : V) (keyHistory : List (Entry V)) : List (Entry V) :=
  if (keyHistory.getLast?.map Entry.value) = some value then keyHistory
  else keyHistory ++ [⟨ts, value⟩]

/-- `EntryComparator` in a search for the first entry behind `ts`. -/
def atOrBefore (ts : ℕ) (e : Entry V) : Bool := !decide (ts < e.ts)

/-- `EntryComparator` in a search for the first entry that is not before `ts`. -/
def before (ts : ℕ) (e : Entry V) : Bool := decide (e.ts < ts)

/-- `std::upper_bound`, and one entry back if there is one. -/
def entriesFrom (ts : ℕ) (keyHistory : List (Entry V)) : List (Entry V) :=
  searchBack (atOrBefore ts) keyHistory

def getValue (ts : ℕ) (keyHistory : List (Entry V)) : Option V :=
  match (entriesFrom ts keyHistory).head? with
  | none => none
  | some e => if e.ts ≤ ts then some e.value else none

/-- The loop over the entries: the values that the callback is given, with their
intervals. -/
def intervalsFrom (start end_ : ℕ) : List (Entry V) → List (V × ℕ × ℕ)
  | [] => []
  | e :: rest =>
      if end_ ≤ e.ts then []
      else
        let intervalEnd :=
          match rest.head? with
          | none => end_
          | some next => min next.ts end_
        (e.value, max e.ts start, intervalEnd) :: intervalsFrom start end_ rest

def enumerateValues (start end_ : ℕ) (keyHistory : List (Entry V)) : List (V × ℕ × ℕ) :=
  intervalsFrom start end_ (entriesFrom start keyHistory)

/-- `std::lower_bound`, and one entry back if there is one: what comes before is
removed. -/
def cleanEntries (ts : ℕ) (keyHistory : List (Entry V)) : List (Entry V) :=
  searchBack (before ts) keyHistory

end Entries

/-! ### The history -/

def kInvalid : UInt64 := -1

structure PerfCounterState where
  cpuAbsolute : UInt64 := kInvalid
  cpuReal : UInt64 := kInvalid
  threadAbsolute : UInt64 := kInvalid
  threadReal : UInt64 := kInvalid

structure StateHistory where
  ts : ℕ := 0
  uIntegerHistory : AttributeKey → List (Entry UInt32) := fun _ => []
  uLongHistory : AttributeKey → List (Entry UInt64) := fun _ => []
  perfCounterStates : AttributeKey → PerfCounterState := fun _ => {}

namespace StateHistory

def setTimestamp (h : StateHistory) (ts : ℕ) : StateHistory := { h with ts }

/-- Removes everything that is before the specified timestamp. -/
def cleanup (h : StateHistory) (ts : ℕ) : StateHistory :=
  { h with
    uIntegerHistory := fun key => cleanEntries ts (h.uIntegerHistory key)
    uLongHistory := fun key => cleanEntries ts (h.uLongHistory key) }

def setUIntegerValue (h : StateHistory) (key : AttributeKey) (value : UInt32) : StateHistory :=
  { h with
    uIntegerHistory :=
      Function.update h.uIntegerHistory key (setValue h.ts value (h.uIntegerHistory key)) }

def getUIntegerValue (h : StateHistory) (key : AttributeKey) (ts : ℕ) : Option UInt32 :=
  getValue ts (h.uIntegerHistory key)

def enumerateUIntegerValues (h : StateHistory) (key : AttributeKey) (start end_ : ℕ) :
    List (UInt32 × ℕ × ℕ) :=
  enumerateValues start end_ (h.uIntegerHistory key)

def setULongValue (h : StateHistory) (key : AttributeKey) (value : UInt64) : StateHistory :=
  { h with
    uLongHistory := Function.update h.uLongHistory key (setValue h.ts value (h.uLongHistory key)) }

def getULongValue (h : StateHistory) (key : AttributeKey) (ts : ℕ) : Option UInt64 :=
  getValue ts (h.uLongHistory key)

def getULongLastValue (h : StateHistory) (key : AttributeKey) : UInt64 :=
  ((h.uLongHistory key).getLast?.map Entry.value).getD 0

/-! ### Performance counters -/

def setPerfCounterState (h : StateHistory) (key : AttributeKey) (state : PerfCounterState) :
    StateHistory :=
  { h with perfCounterStates := Function.update h.perfCounterStates key state }

@[simp] theorem uLongHistory_setPerfCounterState (h : StateHistory) (key : AttributeKey)
    (state : PerfCounterState) : (h.setPerfCounterState key state).uLongHistory = h.uLongHistory :=
  rfl

/-- `SetPerfCounterCpuValue`, which may set a base value instead. -/
def perfCounterCpuValue
    (setBaseValue : StateHistory → AttributeKey → UInt64 → Option StateHistory)
    (h : StateHistory) (key : AttributeKey) (value : UInt64) : Option StateHistory :=
  let state := h.perfCounterStates key
  if state.cpuAbsolute = kInvalid ∨ value < state.cpuAbsolute then setBaseValue h key value
  else
    let minDiff := value - state.cpuAbsolute
    let minReal := state.cpuReal + minDiff
    let real := max (h.getULongLastValue key) minReal
    some ((h.setULongValue key real).setPerfCounterState key
      { state with cpuAbsolute := value, cpuReal := real })

/-- `SetPerfCounterCpuBaseValue`, which sets a value as well if there is none. The two
functions call each other; the result is `none` when they go on for more than the given
number of rounds. -/
def perfCounterCpuBaseValue : ℕ → StateHistory → AttributeKey → UInt64 → Option StateHistory
  | 0, _, _, _ => none
  | rounds + 1, h, key, value =>
      let state := h.perfCounterStates key
      let h := h.setPerfCounterState key
        { state with cpuAbsolute := value, cpuReal := h.getULongLastValue key }
      if h.uLongHistory key = [] then
        perfCounterCpuValue (perfCounterCpuBaseValue rounds) h key value
      else some h

/-- The second round sets the state that is there already: without an end by then,
there is none. -/
def setPerfCounterCpuBaseValue (h : StateHistory) (key : AttributeKey) (value : UInt64) :
    Option StateHistory :=
  perfCounterCpuBaseValue 2 h key value

def setPerfCounterCpuValue (h : StateHistory) (key : AttributeKey) (value : UInt64) :
    Option StateHistory :=
  perfCounterCpuValue (perfCounterCpuBaseValue 2) h key value

def setPerfCounterThreadValue (h : StateHistory) (key : AttributeKey) (value : UInt64) :
    StateHistory :=
  let state := h.perfCounterStates key
  if state.threadAbsolute = kInvalid then
    -- the first value of the thread
    let h := h.setPerfCounterState key
      { state with threadAbsolute := value, threadReal := h.getULongLastValue key }
    if h.uLongHistory key = [] then h.setULongValue key 0 else h
  else
    let minDiff := value - state.threadAbsolute
    let minReal := state.threadReal + minDiff
    let real := max (h.getULongLastValue key) minReal
    (h.setULongValue key real).setPerfCounterState key
      { state with threadAbsolute := value, threadReal := real }

/-- For the value that marks a missing one, the two functions call each other without end. -/
theorem perfCounterCpuBaseValue_kInvalid (rounds : ℕ) {h : StateHistory} {key : AttributeKey}
    (hkey : h.uLongHistory key = []) : perfCounterCpuBaseValue rounds h key kInvalid = none := by
  induction rounds generalizing h with
  | zero => rfl
  | succ rounds ih =>
      rw [perfCounterCpuBaseValue]
      rw [uLongHistory_setPerfCounterState, if_pos hkey, perfCounterCpuValue]
      simp only [setPerfCounterState, Function.update_self, true_or, if_true]
      exact ih hkey

/-- Otherwise they end, after the first round. -/
theorem perfCounterCpuBaseValue_succ (rounds : ℕ) (h : StateHistory) (key : AttributeKey)
    (value : UInt64) (hvalue : h.uLongHistory key ≠ [] ∨ value ≠ kInvalid) :
    perfCounterCpuBaseValue (rounds + 1) h key value = perfCounterCpuBaseValue 1 h key value := by
  rw [perfCounterCpuBaseValue, perfCounterCpuBaseValue]
  split
  · next hkey =>
      have hvalue : value ≠ kInvalid := hvalue.resolve_left fun hne => hne hkey
      have hle : ¬ value < value := UInt64.lt_irrefl value
      rw [perfCounterCpuValue, perfCounterCpuValue]
      simp only [setPerfCounterState, Function.update_self, hvalue, hle, or_self, if_false]
  · rfl

/-- Two rounds are enough: the functions end by then or never. -/
theorem setPerfCounterCpuBaseValue_eq (rounds : ℕ) (h : StateHistory) (key : AttributeKey)
    (value : UInt64) :
    perfCounterCpuBaseValue (rounds + 2) h key value = setPerfCounterCpuBaseValue h key value := by
  by_cases hvalue : h.uLongHistory key ≠ [] ∨ value ≠ kInvalid
  · rw [setPerfCounterCpuBaseValue, perfCounterCpuBaseValue_succ _ h key value hvalue,
      perfCounterCpuBaseValue_succ 1 h key value hvalue]
  · simp only [ne_eq, not_or, not_not] at hvalue
    obtain ⟨hkey, rfl⟩ := hvalue
    rw [setPerfCounterCpuBaseValue, perfCounterCpuBaseValue_kInvalid _ hkey,
      perfCounterCpuBaseValue_kInvalid _ hkey]

end StateHistory

end TibeeCompare.State
