import TibeeCompare.State.Histories

/-!
The updates of performance counters.

A counter is fed by two sources, readings of a CPU and readings of the thread. Each source
has a baseline: its last reading, and the value of the counter at that time. All updates are
of one form: they set the counter to a value, the last one or a greater one, and move the
baseline of their source there.
-/

namespace TibeeCompare.State

inductive Source
  | cpu
  | thread
deriving DecidableEq

namespace PerfCounterState

/-- The last reading of a source. -/
def absolute (state : PerfCounterState) : Source → UInt64
  | .cpu => state.cpuAbsolute
  | .thread => state.threadAbsolute

/-- The value of the counter at the last reading of a source. -/
def real (state : PerfCounterState) : Source → UInt64
  | .cpu => state.cpuReal
  | .thread => state.threadReal

def setBaseline (state : PerfCounterState) (absolute real : UInt64) : Source → PerfCounterState
  | .cpu => { state with cpuAbsolute := absolute, cpuReal := real }
  | .thread => { state with threadAbsolute := absolute, threadReal := real }

variable (state : PerfCounterState) (reading value : UInt64) (source : Source)

@[simp] theorem absolute_setBaseline :
    (state.setBaseline reading value source).absolute source = reading := by
  cases source <;> rfl

@[simp] theorem real_setBaseline :
    (state.setBaseline reading value source).real source = value := by
  cases source <;> rfl

theorem absolute_setBaseline_of_ne {other : Source} (h : other ≠ source) :
    (state.setBaseline reading value source).absolute other = state.absolute other := by
  cases source <;> cases other <;> first | rfl | exact absurd rfl h

theorem real_setBaseline_of_ne {other : Source} (h : other ≠ source) :
    (state.setBaseline reading value source).real other = state.real other := by
  cases source <;> cases other <;> first | rfl | exact absurd rfl h

end PerfCounterState

/-- The key, the source and the value of a reading. -/
def Op.reading? : Op → Option (AttributeKey × Source × UInt64)
  | setPerfCounterCpuBaseValue key value
  | setPerfCounterCpuValue key value => some (key, .cpu, value)
  | setPerfCounterThreadValue key value => some (key, .thread, value)
  | setTimestamp _ | setUIntegerValue _ _ | setULongValue _ _ | cleanup _ => none

namespace StateHistory

/-- The counter at a value, and the baseline of a source with it. -/
def record (h : StateHistory) (key : AttributeKey) (source : Source) (reading value : UInt64) :
    StateHistory :=
  (h.setULongValue key value).setPerfCounterState key
    ((h.perfCounterStates key).setBaseline reading value source)

/-- The last value, or what the reading makes of the value at the baseline. -/
def risen (h : StateHistory) (key : AttributeKey) (source : Source) (reading : UInt64) : UInt64 :=
  max (h.getULongLastValue key)
    ((h.perfCounterStates key).real source + (reading - (h.perfCounterStates key).absolute source))

end StateHistory

/-- The value that an update sets the counter to. -/
def Op.nextValue (h : StateHistory) : Op → UInt64
  | setPerfCounterCpuBaseValue key _ => h.getULongLastValue key
  | setPerfCounterCpuValue key value =>
      if (h.perfCounterStates key).cpuAbsolute = kInvalid ∨
          value < (h.perfCounterStates key).cpuAbsolute then h.getULongLastValue key
      else h.risen key .cpu value
  | setPerfCounterThreadValue key value =>
      if (h.perfCounterStates key).threadAbsolute = kInvalid then h.getULongLastValue key
      else h.risen key .thread value
  | setTimestamp _ | setUIntegerValue _ _ | setULongValue _ _ | cleanup _ => 0

/-! ### The form of the updates -/

namespace StateHistory

variable {h h' : StateHistory} {key : AttributeKey} {value : UInt64}

theorem setULongValue_last (hkey : h.uLongHistory key ≠ []) :
    h.setULongValue key (h.getULongLastValue key) = h := by
  have hlast : (h.uLongHistory key).getLast?.map Entry.value =
      some (h.getULongLastValue key) := by
    rw [getULongLastValue, List.getLast?_eq_some_getLast hkey]
    rfl
  rw [setULongValue, setValue, if_pos hlast, Function.update_eq_self]

theorem getULongLastValue_of_nil (hkey : h.uLongHistory key = []) :
    h.getULongLastValue key = 0 := by
  rw [getULongLastValue, hkey]
  rfl

/-- A base value leaves the counter where it is, at 0 if it is new. -/
theorem setPerfCounterCpuBaseValue_eq_some (hvalue : h.uLongHistory key ≠ [] ∨ value ≠ kInvalid) :
    h.setPerfCounterCpuBaseValue key value =
      some (h.record key .cpu value (h.getULongLastValue key)) := by
  by_cases hkey : h.uLongHistory key = []
  · have hvalue : value ≠ kInvalid := hvalue.resolve_left fun hne => hne hkey
    have hle : ¬ value < value := UInt64.lt_irrefl value
    have hlast := getULongLastValue_of_nil hkey
    have hmax : max (0 : UInt64) 0 = 0 := rfl
    rw [setPerfCounterCpuBaseValue, perfCounterCpuBaseValue, perfCounterCpuValue]
    simp only [setPerfCounterState, Function.update_self, hkey, hvalue, hle, or_self, if_true,
      if_false, getULongLastValue, List.getLast?_nil, Option.map_none, Option.getD_none,
      UInt64.sub_self, UInt64.add_zero]
    rw [record, setPerfCounterState]
    simp only [hmax, setULongValue, hkey, Function.update_idem, PerfCounterState.setBaseline]
  · rw [setPerfCounterCpuBaseValue, perfCounterCpuBaseValue]
    have hkey' : ¬ (h.setPerfCounterState key { h.perfCounterStates key with
        cpuAbsolute := value, cpuReal := h.getULongLastValue key }).uLongHistory key = [] := hkey
    rw [if_neg hkey', record, setULongValue_last hkey]
    rfl

theorem setPerfCounterCpuBaseValue_eq_none (hkey : h.uLongHistory key = []) :
    h.setPerfCounterCpuBaseValue key kInvalid = none := perfCounterCpuBaseValue_kInvalid 2 hkey

theorem setPerfCounterCpuValue_eq (h : StateHistory) (key : AttributeKey) (value : UInt64) :
    h.setPerfCounterCpuValue key value =
      if (h.perfCounterStates key).cpuAbsolute = kInvalid ∨
          value < (h.perfCounterStates key).cpuAbsolute then h.setPerfCounterCpuBaseValue key value
      else some (h.record key .cpu value (h.risen key .cpu value)) := by
  rw [setPerfCounterCpuValue, perfCounterCpuValue]
  split <;> rfl

theorem setPerfCounterThreadValue_eq (h : StateHistory) (key : AttributeKey) (value : UInt64) :
    h.setPerfCounterThreadValue key value =
      h.record key .thread value (Op.nextValue h (.setPerfCounterThreadValue key value)) := by
  rw [setPerfCounterThreadValue, Op.nextValue]
  dsimp only
  split
  · by_cases hkey : h.uLongHistory key = []
    · rw [uLongHistory_setPerfCounterState, if_pos hkey, getULongLastValue_of_nil hkey]
      rfl
    · rw [uLongHistory_setPerfCounterState, if_neg hkey, record, setULongValue_last hkey]
      rfl
  · rfl

@[simp] theorem uLongHistory_record (h : StateHistory) (key : AttributeKey) (source : Source)
    (reading value : UInt64) :
    (h.record key source reading value).uLongHistory =
      Function.update h.uLongHistory key (setValue h.ts value (h.uLongHistory key)) := rfl

@[simp] theorem perfCounterStates_record (h : StateHistory) (key : AttributeKey) (source : Source)
    (reading value : UInt64) :
    (h.record key source reading value).perfCounterStates =
      Function.update h.perfCounterStates key
        ((h.perfCounterStates key).setBaseline reading value source) := rfl

theorem getULongLastValue_record (h : StateHistory) (key : AttributeKey) (source : Source)
    (reading value : UInt64) (other : AttributeKey) :
    (h.record key source reading value).getULongLastValue other =
      if other = key then value else h.getULongLastValue other := by
  rw [getULongLastValue, uLongHistory_record]
  by_cases hother : other = key
  · subst hother
    rw [Function.update_self, if_pos rfl]
    rcases setValue_cases h.ts value (h.uLongHistory other) with ⟨hlast, heq⟩ | heq
    · rw [heq, hlast, Option.getD_some]
    · rw [heq, List.getLast?_concat]
      rfl
  · rw [Function.update_of_ne hother, if_neg hother, getULongLastValue]

theorem toNat_max (a b : UInt64) : (max a b).toNat = max a.toNat b.toNat := by
  show (if a ≤ b then b else a).toNat = _
  split
  · next hle => exact (Nat.max_eq_right (UInt64.le_iff_toNat_le.mp hle)).symm
  · next hle =>
      exact (Nat.max_eq_left (Nat.le_of_not_le fun h => hle (UInt64.le_iff_toNat_le.mpr h))).symm

theorem le_risen (h : StateHistory) (key : AttributeKey) (source : Source) (reading : UInt64) :
    h.getULongLastValue key ≤ h.risen key source reading := by
  rw [risen, UInt64.le_iff_toNat_le, toNat_max]
  exact Nat.le_max_left _ _

end StateHistory

section Updates

variable {h h' : StateHistory} {op : Op} {key : AttributeKey} {source : Source} {value : UInt64}

/-- An update that returns records the value that the counter goes to. -/
theorem Op.run_reading (hreading : op.reading? = some (key, source, value))
    (hrun : op.run h = some h') : h' = h.record key source value (op.nextValue h) := by
  have hbase : ∀ key value, h.setPerfCounterCpuBaseValue key value = some h' →
      h' = h.record key .cpu value (h.getULongLastValue key) := by
    intro key value hrun
    by_cases hvalue : h.uLongHistory key ≠ [] ∨ value ≠ kInvalid
    · rw [StateHistory.setPerfCounterCpuBaseValue_eq_some hvalue] at hrun
      exact (Option.some.inj hrun).symm
    · simp only [ne_eq, not_or, not_not] at hvalue
      obtain ⟨hkey, rfl⟩ := hvalue
      rw [StateHistory.setPerfCounterCpuBaseValue_eq_none hkey] at hrun
      cases hrun
  cases op with
  | setPerfCounterCpuBaseValue key' value' =>
      cases hreading
      exact hbase key value hrun
  | setPerfCounterCpuValue key' value' =>
      cases hreading
      rw [Op.run, StateHistory.setPerfCounterCpuValue_eq] at hrun
      rw [Op.nextValue]
      split at hrun
      · next hfirst => rw [if_pos hfirst, ← hbase key value hrun]
      · next hlater =>
          rw [if_neg hlater]
          exact (Option.some.inj hrun).symm
  | setPerfCounterThreadValue key' value' =>
      cases hreading
      rw [Op.run, StateHistory.setPerfCounterThreadValue_eq] at hrun
      exact (Option.some.inj hrun).symm
  | setTimestamp _ | setUIntegerValue _ _ | setULongValue _ _ | cleanup _ => cases hreading

/-- An update with a reading other than the one that marks a missing reading returns. -/
theorem Op.exists_run (hreading : op.reading? = some (key, source, value))
    (hvalue : value ≠ kInvalid) : ∃ h', op.run h = some h' := by
  cases op with
  | setPerfCounterCpuBaseValue key' value' =>
      cases hreading
      exact ⟨_, StateHistory.setPerfCounterCpuBaseValue_eq_some (Or.inr hvalue)⟩
  | setPerfCounterCpuValue key' value' =>
      cases hreading
      rw [Op.run, StateHistory.setPerfCounterCpuValue_eq,
        StateHistory.setPerfCounterCpuBaseValue_eq_some (Or.inr hvalue)]
      split
      · exact ⟨_, rfl⟩
      · exact ⟨_, rfl⟩
  | setPerfCounterThreadValue key' value' => exact ⟨_, rfl⟩
  | setTimestamp _ | setUIntegerValue _ _ | setULongValue _ _ | cleanup _ => cases hreading

/-- No update moves a counter back. -/
theorem Op.le_nextValue (hreading : op.reading? = some (key, source, value)) :
    h.getULongLastValue key ≤ op.nextValue h := by
  cases op with
  | setPerfCounterCpuBaseValue key' value' =>
      cases hreading
      exact UInt64.le_refl _
  | setPerfCounterCpuValue key' value' =>
      cases hreading
      rw [Op.nextValue]
      split
      · exact UInt64.le_refl _
      · exact h.le_risen key .cpu value
  | setPerfCounterThreadValue key' value' =>
      cases hreading
      rw [Op.nextValue]
      split
      · exact UInt64.le_refl _
      · exact h.le_risen key .thread value
  | setTimestamp _ | setUIntegerValue _ _ | setULongValue _ _ | cleanup _ => cases hreading

end Updates

end TibeeCompare.State
