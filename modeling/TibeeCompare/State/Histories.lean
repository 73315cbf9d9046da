import TibeeCompare.State.Entries
import Mathlib.Data.List.Basic

/-!
Histories of the state: operations one after the other, with a clock that does not
go back.

What a key is set to, and when, follows from the operations alone; the answers of the
history follow from that.
-/

namespace TibeeCompare.State

open Intervals

inductive Op
  | setTimestamp (ts : ℕ)
  | setUIntegerValue (key : AttributeKey) (value : UInt32)
  | setULongValue (key : AttributeKey) (value : UInt64)
  | setPerfCounterCpuBaseValue (key : AttributeKey) (value : UInt64)
  | setPerfCounterCpuValue (key : AttributeKey) (value : UInt64)
  | setPerfCounterThreadValue (key : AttributeKey) (value : UInt64)
  | cleanup (ts : ℕ)

/-- What an operation leaves, if it returns. -/
def Op.run (h : StateHistory) : Op → Option StateHistory
  | setTimestamp ts => some (h.setTimestamp ts)
  | setUIntegerValue key value => some (h.setUIntegerValue key value)
  | setULongValue key value => some (h.setULongValue key value)
  | setPerfCounterCpuBaseValue key value => h.setPerfCounterCpuBaseValue key value
  | setPerfCounterCpuValue key value => h.setPerfCounterCpuValue key value
  | setPerfCounterThreadValue key value => some (h.setPerfCounterThreadValue key value)
  | cleanup ts => some (h.cleanup ts)

/-- What operations leave behind `h`, if all of them return. -/
def runAll (h : StateHistory) (ops : List Op) : Option StateHistory := ops.foldlM Op.run h

def after (ops : List Op) : Option StateHistory := runAll {} ops

def Op.timestamp? : Op → Option ℕ
  | setTimestamp ts => some ts
  | _ => none

/-- The clock does not go back. -/
def NonDecreasing (ops : List Op) : Prop := (ops.filterMap Op.timestamp?).Pairwise (· ≤ ·)

instance (ops : List Op) : Decidable (NonDecreasing ops) :=
  inferInstanceAs (Decidable (List.Pairwise _ _))

/-! ### What a key is set to -/

/-- The operations that set the clock or a value, other than a counter. -/
def Op.isSet : Op → Bool
  | setTimestamp _ | setUIntegerValue _ _ | setULongValue _ _ => true
  | _ => false

/-- The value that an operation sets a key to. -/
def Op.uInteger? (key : AttributeKey) : Op → Option UInt32
  | setUIntegerValue key' value => if key' = key then some value else none
  | _ => none

def Op.uLong? (key : AttributeKey) : Op → Option UInt64
  | setULongValue key' value => if key' = key then some value else none
  | _ => none

section Sets

variable {V : Type} (value? : Op → Option V)

/-- What a key is set to, with the times, from a time on. -/
def setsFrom : ℕ → List Op → List (Entry V)
  | _, [] => []
  | now, op :: ops =>
      let now := op.timestamp?.getD now
      match value? op with
      | none => setsFrom now ops
      | some value => ⟨now, value⟩ :: setsFrom now ops

variable {value?}

theorem setsFrom_sorted {now : ℕ} {ops : List Op} (h : NonDecreasing ops)
    (hnow : ∀ ts ∈ ops.filterMap Op.timestamp?, now ≤ ts) :
    Sorted (setsFrom value? now ops) ∧ ∀ e ∈ setsFrom value? now ops, now ≤ e.ts := by
  induction ops generalizing now with
  | nil => exact ⟨List.Pairwise.nil, by simp [setsFrom]⟩
  | cons op ops ih =>
      have hlater : now ≤ op.timestamp?.getD now ∧ NonDecreasing ops ∧
          ∀ ts ∈ ops.filterMap Op.timestamp?, op.timestamp?.getD now ≤ ts := by
        cases hts : op.timestamp? with
        | none =>
            rw [NonDecreasing, List.filterMap_cons_none hts] at h
            rw [List.filterMap_cons_none hts] at hnow
            exact ⟨le_rfl, h, hnow⟩
        | some ts =>
            rw [NonDecreasing, List.filterMap_cons_some hts] at h
            rw [List.filterMap_cons_some hts] at hnow
            obtain ⟨hfirst, hops⟩ := List.pairwise_cons.mp h
            exact ⟨hnow ts List.mem_cons_self, hops, hfirst⟩
      obtain ⟨hsorted, hlow⟩ := ih hlater.2.1 hlater.2.2
      rw [setsFrom]
      cases value? op with
      | none => exact ⟨hsorted, fun e he => hlater.1.trans (hlow e he)⟩
      | some value =>
          refine ⟨List.pairwise_cons.mpr ⟨hlow, hsorted⟩, fun e he => ?_⟩
          rcases List.mem_cons.mp he with rfl | he
          · exact hlater.1
          · exact hlater.1.trans (hlow e he)

end Sets

def uIntegerSets (key : AttributeKey) (ops : List Op) : List (Entry UInt32) :=
  setsFrom (Op.uInteger? key) 0 ops

def uLongSets (key : AttributeKey) (ops : List Op) : List (Entry UInt64) :=
  setsFrom (Op.uLong? key) 0 ops

theorem runAll_cons (h : StateHistory) (op : Op) (ops : List Op) :
    runAll h (op :: ops) = (op.run h).bind fun h' => runAll h' ops := List.foldlM_cons

/-- A run of sets records, for each key, what it is set to. -/
theorem runAll_sets (ops : List Op) (hsets : ∀ op ∈ ops, op.isSet = true) (h : StateHistory) :
    ∃ h', runAll h ops = some h' ∧ ∀ key,
      h'.uIntegerHistory key = (setsFrom (Op.uInteger? key) h.ts ops).foldl
        (fun entries e => setValue e.ts e.value entries) (h.uIntegerHistory key) ∧
      h'.uLongHistory key = (setsFrom (Op.uLong? key) h.ts ops).foldl
        (fun entries e => setValue e.ts e.value entries) (h.uLongHistory key) := by
  induction ops generalizing h with
  | nil => exact ⟨h, rfl, fun _ => ⟨rfl, rfl⟩⟩
  | cons op ops ih =>
      have hset := hsets op List.mem_cons_self
      have ih := ih fun op' hop => hsets op' (List.mem_cons_of_mem _ hop)
      rw [runAll_cons]
      cases op with
      | setTimestamp ts => exact ih (h.setTimestamp ts)
      | setUIntegerValue key value =>
          obtain ⟨h', hrun, hkeys⟩ := ih (h.setUIntegerValue key value)
          refine ⟨h', hrun, fun key' => ?_⟩
          obtain ⟨huInteger, huLong⟩ := hkeys key'
          refine ⟨?_, huLong⟩
          rw [huInteger, setsFrom]
          by_cases hkey : key = key'
          · subst hkey
            simp [Op.uInteger?, Op.timestamp?, StateHistory.setUIntegerValue]
          · simp [Op.uInteger?, Op.timestamp?, StateHistory.setUIntegerValue, hkey, Ne.symm hkey]
      | setULongValue key value =>
          obtain ⟨h', hrun, hkeys⟩ := ih (h.setULongValue key value)
          refine ⟨h', hrun, fun key' => ?_⟩
          obtain ⟨huInteger, huLong⟩ := hkeys key'
          refine ⟨huInteger, ?_⟩
          rw [huLong, setsFrom]
          by_cases hkey : key = key'
          · subst hkey
            simp [Op.uLong?, Op.timestamp?, StateHistory.setULongValue]
          · simp [Op.uLong?, Op.timestamp?, StateHistory.setULongValue, hkey, Ne.symm hkey]
      | setPerfCounterCpuBaseValue _ _ => cases hset
      | setPerfCounterCpuValue _ _ => cases hset
      | setPerfCounterThreadValue _ _ => cases hset
      | cleanup _ => cases hset

/-- A history answers by what the keys were set to. -/
structure AnswersSets (ops : List Op) (h : StateHistory) : Prop where
  getUIntegerValue : ∀ key t, h.getUIntegerValue key t = lastSet t (uIntegerSets key ops)
  getULongValue : ∀ key t, h.getULongValue key t = lastSet t (uLongSets key ops)
  enumerateUIntegerValues : ∀ key start end_, start < end_ →
    TilesWindow (uIntegerSets key ops) start end_ (h.enumerateUIntegerValues key start end_)

/-- Every sequence of sets with a clock that does not go back is answered by the last
sets, and windows are tiled by them. -/
theorem after_answersSets {ops : List Op} (hsets : ∀ op ∈ ops, op.isSet = true)
    (hclock : NonDecreasing ops) : ∃ h, after ops = some h ∧ AnswersSets ops h := by
  obtain ⟨h, hrun, hkeys⟩ := runAll_sets ops hsets {}
  have huInteger : ∀ key, h.uIntegerHistory key = recorded (uIntegerSets key ops) :=
    fun key => (hkeys key).1
  have huLong : ∀ key, h.uLongHistory key = recorded (uLongSets key ops) := fun key => (hkeys key).2
  have hsorted : ∀ key, Sorted (uIntegerSets key ops) := fun key =>
    (setsFrom_sorted hclock fun ts _ => Nat.zero_le ts).1
  have hsorted' : ∀ key, Sorted (uLongSets key ops) := fun key =>
    (setsFrom_sorted hclock fun ts _ => Nat.zero_le ts).1
  refine ⟨h, hrun, ?_, ?_, ?_⟩
  · intro key t
    rw [StateHistory.getUIntegerValue, huInteger, getValue_eq (sorted_recorded (hsorted key)),
      lastSet_recorded (hsorted key)]
  · intro key t
    rw [StateHistory.getULongValue, huLong, getValue_eq (sorted_recorded (hsorted' key)),
      lastSet_recorded (hsorted' key)]
  · intro key start end_ hwindow
    rw [StateHistory.enumerateUIntegerValues, huInteger]
    obtain ⟨hnone, htiles, hvalues⟩ :=
      enumerateValues_tilesWindow (sorted_recorded (hsorted key)) hwindow
    rw [head?_recorded] at hnone htiles
    refine ⟨hnone, htiles, fun i hi t hfirst hlast => ?_⟩
    rw [← lastSet_recorded (hsorted key)]
    exact hvalues i hi t hfirst hlast

/-- Sets of one key at equal and different times, with a repetition. -/
theorem after_answersSets_repeated : ∃ h, after [.setTimestamp 10, .setUIntegerValue 1 5,
      .setUIntegerValue 1 7, .setTimestamp 20, .setUIntegerValue 1 7, .setULongValue 2 5] = some h ∧
    AnswersSets [.setTimestamp 10, .setUIntegerValue 1 5, .setUIntegerValue 1 7,
      .setTimestamp 20, .setUIntegerValue 1 7, .setULongValue 2 5] h :=
  after_answersSets (by decide) (by decide)

end TibeeCompare.State
