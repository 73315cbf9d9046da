import TibeeCompare.State.Counters
import TibeeCompare.State.Cleanups

/-!
The values of a counter only rise.

No update moves a counter back, whatever the readings are, and a cleanup drops entries at
the front only. So the values are in the order of their times, and of two times the later
one does not have the smaller value.
-/

namespace TibeeCompare.State

open Timelines

/-- Entries in the order of time and of their values, none of them after `now`. -/
structure Rising (now : ℕ) (entries : List (Entry UInt64)) : Prop where
  timely : Timely now entries
  values : entries.Pairwise fun a b => a.value ≤ b.value

namespace Rising

variable {now : ℕ} {entries : List (Entry UInt64)}

theorem nil (now : ℕ) : Rising now [] :=
  ⟨⟨List.Pairwise.nil, fun _ he => (by cases he)⟩, List.Pairwise.nil⟩

theorem mono {now' : ℕ} (h : Rising now entries) (hnow : now ≤ now') : Rising now' entries :=
  ⟨h.timely.mono hnow, h.values⟩

/-- No value is above the last one. -/
theorem value_le_last (h : entries.Pairwise fun a b => a.value ≤ b.value) {e last : Entry UInt64}
    (he : e ∈ entries) (hlast : entries.getLast? = some last) : e.value ≤ last.value := by
  obtain ⟨pre, rfl⟩ := List.getLast?_eq_some_iff.mp hlast
  rcases List.mem_append.mp he with he | he
  · exact (List.pairwise_append.mp h).2.2 e he last List.mem_cons_self
  · rw [List.mem_singleton.mp he]
    exact UInt64.le_refl _

/-- A value that is not below the last one. -/
theorem setValue (h : Rising now entries) {value : UInt64}
    (hvalue : ∀ last, entries.getLast? = some last → last.value ≤ value) :
    Rising now (setValue now value entries) := by
  refine ⟨h.timely.setValue value, ?_⟩
  rcases setValue_cases now value entries with ⟨-, heq⟩ | heq
  · rw [heq]
    exact h.values
  · rw [heq, List.pairwise_append]
    refine ⟨h.values, List.pairwise_singleton _ _, fun a ha b hb => ?_⟩
    rw [List.mem_singleton.mp hb]
    obtain ⟨last, hlast⟩ :=
      Option.isSome_iff_exists.mp (List.getLast?_isSome.mpr (List.ne_nil_of_mem ha))
    exact UInt64.le_trans (value_le_last h.values ha hlast) (hvalue last hlast)

theorem suffix {kept : List (Entry UInt64)} (h : Rising now entries) (hkept : kept <:+ entries) :
    Rising now kept :=
  ⟨⟨h.timely.sorted.sublist hkept.sublist, fun e he => h.timely.le_now e (hkept.subset he)⟩,
    h.values.sublist hkept.sublist⟩

/-- What a search finds at a later time is not less. -/
theorem getValue_le (h : Rising now entries) {t₁ t₂ : ℕ} (hle : t₁ ≤ t₂) {v₁ v₂ : UInt64}
    (h₁ : getValue t₁ entries = some v₁) (h₂ : getValue t₂ entries = some v₂) : v₁ ≤ v₂ := by
  rw [getValue_eq h.timely.sorted, lastSet, Option.map_eq_some_iff] at h₁ h₂
  obtain ⟨e₁, he₁, rfl⟩ := h₁
  obtain ⟨e₂, he₂, rfl⟩ := h₂
  have hmem := List.mem_filter.mp (List.mem_of_getLast? he₁)
  refine value_le_last (h.values.sublist List.filter_sublist) (List.mem_filter.mpr ⟨hmem.1, ?_⟩) he₂
  exact decide_eq_true ((of_decide_eq_true hmem.2).trans hle)

end Rising

/-- A plain set of a counter, past its readings. -/
def Op.setsULong : Op → Bool
  | setULongValue _ _ => true
  | _ => false

/-- One operation, on a clock that does not go back. -/
theorem Op.run_rising {h h' : StateHistory} {op : Op} (hop : op.setsULong = false)
    (hclock : ∀ ts, op.timestamp? = some ts → h.ts ≤ ts) (hrun : op.run h = some h')
    (hrising : ∀ key, Rising h.ts (h.uLongHistory key)) :
    ∀ key, Rising h'.ts (h'.uLongHistory key) := by
  intro key
  cases hreading : op.reading? with
  | some reading =>
      obtain ⟨key', source, value⟩ := reading
      have hts := Op.run_ts hrun
      have hnow : op.timestamp? = none := by
        cases op with
        | setTimestamp _ => cases hreading
        | _ => rfl
      rw [hnow] at hts
      rw [hts]
      rw [Op.run_reading hreading hrun, StateHistory.uLongHistory_record]
      by_cases hkey : key = key'
      · subst hkey
        rw [Function.update_self]
        -- what a reading sets is never less than the last value
        refine (hrising key).setValue fun last hlast => ?_
        have hle := Op.le_nextValue (h := h) hreading
        rwa [StateHistory.getULongLastValue, hlast] at hle
      · rw [Function.update_of_ne hkey]
        exact hrising key
  | none =>
      cases op with
      | setTimestamp ts =>
          cases hrun
          exact (hrising key).mono (hclock ts rfl)
      | setUIntegerValue key value =>
          cases hrun
          exact hrising _
      | cleanup ts =>
          cases hrun
          exact (hrising key).suffix (searchBack_suffix _ _)
      | setULongValue _ _ => cases hop
      | setPerfCounterCpuBaseValue _ _ | setPerfCounterCpuValue _ _
      | setPerfCounterThreadValue _ _ => cases hreading

theorem runAll_rising {h h' : StateHistory} {ops : List Op}
    (hops : ∀ op ∈ ops, op.setsULong = false) (hclock : NonDecreasing ops)
    (hnow : ∀ ts ∈ ops.filterMap Op.timestamp?, h.ts ≤ ts) (hrun : runAll h ops = some h')
    (hrising : ∀ key, Rising h.ts (h.uLongHistory key)) :
    ∀ key, Rising h'.ts (h'.uLongHistory key) := by
  induction ops generalizing h with
  | nil =>
      cases hrun
      exact hrising
  | cons op ops ih =>
      obtain ⟨mid, hmid, hrest⟩ :=
        Option.bind_eq_some_iff.mp ((runAll_cons h op ops).symm.trans hrun)
      have hclock' : NonDecreasing ops :=
        List.Pairwise.sublist ((List.sublist_cons_self op ops).filterMap _) hclock
      refine ih (fun op' hop' => hops op' (List.mem_cons_of_mem _ hop')) hclock'
        (le_of_run hmid hclock hnow) hrest
        (Op.run_rising (hops op List.mem_cons_self) ?_ hmid hrising)
      intro ts hts
      exact hnow ts (by rw [List.filterMap_cons_some hts]; exact List.mem_cons_self)

/-- The counters of a history whose clock never went back. -/
theorem after_rising {ops : List Op} {h : StateHistory} (hops : ∀ op ∈ ops, op.setsULong = false)
    (hclock : NonDecreasing ops) (hrun : after ops = some h) (key : AttributeKey) :
    Rising h.ts (h.uLongHistory key) :=
  runAll_rising hops hclock (fun _ _ => Nat.zero_le _) hrun (fun _ => Rising.nil 0) key

end TibeeCompare.State
