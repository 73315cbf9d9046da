import TibeeCompare.State.Counters

/-!
By how much a counter grows.

A reading is to raise the counter by no more than it exceeds the last reading of its source.
For this the value at a baseline must not be above the counter, and the difference to the
baseline must not be below zero. The CPU starts a new baseline when a reading is less than
the last one; for the thread the difference wraps.
-/

namespace TibeeCompare.State

/-- The readings of one source of a counter. -/
def Op.readingOf? (key : AttributeKey) (source : Source) (op : Op) : Option UInt64 :=
  (op.reading?.filter fun reading => reading.1 = key ∧ reading.2.1 = source).map fun reading =>
    reading.2.2

def lastReading (key : AttributeKey) (source : Source) (ops : List Op) : Option UInt64 :=
  (ops.filterMap (Op.readingOf? key source)).getLast?

/-- By how much a reading exceeds the one before it. -/
def excess (previous : Option UInt64) (value : UInt64) : ℕ :=
  match previous with
  | none => 0
  | some a => value.toNat - a.toNat

/-- By how much an operation may raise a counter. -/
def allowedGrowth (ops : List Op) (key : AttributeKey) : Op → ℕ
  | .setPerfCounterCpuValue key' value =>
      if key' = key then excess (lastReading key .cpu ops) value else 0
  | .setPerfCounterThreadValue key' value =>
      if key' = key then excess (lastReading key .thread ops) value else 0
  | _ => 0

/-- All operations but a plain set of a counter, with readings other than the one that marks a
missing reading. -/
def Op.updatesCounters : Op → Bool
  | setPerfCounterCpuBaseValue _ value | setPerfCounterCpuValue _ value
  | setPerfCounterThreadValue _ value => value ≠ kInvalid
  | setTimestamp _ | setUIntegerValue _ _ | cleanup _ => true
  | setULongValue _ _ => false

/-- All operations return, and none raises a counter by more than it may. -/
def GrowsByReadings (ops : List Op) : Prop :=
  ∀ n, (hn : n < ops.length) → ∃ h h', after (ops.take n) = some h ∧ ops[n].run h = some h' ∧
    ∀ key, (h'.getULongLastValue key).toNat ≤
      (h.getULongLastValue key).toNat + allowedGrowth (ops.take n) key ops[n]

/-- A reading of the thread is the first one, or not less than the one before it, or less by no
more than the counter was at then, or so much less that the wrapped sum is still not above the
counter. -/
def ThreadReadingFits (h : StateHistory) (key : AttributeKey) (value : UInt64) : Prop :=
  let state := h.perfCounterStates key
  state.threadAbsolute = kInvalid ∨ state.threadAbsolute ≤ value ∨
    state.threadAbsolute.toNat - value.toNat ≤ state.threadReal.toNat ∨
    state.threadReal.toNat + 2 ^ 64 - (state.threadAbsolute.toNat - value.toNat) ≤
      (h.getULongLastValue key).toNat

/-- Each reading of a thread does. -/
def ThreadReadingsFit (ops : List Op) : Prop :=
  ∀ n, (hn : n < ops.length) → ∀ key value, ops[n] = .setPerfCounterThreadValue key value →
    ∀ h, after (ops.take n) = some h → ThreadReadingFits h key value

/-! ### Baselines -/

/-- Each source has its last reading as its baseline, with a value that is not above the
counter. -/
structure Baselines (ops : List Op) (h : StateHistory) : Prop where
  absolute : ∀ key source,
    (h.perfCounterStates key).absolute source = (lastReading key source ops).getD kInvalid
  valid : ∀ key source, lastReading key source ops ≠ some kInvalid
  real : ∀ key source, (lastReading key source ops).isSome →
    (h.perfCounterStates key).real source ≤ h.getULongLastValue key

theorem lastReading_concat (key : AttributeKey) (source : Source) (ops : List Op) (op : Op) :
    lastReading key source (ops ++ [op]) =
      (op.readingOf? key source).or (lastReading key source ops) := by
  rw [lastReading, List.filterMap_append]
  cases hop : op.readingOf? key source with
  | none =>
      rw [List.filterMap_cons_none hop, List.filterMap_nil, List.append_nil]
      rfl
  | some value =>
      rw [List.filterMap_cons_some hop, List.filterMap_nil, List.getLast?_concat]
      rfl

section Step

variable {ops : List Op} {h h' : StateHistory} {op : Op} {key : AttributeKey} {source : Source}
  {value : UInt64}

theorem readingOf?_eq (hreading : op.reading? = some (key, source, value)) (other : AttributeKey)
    (otherSource : Source) :
    op.readingOf? other otherSource =
      if key = other ∧ source = otherSource then some value else none := by
  rw [Op.readingOf?, hreading, Option.filter_some]
  by_cases hsame : key = other ∧ source = otherSource
  · rw [if_pos (decide_eq_true hsame), if_pos hsame]
    rfl
  · rw [if_neg (by simpa using hsame), if_neg hsame]
    rfl

theorem value_ne_of_updatesCounters (hreading : op.reading? = some (key, source, value))
    (hop : op.updatesCounters = true) : value ≠ kInvalid := by
  cases op with
  | setPerfCounterCpuBaseValue _ _ | setPerfCounterCpuValue _ _ | setPerfCounterThreadValue _ _ =>
      cases hreading
      exact of_decide_eq_true hop
  | setTimestamp _ | setUIntegerValue _ _ | setULongValue _ _ | cleanup _ => cases hreading

/-- What has no reading leaves the counters and their baselines. -/
theorem run_of_no_reading (hreading : op.reading? = none) (hop : op.updatesCounters = true)
    (hrun : op.run h = some h') :
    h'.perfCounterStates = h.perfCounterStates ∧
      ∀ key, h'.getULongLastValue key = h.getULongLastValue key := by
  cases op with
  | setTimestamp ts =>
      cases hrun
      exact ⟨rfl, fun _ => rfl⟩
  | setUIntegerValue key value =>
      cases hrun
      exact ⟨rfl, fun _ => rfl⟩
  | cleanup ts =>
      cases hrun
      refine ⟨rfl, fun key => ?_⟩
      rw [StateHistory.getULongLastValue, StateHistory.getULongLastValue]
      exact congrArg (fun last => (last.map Entry.value).getD 0)
        (Timelines.getLast?_searchBack _ (h.uLongHistory key))
  | setULongValue _ _ => cases hop
  | setPerfCounterCpuBaseValue _ _ | setPerfCounterCpuValue _ _ | setPerfCounterThreadValue _ _ =>
      cases hreading

theorem Baselines.step_of_no_reading (hb : Baselines ops h) (hreading : op.reading? = none)
    (hop : op.updatesCounters = true) (hrun : op.run h = some h') : Baselines (ops ++ [op]) h' := by
  obtain ⟨hstates, hlast⟩ := run_of_no_reading hreading hop hrun
  have hsame : ∀ key source,
      lastReading key source (ops ++ [op]) = lastReading key source ops := by
    intro key source
    rw [lastReading_concat, Op.readingOf?, hreading]
    rfl
  refine ⟨fun key source => ?_, fun key source => ?_, fun key source => ?_⟩
  · rw [hstates, hsame, hb.absolute]
  · rw [hsame]
    exact hb.valid key source
  · rw [hstates, hsame, hlast]
    exact hb.real key source

theorem lastReading_concat_of_reading (ops : List Op)
    (hreading : op.reading? = some (key, source, value))
    (other : AttributeKey) (otherSource : Source) :
    lastReading other otherSource (ops ++ [op]) =
      if key = other ∧ source = otherSource then some value
      else lastReading other otherSource ops := by
  rw [lastReading_concat, readingOf?_eq hreading]
  split <;> rfl

theorem Baselines.step (hb : Baselines ops h) (hop : op.updatesCounters = true)
    (hrun : op.run h = some h') : Baselines (ops ++ [op]) h' := by
  cases hreading : op.reading? with
  | none => exact hb.step_of_no_reading hreading hop hrun
  | some reading =>
      obtain ⟨key, source, value⟩ := reading
      obtain rfl := Op.run_reading hreading hrun
      have hvalue := value_ne_of_updatesCounters hreading hop
      have hle := Op.le_nextValue (h := h) hreading
      have hlast := lastReading_concat_of_reading ops hreading
      refine ⟨fun other otherSource => ?_, fun other otherSource => ?_, fun other otherSource => ?_⟩
      · rw [hlast, StateHistory.perfCounterStates_record]
        by_cases hother : other = key
        · subst hother
          rw [Function.update_self]
          by_cases hsource : otherSource = source
          · subst hsource
            simp
          · rw [PerfCounterState.absolute_setBaseline_of_ne _ _ _ _ hsource,
              if_neg fun hsame => hsource hsame.2.symm, hb.absolute]
        · rw [Function.update_of_ne hother, if_neg fun hsame => hother hsame.1.symm, hb.absolute]
      · rw [hlast]
        split
        · simpa using hvalue
        · exact hb.valid other otherSource
      · rw [hlast, StateHistory.perfCounterStates_record, StateHistory.getULongLastValue_record]
        by_cases hother : other = key
        · subst hother
          rw [Function.update_self, if_pos rfl]
          by_cases hsource : otherSource = source
          · subst hsource
            simp
          · rw [PerfCounterState.real_setBaseline_of_ne _ _ _ _ hsource,
              if_neg fun hsame => hsource hsame.2.symm]
            exact fun hsome => UInt64.le_trans (hb.real other otherSource hsome) hle
        · rw [Function.update_of_ne hother, if_neg fun hsame => hother hsame.1.symm, if_neg hother]
          exact hb.real other otherSource

/-! ### Growth -/

/-- What a reading makes of the value at its baseline. -/
theorem risen_le_iff (hreal : (h.perfCounterStates key).real source ≤ h.getULongLastValue key) :
    (h.risen key source value).toNat ≤ (h.getULongLastValue key).toNat +
        (value.toNat - ((h.perfCounterStates key).absolute source).toNat) ↔
      (h.perfCounterStates key).absolute source ≤ value ∨
        ((h.perfCounterStates key).absolute source).toNat - value.toNat ≤
          ((h.perfCounterStates key).real source).toNat ∨
        ((h.perfCounterStates key).real source).toNat + 2 ^ 64 -
            (((h.perfCounterStates key).absolute source).toNat - value.toNat) ≤
          (h.getULongLastValue key).toNat := by
  rw [StateHistory.risen, StateHistory.toNat_max, UInt64.toNat_add, UInt64.toNat_sub,
    UInt64.le_iff_toNat_le]
  have hreal' := UInt64.le_iff_toNat_le.mp hreal
  have hlast := (h.getULongLastValue key).toNat_lt
  have habsolute := ((h.perfCounterStates key).absolute source).toNat_lt
  have hvalue := value.toNat_lt
  omega

/-- The counters that a reading is not of stay. -/
theorem growth_of_ne (hreading : op.reading? = some (key, source, value)) {other : AttributeKey}
    (hother : other ≠ key) (hrun : op.run h = some h') :
    h'.getULongLastValue other = h.getULongLastValue other := by
  rw [Op.run_reading hreading hrun, StateHistory.getULongLastValue_record, if_neg hother]

/-- A reading of the CPU raises its counter by no more than it may. -/
theorem growth_cpu (hb : Baselines ops h)
    (hrun : (Op.setPerfCounterCpuValue key value).run h = some h') :
    (h'.getULongLastValue key).toNat ≤ (h.getULongLastValue key).toNat +
      allowedGrowth ops key (.setPerfCounterCpuValue key value) := by
  rw [Op.run_reading rfl hrun, StateHistory.getULongLastValue_record, if_pos rfl, Op.nextValue,
    allowedGrowth, if_pos rfl]
  split
  · exact Nat.le_add_right _ _
  · next hlater =>
      obtain ⟨hvalid, hle⟩ := not_or.mp hlater
      have habsolute := hb.absolute key .cpu
      have hreal := hb.real key .cpu
      cases hlast : lastReading key .cpu ops with
      | none =>
          rw [hlast] at habsolute
          exact absurd habsolute hvalid
      | some a =>
          rw [hlast] at habsolute hreal
          have hrisen := (risen_le_iff (hreal rfl)).mpr (Or.inl (UInt64.not_lt.mp hle))
          rwa [habsolute] at hrisen

/-- A reading of the thread does exactly if it fits. -/
theorem growth_thread_iff (hb : Baselines ops h)
    (hrun : (Op.setPerfCounterThreadValue key value).run h = some h') :
    (h'.getULongLastValue key).toNat ≤ (h.getULongLastValue key).toNat +
        allowedGrowth ops key (.setPerfCounterThreadValue key value) ↔
      ThreadReadingFits h key value := by
  rw [Op.run_reading rfl hrun, StateHistory.getULongLastValue_record, if_pos rfl, Op.nextValue,
    allowedGrowth, if_pos rfl, ThreadReadingFits]
  have habsolute := hb.absolute key .thread
  have hreal := hb.real key .thread
  cases hlast : lastReading key .thread ops with
  | none =>
      have hinvalid : (h.perfCounterStates key).threadAbsolute = kInvalid := by
        rw [hlast] at habsolute
        exact habsolute
      rw [if_pos hinvalid]
      exact ⟨fun _ => Or.inl hinvalid, fun _ => Nat.le_add_right _ _⟩
  | some a =>
      rw [hlast] at habsolute hreal
      have hvalid : (h.perfCounterStates key).threadAbsolute ≠ kInvalid := by
        intro hinvalid
        have ha : a = kInvalid := habsolute.symm.trans hinvalid
        exact hb.valid key .thread (by rw [hlast, ha])
      rw [if_neg hvalid]
      have hrisen := @risen_le_iff h key .thread value (hreal rfl)
      rw [habsolute] at hrisen
      have ha : (h.perfCounterStates key).threadAbsolute = a := habsolute
      refine Iff.trans ?_ (or_iff_right hvalid).symm
      rw [ha]
      exact hrisen

end Step

/-! ### Whole runs -/

theorem exists_run_of_updatesCounters {h : StateHistory} {op : Op}
    (hop : op.updatesCounters = true) : ∃ h', op.run h = some h' := by
  cases hreading : op.reading? with
  | some reading =>
      exact Op.exists_run hreading (value_ne_of_updatesCounters hreading hop)
  | none =>
      cases op with
      | setTimestamp _ | setUIntegerValue _ _ | cleanup _ => exact ⟨_, rfl⟩
      | setULongValue _ _ => cases hop
      | setPerfCounterCpuBaseValue _ _ | setPerfCounterCpuValue _ _
      | setPerfCounterThreadValue _ _ => cases hreading

theorem after_concat (ops : List Op) (op : Op) :
    after (ops ++ [op]) = (after ops).bind fun h => op.run h := by
  rw [after, runAll, List.foldlM_append]
  exact bind_congr fun h => List.foldlM_cons.trans (bind_pure _)

/-- Updates of counters return, and keep track of the baselines. -/
theorem after_baselines {ops : List Op} (hops : ∀ op ∈ ops, op.updatesCounters = true) :
    ∃ h, after ops = some h ∧ Baselines ops h := by
  induction ops using List.reverseRecOn with
  | nil =>
      refine ⟨{}, rfl, fun key source => ?_, fun key source => nofun, fun key source => nofun⟩
      cases source <;> rfl
  | append_singleton ops op ih =>
      obtain ⟨h, hafter, hb⟩ := ih fun op' hop' => hops op' (List.mem_append_left _ hop')
      have hop := hops op (by simp)
      obtain ⟨h', hrun⟩ := exists_run_of_updatesCounters (h := h) hop
      exact ⟨h', by rw [after_concat, hafter, Option.bind_some, hrun], hb.step hop hrun⟩

/-- A counter never grows by more than the readings of its source, exactly if no reading of a
thread is so far below the one before it that the difference wraps around the counter. -/
theorem growsByReadings_iff {ops : List Op} (hops : ∀ op ∈ ops, op.updatesCounters = true) :
    GrowsByReadings ops ↔ ThreadReadingsFit ops := by
  have hbefore : ∀ n, ∃ h, after (ops.take n) = some h ∧ Baselines (ops.take n) h := fun n =>
    after_baselines fun op hop => hops op (List.mem_of_mem_take hop)
  constructor
  · intro hgrows n hn key value hop h hafter
    obtain ⟨h₁, h', hafter', hrun, hgrowth⟩ := hgrows n hn
    obtain ⟨h₂, hafter'', hb⟩ := hbefore n
    obtain rfl := Option.some.inj (hafter'.symm.trans hafter)
    obtain rfl := Option.some.inj (hafter''.symm.trans hafter)
    rw [hop] at hrun hgrowth
    exact (growth_thread_iff hb hrun).mp (hgrowth key)
  · intro hfit n hn
    obtain ⟨h, hafter, hb⟩ := hbefore n
    -- Of the readings, only those of a thread can be too much below the one before.
    have hmem := hops ops[n] (List.getElem_mem hn)
    obtain ⟨h', hrun⟩ := exists_run_of_updatesCounters (h := h) hmem
    refine ⟨h, h', hafter, hrun, fun key => ?_⟩
    cases hreading : ops[n].reading? with
    | none =>
        rw [(run_of_no_reading hreading hmem hrun).2 key]
        exact Nat.le_add_right _ _
    | some reading =>
        obtain ⟨key', source, value⟩ := reading
        by_cases hkey : key = key'
        · subst hkey
          cases hop : ops[n] with
          | setPerfCounterCpuBaseValue key' value' =>
              rw [hop] at hreading hrun
              cases hreading
              rw [Op.run_reading rfl hrun, StateHistory.getULongLastValue_record, if_pos rfl]
              exact Nat.le_add_right _ _
          | setPerfCounterCpuValue key' value' =>
              rw [hop] at hreading hrun
              cases hreading
              exact growth_cpu hb hrun
          | setPerfCounterThreadValue key' value' =>
              have hfits := hfit n hn key' value' hop h hafter
              rw [hop] at hreading hrun
              cases hreading
              exact (growth_thread_iff hb hrun).mpr hfits
          | setTimestamp _ | setUIntegerValue _ _ | setULongValue _ _ | cleanup _ =>
              rw [hop] at hreading
              cases hreading
        · rw [growth_of_ne hreading hkey hrun]
          exact Nat.le_add_right _ _

/-- Readings of both sources, the CPU's going back. -/
def cpuReadings : List Op :=
  [.setPerfCounterCpuBaseValue 1 1000, .setPerfCounterThreadValue 1 500,
    .setPerfCounterCpuValue 1 2000, .setPerfCounterThreadValue 1 3000, .setPerfCounterCpuValue 1 10]

theorem growsByReadings_iff_cpuReadings :
    GrowsByReadings cpuReadings ↔ ThreadReadingsFit cpuReadings :=
  growsByReadings_iff (by decide)

/-- The counter of the reused thread starts at 0, and goes to 2 ^ 64 - 50. -/
theorem not_growsByReadings_reusedThread :
    ¬ GrowsByReadings [.setPerfCounterThreadValue 1 100, .setPerfCounterThreadValue 1 50] := by
  intro h
  obtain ⟨h₁, h₂, hafter, hrun, hgrowth⟩ := h 1 (by decide)
  cases hafter
  cases hrun
  exact absurd (hgrowth 1) (by decide +kernel)

end TibeeCompare.State
