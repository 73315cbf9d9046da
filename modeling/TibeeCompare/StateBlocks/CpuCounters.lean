import Mathlib.Logic.Encodable.Basic
import Mathlib.Logic.Equiv.List
import TibeeCompare.Lib.Meters
import TibeeCompare.State.CounterGrowth
import TibeeCompare.StateBlocks.PerfCountersBlock

/-!
What the performance counters of the processors amount to.

A processor counts for whatever runs on it. The history keeps a counter for each thread: it is
what the processors counted while the thread was on them. A switch is a reading of a meter,
and a wake-up is one that changes nothing. The idle thread, 0, is on many processors, and its
counter is of no use.
-/

namespace TibeeCompare.StateBlocks

open BuildBlocks Executions State Meters

/-- What a notification says of a counter of its processor. -/
def Notification.reading? (counter : String) : Notification → Option (Reading ℕ ℕ)
  | schedSwitch event prevTid nextTid =>
      (event.uLong (getPerfFieldName "cpu" counter)).map fun value =>
        ⟨event.cpuId, prevTid, nextTid, value.toNat⟩
  | schedTtwu event =>
      (event.uLong (getPerfFieldName "cpu" counter)).map fun value =>
        ⟨event.cpuId, event.threadForEvent, event.threadForEvent, value.toNat⟩
  | ust _ | state _ _ | timestamp _ | cleanup _ => none

def readings (counter : String) (past : List Notification) : List (Reading ℕ ℕ) :=
  past.filterMap (Notification.reading? counter)

def IsIdle (tid : ℕ) : Prop := tid = 0

/-! ### Counters that are left alone -/

section Untouched

variable {h h' h'' : StateHistory} {key : AttributeKey}

structure Untouched (key : AttributeKey) (h h' : StateHistory) : Prop where
  last : h'.getULongLastValue key = h.getULongLastValue key
  state : h'.perfCounterStates key = h.perfCounterStates key

theorem Untouched.refl (key : AttributeKey) (h : StateHistory) : Untouched key h h := ⟨rfl, rfl⟩

theorem Untouched.trans (hf : Untouched key h h') (hf' : Untouched key h' h'') :
    Untouched key h h'' :=
  ⟨hf'.last.trans hf.last, hf'.state.trans hf.state⟩

theorem untouched_record {source : Source} {reading value : UInt64} {other : AttributeKey}
    (hne : key ≠ other) : Untouched key h (h.record other source reading value) := by
  constructor
  · rw [StateHistory.getULongLastValue_record, if_neg hne]
  · rw [StateHistory.perfCounterStates_record, Function.update_of_ne hne]

/-- The operation neither sets the counter nor has a reading of it. -/
def Avoids (key : AttributeKey) (op : State.Op) : Prop :=
  op.setsULong = false ∧ ∀ source value, op.reading? ≠ some (key, source, value)

theorem untouched_run {op : State.Op} (hop : Avoids key op) (hrun : op.run h = some h') :
    Untouched key h h' := by
  cases hreading : op.reading? with
  | some reading =>
      obtain ⟨other, source, value⟩ := reading
      rw [Op.run_reading hreading hrun]
      apply untouched_record
      rintro rfl
      exact hop.2 source value hreading
  | none =>
      cases op with
      | setULongValue _ _ => cases hop.1
      | setPerfCounterCpuBaseValue _ _ | setPerfCounterCpuValue _ _
      | setPerfCounterThreadValue _ _ => cases hreading
      | setTimestamp _ | setUIntegerValue _ _ =>
          cases hrun
          exact ⟨rfl, rfl⟩
      | cleanup ts =>
          obtain ⟨hstates, hlast⟩ := run_of_no_reading hreading rfl hrun
          exact ⟨hlast key, congrFun hstates key⟩

theorem untouched_runAll {ops : List State.Op} (hops : ∀ op ∈ ops, Avoids key op)
    (hrun : runAll h ops = some h') : Untouched key h h' := by
  induction ops generalizing h with
  | nil =>
      cases hrun
      exact .refl key _
  | cons op ops ih =>
      rw [List.forall_mem_cons] at hops
      rw [runAll_cons] at hrun
      obtain ⟨h₁, hrun₁, hrun⟩ := Option.bind_eq_some_iff.mp hrun
      exact (untouched_run hops.1 hrun₁).trans (ih hops.2 hrun)

theorem untouched_single {op : State.Op} (hop : Avoids key op) (hrun : runAll h [op] = some h') :
    Untouched key h h' := by
  apply untouched_runAll ?_ hrun
  intro other hother
  rw [List.mem_singleton.mp hother]
  exact hop

end Untouched

/-! ### The counters of one name -/

section Counter

variable {counterKey : ℕ → String → AttributeKey} {counter : String} {h h' h'' : StateHistory}
  {past : List (Reading ℕ ℕ)} {r : Reading ℕ ℕ}

/-- Threads and counters have keys of their own. -/
def Distinguishes (counterKey : ℕ → String → AttributeKey) : Prop :=
  ∀ tid tid' counter counter', counterKey tid counter = counterKey tid' counter' →
    tid = tid' ∧ counter = counter'

/-- The counter of each thread is what the thread is credited with. The counter of a thread
that runs has the last reading of its processor as its baseline. -/
structure Metered (counterKey : ℕ → String → AttributeKey) (counter : String)
    (past : List (Reading ℕ ℕ)) (h : StateHistory) : Prop where
  last : ∀ tid, ¬ IsIdle tid →
    (h.getULongLastValue (counterKey tid counter)).toNat = credit tid past
  fresh : ∀ tid, ¬ IsIdle tid → ¬ seen past tid →
    (h.perfCounterStates (counterKey tid counter)).cpuAbsolute = kInvalid
  running : ∀ cpu tid since, ¬ IsIdle tid → running cpu past = some (tid, since) →
    (h.perfCounterStates (counterKey tid counter)).cpuAbsolute.toNat = since ∧
      (h.perfCounterStates (counterKey tid counter)).cpuReal =
        h.getULongLastValue (counterKey tid counter)

/-- What a reading does to the counters. -/
structure Credits (counterKey : ℕ → String → AttributeKey) (counter : String)
    (past : List (Reading ℕ ℕ)) (r : Reading ℕ ℕ) (h h' : StateHistory) : Prop where
  last : ∀ tid, ¬ IsIdle tid →
    (h'.getULongLastValue (counterKey tid counter)).toNat = credit tid (r :: past)
  others : ∀ tid, tid ≠ r.prev → tid ≠ r.next → Untouched (counterKey tid counter) h h'
  next : ¬ IsIdle r.next →
    (h'.perfCounterStates (counterKey r.next counter)).cpuAbsolute.toNat = r.value ∧
      (h'.perfCounterStates (counterKey r.next counter)).cpuReal =
        h'.getULongLastValue (counterKey r.next counter)

theorem Metered.untouched (hm : Metered counterKey counter past h)
    (hkept : ∀ tid, Untouched (counterKey tid counter) h h') :
    Metered counterKey counter past h' := by
  constructor
  · intro tid htid
    rw [(hkept tid).last]
    exact hm.last tid htid
  · intro tid htid hseen
    rw [(hkept tid).state]
    exact hm.fresh tid htid hseen
  · intro cpu tid since htid hrunning
    rw [(hkept tid).state, (hkept tid).last]
    exact hm.running cpu tid since htid hrunning

/-- Another thread that runs is not the one of the reading. -/
theorem ne_prev_of_running (hscheduled : Scheduled IsIdle past) (hfollows : Follows IsIdle past r)
    {cpu tid since : ℕ} (htid : ¬ IsIdle tid) (hcpu : r.meter ≠ cpu)
    (hrunning : running cpu past = some (tid, since)) : tid ≠ r.prev := by
  rintro rfl
  cases hprev : running r.meter past with
  | none => exact hfollows.fresh hprev htid (seen_of_running hrunning)
  | some last =>
      obtain ⟨tid, since'⟩ := last
      obtain ⟨rfl, -⟩ := hfollows.prev tid since' hprev
      exact hcpu (running_unique hscheduled htid hprev hrunning)

theorem Metered.credits (hscheduled : Scheduled IsIdle past) (hfollows : Follows IsIdle past r)
    (hm : Metered counterKey counter past h) (hc : Credits counterKey counter past r h h') :
    Metered counterKey counter (r :: past) h' := by
  refine ⟨hc.last, ?_, ?_⟩
  · intro tid htid hseen
    rw [seen_cons, not_or, not_or] at hseen
    obtain ⟨⟨hprev, hnext⟩, hseen⟩ := hseen
    rw [(hc.others tid (Ne.symm hprev) (Ne.symm hnext)).state]
    exact hm.fresh tid htid hseen
  · intro cpu tid since htid hrunning
    by_cases hcpu : r.meter = cpu
    · subst hcpu
      rw [running_cons_self] at hrunning
      obtain ⟨rfl, rfl⟩ := Prod.mk.inj (Option.some.inj hrunning)
      exact hc.next htid
    · rw [running_cons_of_ne hcpu] at hrunning
      have hprev := ne_prev_of_running hscheduled hfollows htid hcpu hrunning
      have hnext : tid ≠ r.next := by
        rintro rfl
        exact hfollows.next htid cpu (Ne.symm hcpu) since hrunning
      have hkept := hc.others tid hprev hnext
      rw [hkept.state, hkept.last]
      exact hm.running cpu tid since htid hrunning

/-- The counter of the thread that a processor was running. -/
theorem nextValue_toNat (hfollows : Follows IsIdle past r)
    (hm : Metered counterKey counter past h) {value : UInt64} (hvalue : value.toNat = r.value)
    (hvalid : value ≠ kInvalid) (hprev : ¬ IsIdle r.prev)
    (hfits : credit r.prev (r :: past) < U64) :
    (Op.nextValue h (.setPerfCounterCpuValue (counterKey r.prev counter) value)).toNat =
      credit r.prev (r :: past) := by
  have hlast := hm.last r.prev hprev
  rw [credit, if_pos rfl] at hfits ⊢
  rw [Op.nextValue]
  cases hrunning : running r.meter past with
  | none =>
      have hfresh := hm.fresh r.prev hprev (hfollows.fresh hrunning hprev)
      rw [if_pos (Or.inl hfresh), hlast, rise_of_none hrunning, Nat.add_zero]
  | some last =>
      obtain ⟨tid, since⟩ := last
      obtain ⟨rfl, hsince⟩ := hfollows.prev tid since hrunning
      obtain ⟨habsolute, hreal⟩ := hm.running r.meter r.prev since hprev hrunning
      rw [rise_of_some hrunning] at hfits ⊢
      -- the meter does not go back, and its value is a real one
      have hle : ¬ ((h.perfCounterStates (counterKey r.prev counter)).cpuAbsolute = kInvalid ∨
          value < (h.perfCounterStates (counterKey r.prev counter)).cpuAbsolute) := by
        rintro (hinvalid | hlt)
        · rw [hinvalid] at habsolute
          have hlt := value.toNat_lt
          have hmax : kInvalid.toNat = 2 ^ 64 - 1 := rfl
          apply hvalid
          apply UInt64.toNat_inj.mp
          omega
        · rw [UInt64.lt_iff_toNat_lt] at hlt
          omega
      rw [if_neg hle, StateHistory.risen, StateHistory.toNat_max]
      show max _ ((h.perfCounterStates (counterKey r.prev counter)).cpuReal +
        (value - (h.perfCounterStates (counterKey r.prev counter)).cpuAbsolute)).toNat = _
      rw [hreal, UInt64.toNat_add, UInt64.toNat_sub_of_le _ _ ?_, hlast, habsolute, hvalue,
        Nat.mod_eq_of_lt hfits]
      · exact Nat.max_eq_right (Nat.le_add_right _ _)
      · rw [UInt64.le_iff_toNat_le]
        omega

/-- The reading of a thread that stays. -/
theorem credits_cpuValue (hd : Distinguishes counterKey) (hfollows : Follows IsIdle past r)
    (hm : Metered counterKey counter past h) (hstays : r.next = r.prev) {value : UInt64}
    (hvalue : value.toNat = r.value) (hvalid : value ≠ kInvalid)
    (hfits : ∀ tid, credit tid (r :: past) < U64)
    (hrun : (Op.setPerfCounterCpuValue (counterKey r.prev counter) value).run h = some h') :
    Credits counterKey counter past r h h' := by
  have hrecord := Op.run_reading rfl hrun
  have hothers : ∀ tid, tid ≠ r.prev → Untouched (counterKey tid counter) h h' := by
    intro tid htid
    rw [hrecord]
    apply untouched_record
    intro hkey
    exact htid (hd _ _ _ _ hkey).1
  constructor
  · intro tid htid
    by_cases hprev : tid = r.prev
    · subst hprev
      rw [hrecord, StateHistory.getULongLastValue_record, if_pos rfl]
      exact nextValue_toNat hfollows hm hvalue hvalid htid (hfits _)
    · rw [(hothers tid hprev).last, hm.last tid htid, credit, if_neg (Ne.symm hprev),
        Nat.add_zero]
  · intro tid hprev _
    exact hothers tid hprev
  · intro _
    rw [hstays, hrecord, StateHistory.getULongLastValue_record, if_pos rfl,
      StateHistory.perfCounterStates_record, Function.update_self]
    exact ⟨hvalue, rfl⟩

/-- The base value of the thread that comes. -/
theorem Credits.baseValue (hd : Distinguishes counterKey) {value : UInt64}
    (hvalue : value.toNat = r.value)
    (hc : Credits counterKey counter past { r with next := r.prev } h h')
    (hrun : (Op.setPerfCounterCpuBaseValue (counterKey r.next counter) value).run h' = some h'') :
    Credits counterKey counter past r h h'' := by
  have hrecord := Op.run_reading rfl hrun
  have hlast : ∀ key, h''.getULongLastValue key = h'.getULongLastValue key := by
    intro key
    rw [hrecord, StateHistory.getULongLastValue_record]
    split
    · next heq => rw [heq, Op.nextValue]
    · rfl
  constructor
  · intro tid htid
    rw [hlast]
    exact hc.last tid htid
  · intro tid hprev hnext
    apply (hc.others tid hprev hprev).trans
    rw [hrecord]
    apply untouched_record
    intro hkey
    exact hnext (hd _ _ _ _ hkey).1
  · intro _
    rw [hlast, hrecord, StateHistory.perfCounterStates_record, Function.update_self]
    exact ⟨hvalue, rfl⟩

end Counter

/-! ### The loops over counters -/

section Loops

variable {counterKey : ℕ → String → AttributeKey} {counter : String} {h h' : StateHistory}
  {event : EventValue} {type : String} {counters : List String}
  {call : String → UInt64 → List State.Op}

/-- The calls of a counter leave those of other names alone. -/
def CallsOwn (counterKey : ℕ → String → AttributeKey)
    (call : String → UInt64 → List State.Op) : Prop :=
  ∀ counter value, ∀ op ∈ call counter value, ∀ tid other, other ≠ counter →
    Avoids (counterKey tid other) op

theorem runAll_append (h : StateHistory) (ops ops' : List State.Op) :
    runAll h (ops ++ ops') = (runAll h ops).bind fun h => runAll h ops' := List.foldlM_append

theorem forCounters_cons (event : EventValue) (type first : String) (counters : List String)
    (call : String → UInt64 → List State.Op) :
    PerfCountersBlock.forCounters event type (first :: counters) call =
      ((event.uLong (getPerfFieldName type first)).map (call first)).getD [] ++
        PerfCountersBlock.forCounters event type counters call := by
  rw [PerfCountersBlock.forCounters, List.flatMap_cons]
  cases event.uLong (getPerfFieldName type first) <;> rfl

theorem untouched_calls (hcall : CallsOwn counterKey call) {other : String} (hne : counter ≠ other)
    (hrun : runAll h (((event.uLong (getPerfFieldName type other)).map (call other)).getD []) =
      some h') (tid : ℕ) : Untouched (counterKey tid counter) h h' := by
  apply untouched_runAll ?_ hrun
  intro op hop
  cases hfield : event.uLong (getPerfFieldName type other) with
  | none =>
      rw [hfield] at hop
      cases hop
  | some value =>
      rw [hfield] at hop
      exact hcall other value op hop tid counter hne

/-- A loop that does not come to a counter, or to an event without it, leaves it alone. -/
theorem forCounters_untouched (hcall : CallsOwn counterKey call)
    (hcounter : counter ∈ counters → event.uLong (getPerfFieldName type counter) = none)
    (hrun : runAll h (PerfCountersBlock.forCounters event type counters call) = some h')
    (tid : ℕ) : Untouched (counterKey tid counter) h h' := by
  induction counters generalizing h with
  | nil =>
      cases hrun
      exact .refl _ _
  | cons first counters ih =>
      rw [forCounters_cons, runAll_append] at hrun
      obtain ⟨h₁, hfirst, hrest⟩ := Option.bind_eq_some_iff.mp hrun
      have hkept := ih (fun hmem => hcounter (List.mem_cons_of_mem first hmem)) hrest
      by_cases hsame : counter = first
      · subst hsame
        rw [hcounter List.mem_cons_self] at hfirst
        cases hfirst
        exact hkept
      · exact (untouched_calls hcall hsame hfirst tid).trans hkept

/-- A loop calls what it calls for a counter between calls that leave it alone. -/
theorem forCounters_cases (hcall : CallsOwn counterKey call) (hnodup : counters.Nodup)
    (hcounter : counter ∈ counters) {value : UInt64}
    (hvalue : event.uLong (getPerfFieldName type counter) = some value)
    (hrun : runAll h (PerfCountersBlock.forCounters event type counters call) = some h') :
    ∃ h₁ h₂, (∀ tid, Untouched (counterKey tid counter) h h₁) ∧
      runAll h₁ (call counter value) = some h₂ ∧
      ∀ tid, Untouched (counterKey tid counter) h₂ h' := by
  induction counters generalizing h with
  | nil => cases hcounter
  | cons first counters ih =>
      rw [forCounters_cons, runAll_append] at hrun
      obtain ⟨h₁, hfirst, hrest⟩ := Option.bind_eq_some_iff.mp hrun
      obtain ⟨hnotMem, hnodup⟩ := List.nodup_cons.mp hnodup
      by_cases hsame : counter = first
      · subst hsame
        rw [hvalue] at hfirst
        refine ⟨h, h₁, fun tid => .refl _ h, hfirst, ?_⟩
        exact forCounters_untouched hcall (fun hmem => absurd hmem hnotMem) hrest
      · have hmem : counter ∈ counters := (List.mem_cons.mp hcounter).resolve_left hsame
        obtain ⟨h₂, h₃, hbefore, hcalls, hbehind⟩ := ih hnodup hmem hrest
        refine ⟨h₂, h₃, ?_, hcalls, hbehind⟩
        intro tid
        exact (untouched_calls hcall hsame hfirst tid).trans (hbefore tid)

end Loops

/-! ### Which counters are read -/

section Enabled

variable {counterKey : ℕ → String → AttributeKey} {counter : String} {block : PerfCountersBlock}

/-- The names of the counters differ. -/
theorem kPerformanceCounters_nodup : kPerformanceCounters.Nodup := by decide +kernel

/-- What holds of the block in all runs. -/
structure Initialized (block : PerfCountersBlock) : Prop where
  kernel : block.kernelCounters.Nodup
  ust : block.ustInitialized = false → block.ustCounters = []

/-- The counter is one of those that are read, or there was no event yet to say so. -/
def Enabled (counter : String) (block : PerfCountersBlock) : Prop :=
  block.kernelInitialized = true → counter ∈ block.kernelCounters

theorem initialized_calls (hinit : Initialized block) (notification : Notification) :
    Initialized (notification.calls counterKey block).1 := by
  have hkernel : ∀ event, Initialized (block.initializeKernel event) := by
    intro event
    rw [PerfCountersBlock.initializeKernel]
    split
    · exact hinit
    · exact ⟨List.Nodup.filter _ kPerformanceCounters_nodup, hinit.ust⟩
  cases notification with
  | schedSwitch event prevTid nextTid => exact hkernel event
  | schedTtwu event => exact hkernel event
  | ust event =>
      show Initialized (block.initializeUst event)
      rw [PerfCountersBlock.initializeUst]
      split
      · exact hinit
      · exact ⟨hinit.kernel, fun h => absurd h Bool.true_eq_false.mp⟩
  | state _ _ | timestamp _ | cleanup _ => exact hinit

theorem enabled_of_initializeKernel {event : EventValue}
    (h : counter ∈ (block.initializeKernel event).kernelCounters) : Enabled counter block := by
  intro hkernel
  rw [PerfCountersBlock.initializeKernel, if_pos hkernel] at h
  exact h

theorem kernelInitialized_initializeKernel (event : EventValue) :
    (block.initializeKernel event).kernelInitialized = true := by
  rw [PerfCountersBlock.initializeKernel]
  split
  · assumption
  · rfl

/-- What is read after a notification was read before it. -/
theorem enabled_before (hinit : Initialized block) {notification : Notification}
    (henabled : Enabled counter (notification.calls counterKey block).1)
    (hust : counter ∉ (notification.calls counterKey block).1.ustCounters) :
    Enabled counter block ∧ counter ∉ block.ustCounters := by
  have hkernel : ∀ event, Enabled counter (block.initializeKernel event) →
      counter ∉ (block.initializeKernel event).ustCounters →
      Enabled counter block ∧ counter ∉ block.ustCounters := by
    intro event h hust
    refine ⟨enabled_of_initializeKernel (h (kernelInitialized_initializeKernel event)), ?_⟩
    rw [PerfCountersBlock.initializeKernel] at hust
    split at hust
    · exact hust
    · exact hust
  cases notification with
  | schedSwitch event prevTid nextTid => exact hkernel event henabled hust
  | schedTtwu event => exact hkernel event henabled hust
  | ust event =>
      replace henabled : Enabled counter (block.initializeUst event) := henabled
      replace hust : counter ∉ (block.initializeUst event).ustCounters := hust
      rw [PerfCountersBlock.initializeUst] at henabled hust
      split at hust
      · next hinitialized =>
          rw [if_pos hinitialized] at henabled
          exact ⟨henabled, hust⟩
      · next hfirst =>
          rw [if_neg hfirst] at henabled
          refine ⟨henabled, ?_⟩
          rw [hinit.ust (by simpa using hfirst)]
          exact List.not_mem_nil
  | state _ _ | timestamp _ | cleanup _ => exact ⟨henabled, hust⟩

end Enabled

/-! ### Runs -/

section Runs

variable {counterKey : ℕ → String → AttributeKey} {counter : String}
  {recorder recorder' : Recorder} {past : List Notification} {notification : Notification}

theorem readings_cons (counter : String) (notification : Notification)
    (past : List Notification) :
    readings counter (notification :: past) =
      (notification.reading? counter).toList ++ readings counter past := by
  rw [readings, List.filterMap_cons]
  cases notification.reading? counter <;> rfl

theorem avoids_of_ne {op : State.Op} {key other : AttributeKey} {source : Source} {value : UInt64}
    (hset : op.setsULong = false) (hreading : op.reading? = some (other, source, value))
    (hne : key ≠ other) : Avoids key op := by
  refine ⟨hset, ?_⟩
  intro source' value' h
  rw [hreading] at h
  exact hne (congrArg Prod.fst (Option.some.inj h)).symm

theorem Distinguishes.ne (hd : Distinguishes counterKey) {other : String} (hne : other ≠ counter)
    (tid tid' : ℕ) : counterKey tid other ≠ counterKey tid' counter := by
  intro hkey
  exact hne (hd _ _ _ _ hkey).2

theorem callsOwn_switch (hd : Distinguishes counterKey) (prevTid nextTid : ℕ) :
    CallsOwn counterKey fun counter value =>
      [.setPerfCounterCpuValue (counterKey prevTid counter) value,
        .setPerfCounterCpuBaseValue (counterKey nextTid counter) value] := by
  intro counter value op hop tid other hne
  simp only [List.mem_cons, List.not_mem_nil, or_false] at hop
  rcases hop with rfl | rfl
  · exact avoids_of_ne rfl rfl (hd.ne hne _ _)
  · exact avoids_of_ne rfl rfl (hd.ne hne _ _)

theorem callsOwn_cpuValue (hd : Distinguishes counterKey) (tid : ℕ) :
    CallsOwn counterKey fun counter value =>
      [.setPerfCounterCpuValue (counterKey tid counter) value] := by
  intro counter value op hop tid' other hne
  obtain rfl := List.mem_singleton.mp hop
  exact avoids_of_ne rfl rfl (hd.ne hne _ _)

theorem callsOwn_threadValue (hd : Distinguishes counterKey) (tid : ℕ) :
    CallsOwn counterKey fun counter value =>
      [.setPerfCounterThreadValue (counterKey tid counter) value] := by
  intro counter value op hop tid' other hne
  obtain rfl := List.mem_singleton.mp hop
  exact avoids_of_ne rfl rfl (hd.ne hne _ _)

/-- The readings keep to the schedule, and none of them is the mark of a missing one. -/
structure Orderly (past : List (Reading ℕ ℕ)) : Prop where
  scheduled : Scheduled IsIdle past
  valid : ∀ r ∈ past, r.value ≠ kInvalid.toNat
  fits : ∀ tid, credit tid past < U64

theorem Orderly.of_cons {past : List (Reading ℕ ℕ)} {r : Reading ℕ ℕ} (h : Orderly (r :: past)) :
    Orderly past := by
  refine ⟨h.scheduled.2, fun r hr => h.valid r (List.mem_cons_of_mem _ hr), ?_⟩
  intro tid
  exact (credit_le_cons tid).trans_lt (h.fits tid)

/-- A round of the loops for a counter, for each of the two kinds of kernel events. -/
theorem metered_reading (hd : Distinguishes counterKey)
    {value : UInt64} {h h' : StateHistory} {past : List (Reading ℕ ℕ)} {r : Reading ℕ ℕ}
    (horderly : Orderly (r :: past)) (hm : Metered counterKey counter past h)
    (hvalue : value.toNat = r.value)
    (hrun : runAll h [.setPerfCounterCpuValue (counterKey r.prev counter) value,
        .setPerfCounterCpuBaseValue (counterKey r.next counter) value] = some h' ∨
      r.next = r.prev ∧
        runAll h [.setPerfCounterCpuValue (counterKey r.prev counter) value] = some h') :
    Metered counterKey counter (r :: past) h' := by
  obtain ⟨hfollows, hscheduled⟩ := horderly.scheduled
  have hvalid : value ≠ kInvalid := by
    rintro rfl
    exact horderly.valid r List.mem_cons_self hvalue.symm
  apply hm.credits hscheduled hfollows
  rcases hrun with hrun | ⟨hstays, hrun⟩
  · rw [runAll_cons] at hrun
    obtain ⟨h₁, hcpu, hrun⟩ := Option.bind_eq_some_iff.mp hrun
    rw [runAll_cons] at hrun
    obtain ⟨h₂, hbase, hrun⟩ := Option.bind_eq_some_iff.mp hrun
    cases hrun
    apply Credits.baseValue hd hvalue ?_ hbase
    have hfollows' : Follows IsIdle past { r with next := r.prev } := by
      refine ⟨hfollows.prev, hfollows.fresh, ?_⟩
      intro hprev cpu hcpu since hrunning
      exact ne_prev_of_running hscheduled hfollows hprev (Ne.symm hcpu) hrunning rfl
    exact credits_cpuValue hd hfollows' hm rfl hvalue hvalid horderly.fits hcpu
  · rw [runAll_cons] at hrun
    obtain ⟨h₁, hcpu, hrun⟩ := Option.bind_eq_some_iff.mp hrun
    cases hrun
    exact credits_cpuValue hd hfollows hm hstays hvalue hvalid horderly.fits hcpu

/-- A kernel event. -/
theorem metered_kernel (hd : Distinguishes counterKey) {block : PerfCountersBlock}
    {event : EventValue} {prevTid nextTid : ℕ} {call : String → UInt64 → List State.Op}
    {h h' : StateHistory} {past : List (Reading ℕ ℕ)} (hinit : Initialized block)
    (henabled : Enabled counter (block.initializeKernel event)) (hcall : CallsOwn counterKey call)
    (hcalls : ∀ value, call counter value =
          [.setPerfCounterCpuValue (counterKey prevTid counter) value,
            .setPerfCounterCpuBaseValue (counterKey nextTid counter) value] ∨
        nextTid = prevTid ∧
          call counter value = [.setPerfCounterCpuValue (counterKey prevTid counter) value])
    (horderly : Orderly (((event.uLong (getPerfFieldName "cpu" counter)).map fun value =>
      (⟨event.cpuId, prevTid, nextTid, value.toNat⟩ : Reading ℕ ℕ)).toList ++ past))
    (hm : Metered counterKey counter past h)
    (hrun : runAll h (PerfCountersBlock.forCounters event "cpu"
      (block.initializeKernel event).kernelCounters call) = some h') :
    Metered counterKey counter (((event.uLong (getPerfFieldName "cpu" counter)).map fun value =>
      (⟨event.cpuId, prevTid, nextTid, value.toNat⟩ : Reading ℕ ℕ)).toList ++ past) h' := by
  cases hvalue : event.uLong (getPerfFieldName "cpu" counter) with
  | none => exact hm.untouched (forCounters_untouched hcall (fun _ => hvalue) hrun)
  | some value =>
      rw [hvalue] at horderly
      have hmem := henabled (kernelInitialized_initializeKernel event)
      have hnodup : (block.initializeKernel event).kernelCounters.Nodup := by
        rw [PerfCountersBlock.initializeKernel]
        split
        · exact hinit.kernel
        · exact List.Nodup.filter _ kPerformanceCounters_nodup
      -- The calls for the other counters do not touch this one, before its own and behind it.
      obtain ⟨h₁, h₂, hbefore, hrun, hbehind⟩ := forCounters_cases hcall hnodup hmem hvalue hrun
      have hread : Metered counterKey counter (⟨event.cpuId, prevTid, nextTid, value.toNat⟩ :: past)
          h₂ := by
        apply metered_reading hd horderly (hm.untouched hbefore) rfl
        rcases hcalls value with heq | ⟨hstays, heq⟩
        · left
          rw [heq] at hrun
          exact hrun
        · right
          rw [heq] at hrun
          exact ⟨hstays, hrun⟩
      exact hread.untouched hbehind

/-- One notification. -/
theorem metered_step (hd : Distinguishes counterKey) (hinit : Initialized recorder.block)
    (henabled : Enabled counter (notification.calls counterKey recorder.block).1)
    (hust : counter ∉ (notification.calls counterKey recorder.block).1.ustCounters)
    {past : List (Reading ℕ ℕ)} {h' : StateHistory}
    (horderly : Orderly ((notification.reading? counter).toList ++ past))
    (hm : Metered counterKey counter past recorder.stateHistory)
    (hrun : runAll recorder.stateHistory (notification.calls counterKey recorder.block).2 =
      some h') :
    Metered counterKey counter ((notification.reading? counter).toList ++ past) h' := by
  cases notification with
  | schedSwitch event prevTid nextTid =>
      exact metered_kernel hd hinit henabled (callsOwn_switch hd prevTid nextTid)
        (fun value => Or.inl rfl) horderly hm hrun
  | schedTtwu event =>
      exact metered_kernel hd hinit henabled (callsOwn_cpuValue hd event.threadForEvent)
        (fun value => Or.inr ⟨rfl, rfl⟩) horderly hm hrun
  | ust event =>
      have hkept := forCounters_untouched (callsOwn_threadValue hd event.threadForEvent)
        (fun hmem => absurd hmem hust) hrun
      exact hm.untouched hkept
  | state key value =>
      exact hm.untouched fun tid => untouched_single ⟨rfl, fun source value h => by cases h⟩ hrun
  | timestamp ts =>
      exact hm.untouched fun tid => untouched_single ⟨rfl, fun source value h => by cases h⟩ hrun
  | cleanup ts =>
      exact hm.untouched fun tid => untouched_single ⟨rfl, fun source value h => by cases h⟩ hrun

theorem metered_initial : Metered counterKey counter [] {} := by
  refine ⟨fun tid _ => rfl, fun tid _ _ => rfl, ?_⟩
  intro cpu tid since _ h
  cases h

theorem initialized_recorded (h : recorded counterKey past = some recorder) :
    Initialized recorder.block := by
  induction past generalizing recorder with
  | nil =>
      cases h
      exact ⟨List.nodup_nil, fun _ => rfl⟩
  | cons notification past ih =>
      obtain ⟨before, hbefore, hstep⟩ := Option.bind_eq_some_iff.mp h
      obtain ⟨stateHistory, -, hstep⟩ := Option.bind_eq_some_iff.mp hstep
      cases hstep
      exact initialized_calls (ih hbefore) notification

theorem metered_recorded (hd : Distinguishes counterKey)
    (h : recorded counterKey past = some recorder) (henabled : Enabled counter recorder.block)
    (hust : counter ∉ recorder.block.ustCounters) (horderly : Orderly (readings counter past)) :
    Metered counterKey counter (readings counter past) recorder.stateHistory := by
  induction past generalizing recorder with
  | nil =>
      cases h
      exact metered_initial
  | cons notification past ih =>
      obtain ⟨before, hbefore, hstep⟩ := Option.bind_eq_some_iff.mp h
      obtain ⟨stateHistory, hrun, hstep⟩ := Option.bind_eq_some_iff.mp hstep
      cases hstep
      have hinit := initialized_recorded hbefore
      obtain ⟨henabled', hust'⟩ := enabled_before hinit henabled hust
      rw [readings_cons] at horderly ⊢
      have hpast : Orderly (readings counter past) := by
        cases hreading : notification.reading? counter with
        | none =>
            rw [hreading] at horderly
            exact horderly
        | some r =>
            rw [hreading] at horderly
            exact horderly.of_cons
      exact metered_step hd hinit henabled hust horderly (ih hbefore henabled' hust' hpast) hrun

end Runs

/-- The counter of each thread but the idle one is what the processors counted while the thread
was on them, and no threads together have more than the processors counted in all. -/
theorem counters_eq_credit {counterKey : ℕ → String → AttributeKey}
    (hd : Distinguishes counterKey) {past : List Notification} {recorder : Recorder}
    (h : recorded counterKey past = some recorder) {counter : String}
    (hkernel : counter ∈ recorder.block.kernelCounters)
    (hust : counter ∉ recorder.block.ustCounters) (horderly : Orderly (readings counter past)) :
    (∀ tid, ¬ IsIdle tid →
      (recorder.stateHistory.getULongLastValue (counterKey tid counter)).toNat =
        credit tid (readings counter past)) ∧
    ∀ tids cpus : Finset ℕ, (∀ tid ∈ tids, ¬ IsIdle tid) →
      (∀ r ∈ readings counter past, r.meter ∈ cpus) →
        ∑ tid ∈ tids,
            (recorder.stateHistory.getULongLastValue (counterKey tid counter)).toNat ≤
          ∑ cpu ∈ cpus, counted cpu (readings counter past) := by
  have hm := metered_recorded hd h (fun _ => hkernel) hust horderly
  refine ⟨hm.last, ?_⟩
  intro tids cpus htids hcpus
  rw [Finset.sum_congr rfl fun tid htid => hm.last tid (htids tid htid)]
  exact (sum_credit horderly.scheduled tids cpus hcpus).1

/-- Keys that are numbers of their paths. -/
def pathKey (tid : ℕ) (counter : String) : AttributeKey :=
  Encodable.encode (tid, counter.toList.map Char.toNat)

theorem distinguishes_pathKey : Distinguishes pathKey := by
  intro tid tid' counter counter' h
  obtain ⟨htid, hcounter⟩ := Prod.mk.inj (Encodable.encode_injective h)
  have hchar : Function.Injective Char.toNat := fun a b hab => Char.toNat_inj.mp hab
  exact ⟨htid, String.toList_injective (hchar.list_map hcounter)⟩

def csEvent (cpuId : ℕ) (value : UInt64) : EventValue :=
  { cpuId, vtid := none, currentThread := 0
    uLong := fun field => if field = "perf_cpu_cs" then some value else none }

/-- A thread that goes from one processor to another. -/
def migration : List Notification :=
  [.schedSwitch (csEvent 1 65) 7 0, .schedSwitch (csEvent 1 60) 0 7, .cleanup 5,
    .schedSwitch (csEvent 0 130) 7 8, .timestamp 10, .schedSwitch (csEvent 1 50) 8 0,
    .schedSwitch (csEvent 0 100) 0 7]

/-- What the switches read. -/
theorem readings_migration : readings "cs" migration =
    [⟨1, 7, 0, 65⟩, ⟨1, 0, 7, 60⟩, ⟨0, 7, 8, 130⟩, ⟨1, 8, 0, 50⟩, ⟨0, 0, 7, 100⟩] := by
  decide +kernel

theorem block_migration : (recorded pathKey migration).map Recorder.block =
    some ⟨false, true, [], ["cs"]⟩ := by decide +kernel

theorem orderly_migration : Orderly (readings "cs" migration) := by
  rw [readings_migration]
  refine ⟨?_, by decide, ?_⟩
  · refine ⟨⟨?_, ?_, ?_⟩, ⟨?_, ?_, ?_⟩, ⟨?_, ?_, ?_⟩, ⟨?_, ?_, ?_⟩, ⟨?_, ?_, ?_⟩, trivial⟩
    all_goals simp only [running, seen, IsIdle]
    all_goals grind
  · intro tid
    simp only [credit, rise, running]
    split_ifs <;> simp [U64]

theorem counters_eq_credit_migration : ∃ recorder, recorded pathKey migration = some recorder ∧
    (recorder.stateHistory.getULongLastValue (pathKey 7 "cs")).toNat = 35 := by
  obtain ⟨recorder, hrecorded, hblock⟩ := Option.map_eq_some_iff.mp block_migration
  have hkernel : "cs" ∈ recorder.block.kernelCounters := by
    rw [hblock]
    exact List.mem_singleton.mpr rfl
  have hust : "cs" ∉ recorder.block.ustCounters := by
    rw [hblock]
    exact List.not_mem_nil
  refine ⟨recorder, hrecorded, ?_⟩
  rw [(counters_eq_credit distinguishes_pathKey hrecorded hkernel hust orderly_migration).1 7
    (by simp [IsIdle]), readings_migration]
  rfl

end TibeeCompare.StateBlocks
