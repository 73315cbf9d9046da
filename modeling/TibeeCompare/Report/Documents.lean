import TibeeCompare.Base.JsonDocuments
import TibeeCompare.Db.SizeEstimates
import TibeeCompare.Report.NeededStacks

/-!
A report as a tree.

Under `executions` each execution that was read has its metrics and its samples; under `stacks`
are the stacks that are needed for these, once each and in order. The file holds the text of
this tree.
-/

namespace TibeeCompare.Report

open Base Db Executions Lib

/-! ### Trees of executions -/

/-- A metric with its key. -/
def metricMember (metric : UInt32 × UInt64) : Bytes × Document :=
  if metric.1 < kPerformanceCounterFirstMetricId then
    ([UInt8.ofNat (metric.1.toNat + 97)], .number (decimal (metric.2 / 1000).toNat))
  else
    (str "p" ++ decimalDigits (metric.1 - kPerformanceCounterFirstMetricId).toNat,
      .number (decimal metric.2.toNat))

/-- What a call with a key and a value adds to a dictionary. -/
def callMember? : Call → Option (Bytes × Document)
  | .keyValue key (.string s) => some (key, .string s)
  | .keyValue key (.number n) => some (key, .number n)
  | _ => none

def sampleMembers (written : Written) : List (Bytes × Document) :=
  written.sampleCalls.filterMap callMember?

def executionDocument (execution : Execution) (written : Written) : Document :=
  .dict (execution.metrics.entries.map metricMember ++
    [(str "samples", .dict (sampleMembers written))])

theorem memberCalls_metricMember (metric : UInt32 × UInt64) :
    memberCalls (metricMember metric).1 (metricMember metric).2 = [metricCall metric] := by
  rw [metricMember, metricCall]
  split
  · rw [memberCalls]
  · rw [memberCalls]

theorem membersCalls_append (ms ms' : List (Bytes × Document)) :
    membersCalls (ms ++ ms') = membersCalls ms ++ membersCalls ms' := by
  induction ms with
  | nil => rw [membersCalls, List.nil_append, List.nil_append]
  | cons m ms ih =>
      obtain ⟨key, v⟩ := m
      rw [List.cons_append, membersCalls, membersCalls, ih, List.append_assoc]

theorem membersCalls_metrics (metrics : List (UInt32 × UInt64)) :
    membersCalls (metrics.map metricMember) = metrics.map metricCall := by
  induction metrics with
  | nil => rw [List.map_nil, membersCalls, List.map_nil]
  | cons metric metrics ih =>
      rw [List.map_cons, membersCalls, memberCalls_metricMember, ih]
      rfl

theorem membersCalls_filterMap {calls : List Call}
    (h : ∀ call ∈ calls, (callMember? call).isSome = true) :
    membersCalls (calls.filterMap callMember?) = calls := by
  induction calls with
  | nil => rw [List.filterMap_nil, membersCalls]
  | cons call calls ih =>
      rw [List.forall_mem_cons] at h
      obtain ⟨hcall, hcalls⟩ := h
      have hmember : ∃ key v, callMember? call = some (key, v) ∧ memberCalls key v = [call] := by
        rcases call with _ | _ | _ | _ | _ | ⟨key, s | n⟩ | _ | _
        case keyValue.string => exact ⟨key, .string s, rfl, by rw [memberCalls]⟩
        case keyValue.number => exact ⟨key, .number n, rfl, by rw [memberCalls]⟩
        all_goals cases hcall
      obtain ⟨key, v, hmember, hcalls'⟩ := hmember
      rw [List.filterMap_cons_some hmember, membersCalls, hcalls', ih hcalls]
      rfl

/-- The callback writes the tree of its execution. -/
theorem elementCalls_executionDocument {execution : Execution} {written : Written}
    (h : ∀ call ∈ written.sampleCalls, (callMember? call).isSome = true) :
    elementCalls (executionDocument execution written) = writeExecutionCalls execution written := by
  rw [executionDocument, elementCalls, membersCalls_append, membersCalls_metrics, membersCalls,
    memberCalls, sampleMembers, membersCalls_filterMap h, membersCalls, writeExecutionCalls]
  simp

/-! ### What a tree says of an execution -/

/-- Each stack has its inclusive samples in microseconds, unless these are zero, and there is no
other key. -/
structure DescribesSamples (stored : StackId → Option Stack) (execution : Execution)
    (members : List (Bytes × Document)) : Prop where
  each : ∀ id, id ≠ kEmptyStackId →
    (members.filter fun m => m.1 = decimalDigits id.toNat) =
      if inclusiveSamples stored execution id / 1000 ≠ 0 then
        [(decimalDigits id.toNat,
          .number (decimal (inclusiveSamples stored execution id / 1000)))]
      else []
  others : ∀ m ∈ members, ∃ id, id ≠ kEmptyStackId ∧ m.1 = decimalDigits id.toNat

def DescribesExecution (stored : StackId → Option Stack) (execution : Execution)
    (document : Document) : Prop :=
  ∃ members, document = .dict (execution.metrics.entries.map metricMember ++
    [(str "samples", .dict members)]) ∧ DescribesSamples stored execution members

theorem callMember?_of_valueKey? {call : Call} {key : Bytes} (h : valueKey? call = some key) :
    ∃ v, callMember? call = some (key, v) := by
  rcases call with _ | _ | _ | _ | _ | ⟨key', s | n⟩ | _ | _
  case keyValue.string =>
    cases h
    exact ⟨.string s, rfl⟩
  case keyValue.number =>
    cases h
    exact ⟨.number n, rfl⟩
  all_goals cases h

theorem filter_sampleMembers (calls : List Call) (key : Bytes) :
    (calls.filterMap callMember?).filter (fun m => m.1 = key) =
      (calls.filter fun call => valueKey? call = some key).filterMap callMember? := by
  induction calls with
  | nil => rfl
  | cons call calls ih =>
      cases hkey : valueKey? call with
      | none =>
          have hmember : callMember? call = none := by
            rcases call with _ | _ | _ | _ | _ | ⟨key', s | n⟩ | _ | _
            case keyValue.string | keyValue.number => cases hkey
            all_goals rfl
          rw [List.filterMap_cons_none hmember, ih, List.filter_cons_of_neg (by simp [hkey])]
      | some key' =>
          obtain ⟨v, hmember⟩ := callMember?_of_valueKey? hkey
          rw [List.filterMap_cons_some hmember]
          by_cases hsame : key' = key
          · subst hsame
            rw [List.filter_cons_of_pos (by simp), List.filter_cons_of_pos (by simp [hkey]),
              List.filterMap_cons_some hmember, ih]
          · rw [List.filter_cons_of_neg (by simpa using hsame),
              List.filter_cons_of_neg (by simpa [hkey] using hsame), ih]

theorem WritesSamples.isSome_callMember? {stored : StackId → Option Stack} {execution : Execution}
    {written : Written} (h : WritesSamples stored execution written) :
    ∀ call ∈ written.sampleCalls, (callMember? call).isSome = true := by
  intro call hcall
  obtain ⟨id, -, hkey⟩ := h.others call hcall
  obtain ⟨v, hmember⟩ := callMember?_of_valueKey? hkey
  rw [hmember]
  rfl

theorem WritesSamples.describes {stored : StackId → Option Stack} {execution : Execution}
    {written : Written} (h : WritesSamples stored execution written) :
    DescribesExecution stored execution (executionDocument execution written) := by
  refine ⟨sampleMembers written, rfl, ?_, ?_⟩
  · intro id hid
    rw [sampleMembers, filter_sampleMembers, h.calls id hid]
    split
    · rfl
    · rfl
  · intro m hm
    obtain ⟨call, hcall, hmember⟩ := List.mem_filterMap.mp hm
    obtain ⟨id, hid, hkey⟩ := h.others call hcall
    obtain ⟨v, hmember'⟩ := callMember?_of_valueKey? hkey
    rw [hmember] at hmember'
    cases hmember'
    exact ⟨id, hid, rfl⟩

theorem elementsCalls_executions {stored : StackId → Option Stack} {executions : List Execution}
    {writtens : List Written} (h : List.Forall₂ (WritesSamples stored) executions writtens) :
    elementsCalls (List.zipWith executionDocument executions writtens) =
        (List.zipWith writeExecutionCalls executions writtens).flatten ∧
      List.Forall₂ (DescribesExecution stored) executions
        (List.zipWith executionDocument executions writtens) := by
  induction h with
  | nil => exact ⟨by rw [List.zipWith_nil_left, elementsCalls]; rfl, .nil⟩
  | cons hwrites _ ih =>
      refine ⟨?_, .cons hwrites.describes ih.2⟩
      rw [List.zipWith_cons_cons, elementsCalls, List.zipWith_cons_cons, List.flatten_cons, ih.1,
        elementCalls_executionDocument hwrites.isSome_callMember?]

/-! ### Trees of stacks -/

/-- The entry of a stack: its bottom and the name of its function. -/
def stackMember (entry : StackId × Stack) (function : Bytes) : Bytes × Document :=
  (decimalDigits entry.1.toNat,
    .dict [(str "b", .number (decimal entry.2.bottom.toNat)), (str "f", .string function)])

def DescribesStack (t : Tables) (entry : StackId × Stack) (member : Bytes × Document) : Prop :=
  ∃ function, t.nameAt entry.2.function = some function ∧ member = stackMember entry function

theorem memberCalls_stackMember (entry : StackId × Stack) (function : Bytes) :
    memberCalls (stackMember entry function).1 (stackMember entry function).2 =
      [.keyDictValue (decimalDigits entry.1.toNat),
        .keyValue (str "b") (.number (decimal entry.2.bottom.toNat)),
        .keyValue (str "f") (.string function), .endDict] := by
  rw [stackMember, memberCalls, membersCalls, membersCalls, memberCalls, memberCalls, membersCalls]
  rfl

theorem writeStackEntries_does {t : Tables} (hwf : t.WellFormed) {entries : List (StackId × Stack)}
    (hentries : ∀ entry ∈ entries, t.stackAt entry.1 = some entry.2) :
    ∃ members, List.Forall₂ (DescribesStack t) entries members ∧
      Does (writeStackEntries entries) t (.ok (membersCalls members)) t := by
  induction entries with
  | nil =>
      refine ⟨[], .nil, ?_⟩
      rw [membersCalls]
      exact Does.pure t []
  | cons entry entries ih =>
      obtain ⟨id, stack⟩ := entry
      rw [List.forall_mem_cons] at hentries
      obtain ⟨members, hall, hdoes⟩ := ih hentries.2
      obtain ⟨function, hname⟩ := hwf.named id stack hentries.1
      have hget := getFunctionName_does t stack.function
      rw [Tables.functionName, hname] at hget
      refine ⟨stackMember (id, stack) function :: members, .cons ⟨function, hname, rfl⟩ hall, ?_⟩
      rw [membersCalls, memberCalls_stackMember]
      exact hget.bind (hdoes.bind (Does.pure t _))

/-! ### The order of the stacks -/

section Entries

variable {maps : StackMaps}

theorem mem_entries {id : StackId} {stack : Stack} :
    (id, stack) ∈ maps.entries ↔ maps.stacksMap id = some stack := by
  rw [StackMaps.entries, StackMaps.entriesBelow, List.mem_filterMap]
  constructor
  · rintro ⟨n, -, hn⟩
    obtain ⟨stack', hstack, heq⟩ := Option.map_eq_some_iff.mp hn
    cases heq
    exact hstack
  · intro hstack
    refine ⟨id.toNat, List.mem_range.mpr id.toNat_lt, ?_⟩
    rw [UInt32.ofNat_toNat, hstack]
    rfl

theorem entries_ordered (maps : StackMaps) :
    maps.entries.Pairwise fun a b => a.1 < b.1 := by
  rw [StackMaps.entries, StackMaps.entriesBelow, List.pairwise_filterMap]
  apply List.pairwise_lt_range.imp_of_mem
  intro n m hn hm hlt a ha b hb
  rw [List.mem_range] at hn hm
  obtain ⟨stack, -, rfl⟩ := Option.map_eq_some_iff.mp ha
  obtain ⟨stack', -, rfl⟩ := Option.map_eq_some_iff.mp hb
  rw [UInt32.lt_iff_toNat_lt, UInt32.toNat_ofNat_of_lt' hn, UInt32.toNat_ofNat_of_lt' hm]
  exact hlt

end Entries

/-- The stacks that the executions need, in order, and none besides. With a stack there are all
that are below it. -/
structure DescribesStacks (t : Tables) (executions : List Execution)
    (entries : List (StackId × Stack)) (members : List (Bytes × Document)) : Prop where
  ordered : entries.Pairwise fun a b => a.1 < b.1
  mem_iff : ∀ id stack, (id, stack) ∈ entries ↔
    t.stackAt id = some stack ∧ Needed t.stackAt executions id
  bottoms : ∀ entry ∈ entries, entry.2.bottom = kEmptyStackId ∨
    ∃ below, (entry.2.bottom, below) ∈ entries
  members : List.Forall₂ (DescribesStack t) entries members

theorem needed_bottom {t : Tables} (hwf : t.WellFormed) {executions : List Execution}
    {id : StackId} {stack : Stack} (hstack : t.stackAt id = some stack)
    (h : Needed t.stackAt executions id) (hbottom : stack.bottom ≠ kEmptyStackId) :
    Needed t.stackAt executions stack.bottom := by
  obtain ⟨hid, execution, hexecution, entry, hentry, hpath⟩ := h
  refine ⟨hbottom, execution, hexecution, entry, hentry, ?_⟩
  exact bottom_mem_stackPath hwf.bottomsSmaller hid hstack hpath

/-! ### The keys of the dictionaries -/

theorem decimalDigits_id_injective :
    Function.Injective fun id : UInt32 => decimalDigits id.toNat := by
  intro id id' h
  exact UInt32.toNat_inj.mp (decimalDigits_injective h)

/-- A timing metric has one letter, from `a` to `l`, and the other ones have a `p` and digits. -/
theorem metricKey_cases (metric : UInt32 × UInt64) :
    (metric.1 < 12 ∧ (metricMember metric).1 = [UInt8.ofNat (metric.1.toNat + 97)]) ∨
      12 ≤ metric.1 ∧
        (metricMember metric).1 = str "p" ++ decimalDigits (metric.1 - 12).toNat := by
  rw [metricMember]
  split
  · next hlt => exact Or.inl ⟨hlt, rfl⟩
  · next hge => exact Or.inr ⟨UInt32.not_lt.mp hge, rfl⟩

theorem metricKey_injective {metric metric' : UInt32 × UInt64}
    (h : (metricMember metric).1 = (metricMember metric').1) : metric.1 = metric'.1 := by
  have hletter : ∀ {id : UInt32} {digits : Bytes}, id < 12 →
      [UInt8.ofNat (id.toNat + 97)] ≠ str "p" ++ digits := by
    intro id digits hid heq
    have hhead := (List.cons.inj heq).1
    have hall : ∀ i < 12, UInt8.ofNat (i + 97) ≠ 0x70 := by decide
    exact hall id.toNat (UInt32.lt_iff_toNat_lt.mp hid) hhead
  rcases metricKey_cases metric with ⟨hlt, hkey⟩ | ⟨hge, hkey⟩ <;>
    rcases metricKey_cases metric' with ⟨hlt', hkey'⟩ | ⟨hge', hkey'⟩ <;>
    rw [hkey, hkey'] at h
  · have hall : ∀ i < 12, ∀ j < 12, UInt8.ofNat (i + 97) = UInt8.ofNat (j + 97) → i = j := by
      decide
    exact UInt32.toNat_inj.mp (hall _ (UInt32.lt_iff_toNat_lt.mp hlt) _
      (UInt32.lt_iff_toNat_lt.mp hlt') (List.cons.inj h).1)
  · exact absurd h (hletter hlt)
  · exact absurd h.symm (hletter hlt')
  · have hsub : metric.1 - 12 = metric'.1 - 12 :=
      decimalDigits_id_injective (List.append_cancel_left h)
    rw [← UInt32.sub_add_cancel metric.1 12, hsub, UInt32.sub_add_cancel]

/-- No metric has the key of the samples. -/
theorem metricKey_ne_samples (metric : UInt32 × UInt64) :
    (metricMember metric).1 ≠ str "samples" := by
  intro h
  rcases metricKey_cases metric with ⟨-, hkey⟩ | ⟨-, hkey⟩ <;> rw [hkey] at h
  · exact absurd (show 1 = 7 from congrArg List.length h) (by decide)
  · exact absurd (List.cons.inj h).1 (by decide)

theorem DescribesSamples.nodup_keys {stored : StackId → Option Stack} {execution : Execution}
    {members : List (Bytes × Document)} (h : DescribesSamples stored execution members) :
    (members.map Prod.fst).Nodup := by
  rw [List.nodup_iff_count_le_one]
  intro key
  by_cases hkey : key ∈ members.map Prod.fst
  · obtain ⟨m, hm, rfl⟩ := List.mem_map.mp hkey
    obtain ⟨id, hid, hdigits⟩ := h.others m hm
    have hone := congrArg List.length (h.each id hid)
    rw [← hdigits] at hone
    have hsame : ((· == m.1) ∘ Prod.fst : Bytes × Document → Bool) =
        fun m' : Bytes × Document => decide (m'.1 = m.1) := by
      ext m'
      rw [Bool.eq_iff_iff, decide_eq_true_iff]
      exact beq_iff_eq
    rw [List.count_eq_countP, List.countP_map, List.countP_eq_length_filter, hsame, hone]
    split
    · exact Nat.le_refl _
    · exact Nat.zero_le _
  · rw [List.count_eq_zero_of_not_mem hkey]
    exact Nat.zero_le _

/-- All values of the samples are numbers. -/
theorem DescribesSamples.distinctKeys {stored : StackId → Option Stack} {execution : Execution}
    {members : List (Bytes × Document)} (h : DescribesSamples stored execution members) :
    Json.DistinctKeys (.dict members) := by
  refine .dict h.nodup_keys ?_
  intro m hm
  obtain ⟨id, hid, hdigits⟩ := h.others m hm
  have hfilter : m ∈ members.filter fun m => m.1 = decimalDigits id.toNat :=
    List.mem_filter.mpr ⟨hm, by simpa using hdigits⟩
  rw [h.each id hid] at hfilter
  split at hfilter
  · rw [List.mem_singleton.mp hfilter]
    exact .number _
  · cases hfilter

theorem DescribesExecution.distinctKeys {stored : StackId → Option Stack} {execution : Execution}
    {document : Document} (h : DescribesExecution stored execution document) :
    document.DistinctKeys := by
  obtain ⟨members, rfl, hsamples⟩ := h
  have hmetrics : (execution.metrics.entries.map fun metric => (metricMember metric).1).Nodup := by
    apply List.pairwise_map.mpr
    apply (List.pairwise_map.mp execution.metrics.nodup).imp
    intro a b hne hkey
    exact hne (metricKey_injective hkey)
  refine .dict ?_ ?_
  · rw [List.map_append, List.map_map]
    apply hmetrics.append (List.nodup_singleton _)
    intro key hkey hsame
    obtain ⟨metric, -, rfl⟩ := List.mem_map.mp hkey
    exact metricKey_ne_samples metric (List.mem_singleton.mp hsame)
  · intro m hm
    rcases List.mem_append.mp hm with hm | hm
    · obtain ⟨metric, -, rfl⟩ := List.mem_map.mp hm
      rw [metricMember]
      split
      · exact .number _
      · exact .number _
    · rw [List.mem_singleton.mp hm]
      exact hsamples.distinctKeys

theorem exists_of_mem_right {α β : Type} {R : α → β → Prop} {as : List α} {bs : List β}
    (h : List.Forall₂ R as bs) {b : β} (hb : b ∈ bs) : ∃ a ∈ as, R a b := by
  induction h with
  | nil => cases hb
  | @cons a b' as bs hab _ ih =>
      rcases List.mem_cons.mp hb with rfl | hb
      · exact ⟨a, List.mem_cons_self, hab⟩
      · obtain ⟨a', ha', hab'⟩ := ih hb
        exact ⟨a', List.mem_cons_of_mem _ ha', hab'⟩

theorem DescribesStacks.distinctKeys {t : Tables} {executions : List Execution}
    {entries : List (StackId × Stack)} {members : List (Bytes × Document)}
    (h : DescribesStacks t executions entries members) : Json.DistinctKeys (.dict members) := by
  have hkeys : members.map Prod.fst = entries.map fun entry => decimalDigits entry.1.toNat := by
    have hall := h.members
    clear h
    induction hall with
    | nil => rfl
    | cons hmember _ ih =>
        obtain ⟨function, -, rfl⟩ := hmember
        rw [List.map_cons, List.map_cons, ih]
        rfl
  refine .dict ?_ ?_
  · rw [hkeys]
    apply List.pairwise_map.mpr
    apply h.ordered.imp
    intro a b hlt hkey
    have hsame := decimalDigits_id_injective hkey
    rw [hsame] at hlt
    exact UInt32.lt_irrefl _ hlt
  · intro m hm
    obtain ⟨entry, -, function, -, rfl⟩ := exists_of_mem_right h.members hm
    have hfields : [str "b", str "f"].Nodup := by decide
    refine .dict hfields ?_
    simp only [List.forall_mem_cons, List.not_mem_nil, false_implies, implies_true, and_true]
    exact ⟨.number _, .string function⟩

/-! ### The whole report -/

/-- What the enumeration gives, unless it divides by zero. -/
theorem enumerateExecutionsDesired_strides {t : Tables} {name : Bytes}
    (hfits : (t.addName name).Fits) {db : Database} (hdb : Represents db t)
    (sizes : ApproximateSizes) (numDesired : UInt64) :
    ∃ mid, Represents mid (t.addName name) ∧
      (numSkip sizes mid.store ((t.addName name).nameId name) numDesired = none →
        (enumerateExecutionsDesired sizes name numDesired).runOn db = (.ok none, mid)) ∧
      ∀ k, numSkip sizes mid.store ((t.addName name).nameId name) numDesired = some k →
        ∃ db', Represents db' (t.addName name) ∧
          (enumerateExecutionsDesired sizes name numDesired).runOn db =
            (.ok (some (Strides.stride (max 1 k.toNat) ((t.addName name).enumerate name))), db') := by
  obtain ⟨mid, hadd, hmid⟩ := addFunctionName_does hfits db hdb
  have hname : name ∈ (t.addName name).nameTable := Tables.mem_addName.mpr (Or.inr rfl)
  refine ⟨mid, hmid, ?_⟩
  rw [enumerateExecutionsDesired, addString, DbM.runOn_bind_ok hadd, DbM.runOn_get_bind]
  refine ⟨fun hskip => ?_, fun k hskip => ?_⟩
  · rw [hskip]
    rfl
  · have hrecords : visitedRecords (endKey ((t.addName name).nameId name)) k.toNat
        (mid.store.seek (startKey ((t.addName name).nameId name))) =
          (Strides.stride (max 1 k.toNat) ((t.addName name).enumerate name)).map fun e =>
            (Key.execution ((t.addName name).nameId name) e.startTs,
              (t.addName name).record e) := by
      have hscan := hmid.scan_eq hname
      rw [visitedRecords_seek, ← Strides.map_stride, ← Strides.map_stride,
        ← scan_eq_executionRecords, ← hscan]
      rfl
    have hmem : ∀ e ∈ Strides.stride (max 1 k.toNat) ((t.addName name).enumerate name),
        e ∈ (t.addName name).executions := by
      intro e he
      obtain ⟨j, -, hj⟩ := List.mem_filterMap.mp he
      exact (Tables.executionAt_mem (Tables.mem_enumerate.mp (List.mem_of_getElem? hj))).1
    obtain ⟨db', hread, hdb'⟩ := readExecutions_does hfits _ _ hmem mid hmid
    refine ⟨db', hdb', ?_⟩
    simp only [hskip, hrecords]
    rw [DbM.runOn_bind_ok hread]
    rfl

/-- What the enumeration gives are executions that were added under the name. -/
theorem enumerateExecutionsDesired_reads {t : Tables} {name : Bytes}
    (hfits : (t.addName name).Fits) {db db' : Database} (hdb : Represents db t)
    {sizes : ApproximateSizes} {numDesired : UInt64} {executions : List Execution}
    (hrun : (enumerateExecutionsDesired sizes name numDesired).runOn db =
      (.ok (some executions), db')) :
    Represents db' (t.addName name) ∧ ∀ e ∈ executions, e ∈ t.executions ∧ e.name = name := by
  obtain ⟨mid, -, hnone, hsome⟩ := enumerateExecutionsDesired_strides hfits hdb sizes numDesired
  cases hskip : numSkip sizes mid.store ((t.addName name).nameId name) numDesired with
  | none =>
      rw [hnone hskip] at hrun
      cases hrun
  | some k =>
      obtain ⟨db₁, hdb₁, hread⟩ := hsome k hskip
      rw [hread] at hrun
      cases hrun
      refine ⟨hdb₁, fun e he => ?_⟩
      obtain ⟨j, -, hj⟩ := List.mem_filterMap.mp he
      have hat := Tables.executionAt_mem (Tables.mem_enumerate.mp (List.mem_of_getElem? hj))
      exact ⟨hat.1, hat.2.1⟩

/-- With an execution of the name, the enumeration gives some. -/
theorem enumerateExecutionsDesired_returns {t : Tables} {name : Bytes}
    (hfits : (t.addName name).Fits) {db : Database} (hdb : Represents db t)
    (sizes : ApproximateSizes) (numDesired : UInt64) {e : Execution} (he : e ∈ t.executions)
    (hname : e.name = name) :
    ∃ executions db', executions ≠ [] ∧
      (enumerateExecutionsDesired sizes name numDesired).runOn db =
        (.ok (some executions), db') := by
  obtain ⟨mid, hmid, -, hsome⟩ := enumerateExecutionsDesired_strides hfits hdb sizes numDesired
  have hinterned : name ∈ (t.addName name).nameTable := Tables.mem_addName.mpr (Or.inr rfl)
  have henumerated : (t.addName name).enumerate name ≠ [] := by
    have hat : ((t.addName name).executionAt name e.startTs).isSome = true :=
      List.find?_isSome.mpr ⟨e, he, by simpa using hname⟩
    obtain ⟨e', he'⟩ := Option.isSome_iff_exists.mp hat
    have hstart := (Tables.executionAt_mem he').2.2
    exact List.ne_nil_of_mem (Tables.mem_enumerate.mpr (hstart.symm ▸ he'))
  have hrecords : mid.store.executionRecords ((t.addName name).nameId name) ≠ [] := by
    intro hnone
    have hscan := hmid.scan_eq hinterned
    have hscan' := scan_eq_executionRecords mid.store ((t.addName name).nameId name)
    rw [hnone, List.map_nil] at hscan'
    exact henumerated (List.map_eq_nil_iff.mp (hscan.symm.trans hscan'))
  obtain ⟨k, hskip⟩ := exists_numSkip_of_records sizes numDesired hrecords
  obtain ⟨db', -, hread⟩ := hsome k hskip
  refine ⟨_, db', ?_, hread⟩
  exact Strides.stride_ne_nil (Nat.lt_of_lt_of_le Nat.zero_lt_one (Nat.le_max_left _ _)) henumerated

theorem describesStacks_entries {t : Tables} (hwf : t.WellFormed) {maps : StackMaps}
    (hlinked : Linked t.stackAt maps []) {executions : List Execution}
    (hneeded : ∀ id, (maps.stacksMap id).isSome = true ↔ Needed t.stackAt executions id)
    {members : List (Bytes × Document)}
    (hmembers : List.Forall₂ (DescribesStack t) maps.entries members) :
    DescribesStacks t executions maps.entries members := by
  have hmem : ∀ id stack, (id, stack) ∈ maps.entries ↔
      t.stackAt id = some stack ∧ Needed t.stackAt executions id := by
    intro id stack
    rw [mem_entries, ← hneeded]
    constructor
    · intro hstack
      exact ⟨(hlinked.stored id stack hstack).2, by rw [hstack]; rfl⟩
    · rintro ⟨hstored, hsome⟩
      obtain ⟨stack', hstack'⟩ := Option.isSome_iff_exists.mp hsome
      rw [(hlinked.stored id stack' hstack').2] at hstored
      rw [hstack', hstored]
  refine ⟨entries_ordered maps, hmem, ?_, hmembers⟩
  rintro ⟨id, stack⟩ hentry
  by_cases hbottom : stack.bottom = kEmptyStackId
  · exact Or.inl hbottom
  · obtain ⟨hstack, hid⟩ := (hmem id stack).mp hentry
    obtain ⟨below, hbelow⟩ := (hwf.known_bottom hstack).resolve_left hbottom
    exact Or.inr ⟨below, (hmem _ below).mpr ⟨hbelow, needed_bottom hwf hstack hid hbottom⟩⟩

/-- The text is that of a tree that has all the executions, with their samples, and the stacks
that these need. No dictionary of it has a key twice. -/
def Describes (t : Tables) (executions : List Execution) (out : Bytes) : Prop :=
  ∃ documents entries members,
    out = Document.text (.dict [(str "executions", .array documents),
      (str "stacks", .dict members)]) ∧
    List.Forall₂ (DescribesExecution t.stackAt) executions documents ∧
    DescribesStacks t executions entries members ∧
    Json.DistinctKeys (.dict [(str "executions", .array documents),
      (str "stacks", Json.dict members)])

/-- The report of `name` is written in full, and describes the executions. -/
def Reports (db : Database) (sizes : ApproximateSizes) (rounds : ℕ) (name : Bytes) (t : Tables)
    (executions : List Execution) : Prop :=
  ∃ calls db' writer,
    (TibeeReport.run sizes rounds name).runOn db = (.ok (some calls), db') ∧
      JsonWriter.Writes calls .opened writer ∧ Describes t executions writer.out

theorem reports_of_reads {t : Tables} (hwf : t.WellFormed) {name : Bytes}
    (hfits : (t.addName name).Fits) {db db₁ : Database} (hdb : Represents db t)
    (hreportable : ∀ e ∈ t.executions, e.name = name → IsReportable t e)
    {sizes : ApproximateSizes} {rounds : ℕ} (hrounds : 2 ^ 64 ≤ rounds)
    {executions : List Execution}
    (hread : (enumerateExecutionsDesired sizes name kNumDesiredExecutions).runOn db =
      (.ok (some executions), db₁)) :
    Reports db sizes rounds name (t.addName name) executions := by
  have hwf' := hwf.addName name
  obtain ⟨hdb₁, hmem⟩ := enumerateExecutionsDesired_reads hfits hdb hread
  have hreportable' : ∀ e ∈ executions, IsReportable (t.addName name) e := by
    intro e he
    have hadded := hreportable e (hmem e he).1 (hmem e he).2
    exact ⟨hadded.known, hadded.total⟩
  obtain ⟨maps, writtens, db₂, heach, hdb₂, hlinked, hwrites, hneeded⟩ :=
    writeEach_needed hwf' hdb₁ linked_empty hreportable' hrounds
  obtain ⟨hcalls, hdescribes⟩ := elementsCalls_executions hwrites
  have hentries : ∀ entry ∈ maps.entries, (t.addName name).stackAt entry.1 = some entry.2 :=
    fun entry hentry => (hlinked.stored _ _ (mem_entries.mp hentry)).2
  obtain ⟨members, hmembers, hdoes⟩ := writeStackEntries_does hwf' hentries
  obtain ⟨db', hstacks, -⟩ := hdoes db₂ hdb₂
  have hstacks' := describesStacks_entries hwf' hlinked (fun id => by simpa using hneeded id)
    hmembers
  let documents := List.zipWith executionDocument executions writtens
  have hkeys : [str "executions", str "stacks"].Nodup := by decide
  have hdocuments : ∀ document ∈ documents, document.DistinctKeys := by
    intro document hdocument
    obtain ⟨execution, -, hdescribed⟩ := exists_of_mem_right hdescribes hdocument
    exact hdescribed.distinctKeys
  let report : List (Bytes × Document) :=
    [(str "executions", .array documents), (str "stacks", .dict members)]
  have hreport : elementCalls (.dict report) =
      [Call.beginDict] ++ ([Call.keyArrayValue (str "executions")] ++ elementsCalls documents ++
        [Call.endArray]) ++ ([Call.keyDictValue (str "stacks")] ++ membersCalls members ++
        [Call.endDict]) ++ [Call.endDict] := by
    rw [elementCalls, membersCalls, membersCalls, membersCalls, memberCalls, memberCalls]
    simp
  refine ⟨elementCalls (.dict report), db', JsonWriter.holding (.dict report), ?_,
    JsonWriter.writes_dict report, documents, maps.entries, members, rfl, hdescribes, hstacks',
    .dict hkeys ?_⟩
  · rw [TibeeReport.run, DbM.runOn_bind_ok hread]
    dsimp only
    rw [DbM.runOn_bind_ok heach]
    dsimp only
    rw [writeStacks, bind_assoc, DbM.runOn_bind_ok hstacks, hreport, hcalls]
    rfl
  · simp only [List.forall_mem_cons, List.not_mem_nil, false_implies, implies_true, and_true]
    exact ⟨.array hdocuments, hstacks'.distinctKeys⟩

/-- After any history, once the database is opened again, the executions that were read under a
name are among those that were added under it, and their report is written in full. -/
theorem run_describes {history : List Op} (hwf : (tables history).WellFormed) {name : Bytes}
    (hfits : ((tables history).addName name).Fits)
    (hreportable : ∀ e ∈ (tables history).executions, e.name = name →
      IsReportable (tables history) e)
    {sizes : ApproximateSizes} {rounds : ℕ} (hrounds : 2 ^ 64 ≤ rounds)
    {executions : List Execution} {db₁ : Database}
    (hread : (enumerateExecutionsDesired sizes name kNumDesiredExecutions).runOn
      (Db.reopen (after history)) = (.ok (some executions), db₁)) :
    (∀ e ∈ executions, e ∈ history.filterMap Op.execution? ∧ e.name = name) ∧
      Reports (Db.reopen (after history)) sizes rounds name ((tables history).addName name)
        executions := by
  have hdb := (represents_after hfits.of_addName).reopen
  refine ⟨fun e he => ?_, reports_of_reads hwf hfits hdb hreportable hrounds hread⟩
  have hmem := (enumerateExecutionsDesired_reads hfits hdb hread).2 e he
  rw [executions_tables, List.mem_reverse] at hmem
  exact hmem

/-! ### A report of one run -/

theorem wellFormed_twoStacks : (tables twoStacks).WellFormed := by
  have hname : ∃ name, (({} : Tables).addName (str "f")).nameAt 1 = some name :=
    ⟨str "f", by decide +kernel⟩
  have hname' : ∃ name, ((({} : Tables).addName (str "f")).addStack ⟨1, 0⟩).nameAt 1 = some name :=
    ⟨str "f", by decide +kernel⟩
  have hbelow : Known ((({} : Tables).addName (str "f")).addStack ⟨1, 0⟩).stackAt 1 :=
    Tables.known_iff.mpr (by decide +kernel)
  exact ((Tables.wellFormed_empty.addName (str "f")).addStack hname (Or.inl rfl)).addStack hname'
    hbelow

/-- A run of three milliseconds. -/
def threeMilliseconds : Execution :=
  { (({} : Execution).incrementSample 2 1000000).incrementSample 1 2000000 with
    name := str "run", trace := str "trace", startTs := 10, endTs := 3000010 }

def oneRun : List Op := twoStacks ++ [Op.addExecution threeMilliseconds]

theorem run_describes_oneRun : ∃ executions, executions.length = 1 ∧
    Reports (Db.reopen (after oneRun)) (fun _ _ _ => 0) (2 ^ 64) (str "run")
      ((tables oneRun).addName (str "run")) executions := by
  have hfits : ((tables oneRun).addName (str "run")).Fits := ⟨by decide +kernel, by decide +kernel⟩
  have hwf : (tables oneRun).WellFormed :=
    wellFormed_twoStacks.of_grows (grows_apply _ (.addExecution threeMilliseconds)) rfl
  have hreportable : ∀ e ∈ (tables oneRun).executions, e.name = str "run" →
      IsReportable (tables oneRun) e := by
    have hknown : ∀ e ∈ (tables oneRun).executions,
        ∀ id ∈ e.samples.entries.map fun entry => entry.1.toNat,
          id ≤ (tables oneRun).stackTable.length := by decide +kernel
    have htotal : ∀ e ∈ (tables oneRun).executions,
        (e.samples.entries.map fun entry => entry.2.toNat).sum < 2 ^ 64 := by decide +kernel
    intro e he _
    exact ⟨fun entry hentry =>
      Tables.known_iff.mpr (hknown e he entry.1.toNat (List.mem_map_of_mem hentry)), htotal e he⟩
  have hview : ((enumerateExecutionsDesired (fun _ _ _ => 0) (str "run")
      kNumDesiredExecutions).runOn (Db.reopen (after oneRun))).1.map (Option.map List.length) =
        .ok (some 1) := by
    decide +kernel
  obtain ⟨result, db₁, hread, hlength⟩ := DbM.exists_of_view hview
  obtain ⟨executions, rfl, hone⟩ := Option.map_eq_some_iff.mp hlength
  exact ⟨executions, hone, (run_describes hwf hfits hreportable le_rfl hread).2⟩

end TibeeCompare.Report
