import TibeeCompare.Db.Tables
import Mathlib.Data.List.Sort

/-!
What an enumeration delivers: of the executions with the name, for each start
the one that was added last, in the order of their starts.
-/

namespace TibeeCompare.Db

open Codecs SortedLists

namespace Tables

/-- The executions that an enumeration of a name gives to its callback. -/
def enumerate (t : Tables) (name : Bytes) : List Execution :=
  (t.executions.filter fun e => e.name = name).foldr (insertBy fun e => e.startTs.toNat) []

theorem enumerate_ordered (t : Tables) (name : Bytes) :
    (t.enumerate name).Pairwise fun a b => a.startTs.toNat < b.startTs.toNat :=
  pairwise_foldr_insertBy _

theorem mem_enumerate {t : Tables} {name : Bytes} {e : Execution} :
    e ∈ t.enumerate name ↔ t.executionAt name e.startTs = some e := by
  rw [enumerate, mem_foldr_insertBy, List.find?_filter, executionAt]
  simp only [UInt64.toNat_inj, Bool.decide_and, Bool.decide_eq_true]

theorem functionName_nameId {t : Tables} (hfits : t.Fits) {name : Bytes}
    (h : name ∈ t.nameTable) : t.functionName (t.nameId name) = .ok name := by
  rw [functionName, nameAt_nameId hfits h]

end Tables

/-! ### Records -/

/-- What is read from the record of an execution is the execution. -/
theorem readExecution_does {t : Tables} (hfits : t.Fits) {e : Execution} (he : e ∈ t.executions) :
    Does (readExecution (t.record e)) t (.ok e) t := by
  obtain ⟨hname, htrace⟩ := t.interned e he
  have hmetadata := reads_metadata (t.nameId e.name) (t.nameId e.trace) e {} []
    (writeExecutionMetricsToBuffer e ++ writeExecutionSamplesToBuffer e)
  have hmetrics := reads_metrics e
    { startTs := e.startTs, startThread := e.startThread, endTs := e.endTs,
      endThread := e.endThread, name := e.name, trace := e.trace } rfl
    (writeExecutionMetadataToBuffer (t.nameId e.name) (t.nameId e.trace) e)
    (writeExecutionSamplesToBuffer e)
  have hsamples := reads_samples e { e with samples := IdMap.empty } rfl
    (writeExecutionMetadataToBuffer (t.nameId e.name) (t.nameId e.trace) e ++
      writeExecutionMetricsToBuffer e) []
  simp only [List.nil_append, List.append_nil, List.append_assoc, List.length_nil,
    List.length_append, Nat.zero_add] at hmetadata hmetrics hsamples
  have hrecord : t.record e =
      writeExecutionMetadataToBuffer (t.nameId e.name) (t.nameId e.trace) e ++
        (writeExecutionMetricsToBuffer e ++ writeExecutionSamplesToBuffer e) := rfl
  rw [readExecution, hrecord, hmetadata]
  have hgetName := getFunctionName_does t (t.nameId e.name)
  have hgetTrace := getFunctionName_does t (t.nameId e.trace)
  rw [Tables.functionName_nameId hfits hname] at hgetName
  rw [Tables.functionName_nameId hfits htrace] at hgetTrace
  refine Does.bind hgetName (Does.bind hgetTrace ?_)
  rw [hmetrics]
  simp only
  rw [hsamples]
  exact Does.pure t e

theorem readExecutions_does {t : Tables} (hfits : t.Fits) (id : FunctionNameId) :
    ∀ list : List Execution, (∀ e ∈ list, e ∈ t.executions) →
      Does (readExecutions (list.map fun e => (Key.execution id e.startTs, t.record e))) t
        (.ok list) t
  | [], _ => Does.pure t []
  | e :: list, h =>
      (readExecution_does hfits (h e List.mem_cons_self)).bind <|
        (readExecutions_does hfits id list fun e' he' => h e' (List.mem_cons_of_mem _ he')).bind <|
          Does.pure t _

/-- The records that the iterator passes are those of the executions that the
tables enumerate. -/
theorem Represents.scan_eq {db : Database} {t : Tables} (h : Represents db t) {name : Bytes}
    (hname : name ∈ t.nameTable) :
    db.store.scan (Key.execution (t.nameId name) 0) (Key.execution (t.nameId name) (-1)) =
      (t.enumerate name).map fun e => (Key.execution (t.nameId name) e.startTs, t.record e) := by
  have hbefore : ((t.enumerate name).map fun e =>
      (Key.execution (t.nameId name) e.startTs, t.record e)).Pairwise
        fun a b => Key.compare a.1 b.1 = .lt := by
    refine List.pairwise_map.mpr ((t.enumerate_ordered name).imp fun {a b} hab => ?_)
    rw [Key.compare_execution_self]
    exact Nat.compare_eq_lt.mpr hab
  have : Std.Asymm fun a b : Key × Bytes => Key.compare a.1 b.1 = .lt := by
    refine ⟨fun a b hab hba => ?_⟩
    have hself : Key.compare a.1 a.1 = .lt := Std.TransCmp.lt_trans hab hba
    have hrefl : Key.compare a.1 a.1 = .eq := Std.ReflCmp.compare_self
    rw [hrefl] at hself
    cases hself
  refine (Store.scan_ordered _ _ _).eq_of_mem_iff hbefore ?_
  rintro ⟨key, value⟩
  have hlookup : ∀ timestamp, t.lookup (.execution (t.nameId name) timestamp) =
      (t.executionAt name timestamp).map t.record := by
    intro timestamp
    rw [Tables.lookup, Tables.nameAt_nameId h.fits hname]
    rfl
  rw [Store.mem_scan, Key.between_iff, h.store]
  simp only [List.mem_map, Tables.mem_enumerate, Prod.mk.injEq]
  constructor
  · rintro ⟨hvalue, timestamp, rfl⟩
    rw [hlookup, Option.map_eq_some_iff] at hvalue
    obtain ⟨e, he, rfl⟩ := hvalue
    obtain ⟨-, -, rfl⟩ := Tables.executionAt_mem he
    exact ⟨e, he, rfl, rfl⟩
  · rintro ⟨e, he, rfl, rfl⟩
    exact ⟨by rw [hlookup, he]; rfl, e.startTs, rfl⟩

theorem enumerateExecutions_does {t : Tables} {name : Bytes} (hfits : (t.addName name).Fits) :
    Does (enumerateExecutions name) t (.ok ((t.addName name).enumerate name)) (t.addName name) := by
  refine Does.bind (addFunctionName_does hfits) ?_
  intro db h
  rw [DbM.runOn_get_bind, h.scan_eq (by simp)]
  refine readExecutions_does hfits _ _ ?_ db h
  intro e he
  exact (Tables.executionAt_mem (Tables.mem_enumerate.mp he)).1

end TibeeCompare.Db
