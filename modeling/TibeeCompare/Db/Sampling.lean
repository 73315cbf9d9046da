import TibeeCompare.Db.Interned
import TibeeCompare.Lib.Strides

/-!
`EnumerateExecutions` with a desired number of executions.

The number of records to skip is computed from two sizes that `leveldb` estimates. Its
answers may be anything, so they are an argument. An iterator is the list of the records from
its current one on; it is valid as long as the list is not empty.
-/

namespace TibeeCompare.Db

open Strides

/-- The answers of `GetApproximateSizes`, by the number of the call and the range. -/
abbrev ApproximateSizes := ℕ → Key → Key → UInt64

def startKey (executionNameId : FunctionNameId) : Key := Key.execution executionNameId 0

def endKey (executionNameId : FunctionNameId) : Key := Key.execution executionNameId (-1)

/-- An iterator after `Seek`. -/
def Store.seek (s : Store) (first : Key) : List (Key × Bytes) :=
  s.toList.dropWhile fun entry => Key.compare entry.1 first == .lt

/-- The comparison of both loops below, for a valid iterator. -/
def inRange (last : Key) (entry : Key × Bytes) : Bool := Key.compare entry.1 last != .gt

/-! ### The number of records to skip -/

/-- The loop of `ApproxExecutionSize`, which leaves the iterator at the 100th record. -/
def countExecutions (last : Key) : ℕ → List (Key × Bytes) → ℕ × List (Key × Bytes)
  | i, [] => (i, [])
  | i, entry :: rest =>
      if inRange last entry then
        let i := i + 1
        if i = 100 then (i, entry :: rest) else countExecutions last i rest
      else (i, entry :: rest)

/-- `ApproxExecutionSize`, or `none` where it divides by zero. -/
def approxExecutionSize (sizes : ApproximateSizes) (s : Store) (executionNameId : FunctionNameId) :
    Option UInt64 :=
  let (i, it) :=
    countExecutions (endKey executionNameId) 0 (s.seek (startKey executionNameId))
  match it with
  | [] => some 0
  | entry :: _ =>
      let approximativeSize := sizes 1 (startKey executionNameId) entry.1
      if approximativeSize = 0 then some 0
      else if i = 0 then none
      else some (approximativeSize / UInt64.ofNat i)

def numSkip (sizes : ApproximateSizes) (s : Store) (executionNameId : FunctionNameId)
    (numDesired : UInt64) : Option UInt64 :=
  if numDesired = 0 then some 0
  else
    let approximativeTotalSize := sizes 0 (startKey executionNameId) (endKey executionNameId)
    (approxExecutionSize sizes s executionNameId).map fun approximativeExecSize =>
      if approximativeTotalSize ≠ 0 ∧ approximativeExecSize ≠ 0 then
        let approximativeExecCount := approximativeTotalSize / approximativeExecSize
        let desiredProportion := approximativeExecCount / numDesired
        if 2 ≤ desiredProportion then desiredProportion else 0
      else 0

/-! ### The enumeration -/

/-- `Next` for each of some rounds, or `none` where the iterator is not valid any more. -/
def skipRecords : ℕ → List (Key × Bytes) → Option (List (Key × Bytes))
  | 0, it => some it
  | rounds + 1, it =>
      match it.tail with
      | [] => none
      | entry :: rest => skipRecords rounds (entry :: rest)

/-- What is left is what comes a number of records later, if there is such a record. -/
theorem skipRecords_eq (rounds : ℕ) (entry : Key × Bytes) (rest : List (Key × Bytes)) :
    skipRecords rounds (entry :: rest) =
      if rounds ≤ rest.length then some ((entry :: rest).drop rounds) else none := by
  induction rounds generalizing entry rest with
  | zero => rfl
  | succ rounds ih =>
      rw [skipRecords, List.tail_cons]
      cases rest with
      | nil => rfl
      | cons entry' rest =>
          simp only [ih, List.length_cons, Nat.add_le_add_iff_right, List.drop_succ_cons]

theorem length_skipRecords {rounds : ℕ} {entry : Key × Bytes} {rest it : List (Key × Bytes)}
    (h : skipRecords rounds (entry :: rest) = some it) :
    it.tail.length < (entry :: rest).length := by
  rw [skipRecords_eq] at h
  split at h
  · cases h
    rw [List.length_tail, List.length_drop, List.length_cons]
    omega
  · cases h

/-- The records that the loop of `EnumerateExecutions` gives to its body. -/
def visitedRecords (last : Key) (numSkip : ℕ) : List (Key × Bytes) → List (Key × Bytes)
  | [] => []
  | entry :: rest =>
      if inRange last entry then
        entry ::
          match _hskip : skipRecords (numSkip - 1) (entry :: rest) with
          | none => []
          | some it => visitedRecords last numSkip it.tail
      else []
termination_by records => records.length
decreasing_by exact length_skipRecords _hskip

/-- `EnumerateExecutions`, or `none` where it divides by zero. -/
def enumerateExecutionsDesired (sizes : ApproximateSizes) (name : Bytes) (numDesired : UInt64) :
    DbM (Option (List Execution)) := do
  let executionNameId ← addString name
  let db ← get
  match numSkip sizes db.store executionNameId numDesired with
  | none => pure none
  | some numSkip => do
      let executions ← readExecutions
        (visitedRecords (endKey executionNameId) numSkip.toNat
          (db.store.seek (startKey executionNameId)))
      pure (some executions)

/-! ### What the loop visits -/

section Loop

variable {last : Key} {k : ℕ}

theorem visitedRecords_of_inRange {entry : Key × Bytes} {rest : List (Key × Bytes)}
    (h : inRange last entry = true) :
    visitedRecords last k (entry :: rest) = entry :: visitedRecords last k (rest.drop (k - 1)) := by
  rw [visitedRecords, if_pos h]
  split
  · next hskip =>
      rw [skipRecords_eq] at hskip
      have hbehind : rest.drop (k - 1) = [] := by
        refine List.drop_eq_nil_of_le ?_
        by_contra hle
        rw [if_pos (by omega)] at hskip
        cases hskip
      rw [hbehind, visitedRecords]
  · next it hskip =>
      rw [skipRecords_eq] at hskip
      split at hskip
      · cases hskip
        rw [List.tail_drop, List.drop_succ_cons]
      · cases hskip

theorem visitedRecords_of_not_inRange {entry : Key × Bytes} {rest : List (Key × Bytes)}
    (h : ¬ inRange last entry = true) : visitedRecords last k (entry :: rest) = [] := by
  rw [visitedRecords, if_neg h]

/-- The loop visits every `k`-th record in range: the inner loop does not look at the range,
but behind a record out of range there is none in range. -/
theorem visitedRecords_eq {records : List (Key × Bytes)}
    (hordered : records.Pairwise fun a b => inRange last b = true → inRange last a = true) :
    visitedRecords last k records = stride (max 1 k) (records.takeWhile (inRange last)) := by
  have hmax : max 1 k = (k - 1) + 1 := by omega
  rw [hmax]
  -- a round goes on with what is left of the list
  induction hlength : records.length using Nat.strong_induction_on generalizing records with
  | _ length ih =>
      subst hlength
      cases records with
      | nil => rw [visitedRecords, List.takeWhile_nil, stride_nil]
      | cons entry rest =>
          by_cases h : inRange last entry = true
          · obtain ⟨-, hrest⟩ := List.pairwise_cons.mp hordered
            have hshorter : (rest.drop (k - 1)).length < (entry :: rest).length := by
              rw [List.length_drop, List.length_cons]
              omega
            rw [visitedRecords_of_inRange h, List.takeWhile_cons_of_pos h, stride_cons,
              SortedLists.drop_takeWhile hrest,
              ih _ hshorter (hrest.sublist (List.drop_sublist _ _)) rfl]
          · rw [visitedRecords_of_not_inRange h, List.takeWhile_cons_of_neg h, stride_nil]

end Loop

/-! ### The records of a name -/

/-- The start and the value of an execution that is stored under a name. -/
def recordOf? (executionNameId : FunctionNameId) (entry : Key × Bytes) : Option (UInt64 × Bytes) :=
  match entry.1 with
  | .execution id startTs => if id = executionNameId then some (startTs, entry.2) else none
  | _ => none

/-- The entry of the store with a record. -/
def entryOf (executionNameId : FunctionNameId) (record : UInt64 × Bytes) : Key × Bytes :=
  (Key.execution executionNameId record.1, record.2)

theorem entryOf_injective (executionNameId : FunctionNameId) :
    Function.Injective (entryOf executionNameId) := by
  rintro ⟨startTs, value⟩ ⟨startTs', value'⟩ h
  cases h
  rfl

/-- The executions that are stored under a name. -/
def Store.executionRecords (s : Store) (executionNameId : FunctionNameId) : List (UInt64 × Bytes) :=
  s.toList.filterMap (recordOf? executionNameId)

section Records

variable {id : FunctionNameId}

@[simp] theorem recordOf?_eq_some {entry : Key × Bytes} {record : UInt64 × Bytes} :
    recordOf? id entry = some record ↔ entryOf id record = entry := by
  rcases entry with ⟨_ | _ | _ | _ | _ | _ | ⟨id', startTs⟩, value⟩
  case execution =>
    simp only [recordOf?, entryOf, Option.ite_none_right_eq_some, Prod.ext_iff,
      Option.some.injEq, Key.execution.injEq]
    tauto
  all_goals
    simp [recordOf?, entryOf]

/-- The records in the range of the name are those of the name. -/
theorem inRange_iff (entry : Key × Bytes) :
    (Key.compare entry.1 (endKey id) != .gt && !(Key.compare entry.1 (startKey id) == .lt)) = true ↔
      ∃ record, recordOf? id entry = some record := by
  have hbetween := Key.between_iff id entry.1
  rw [Bool.and_eq_true, bne_iff_ne, Bool.not_eq_true', beq_eq_false_iff_ne, and_comm]
  refine hbetween.trans ⟨?_, ?_⟩
  · rintro ⟨timestamp, hkey⟩
    exact ⟨(timestamp, entry.2), recordOf?_eq_some.mpr (Prod.ext hkey.symm rfl)⟩
  · rintro ⟨record, hrecord⟩
    exact ⟨record.1, congrArg Prod.fst (recordOf?_eq_some.mp hrecord).symm⟩

theorem scan_eq_executionRecords (s : Store) (id : FunctionNameId) :
    s.scan (startKey id) (endKey id) = (s.executionRecords id).map (entryOf id) := by
  rw [Store.scan_eq_filter, Store.executionRecords, List.map_filterMap, ← List.filterMap_eq_filter]
  refine List.filterMap_congr fun entry _ => ?_
  rw [Option.guard_apply]
  cases hrecord : recordOf? id entry with
  | some record =>
      rw [if_pos ((inRange_iff entry).mpr ⟨record, hrecord⟩), Option.map_some,
        recordOf?_eq_some.mp hrecord]
  | none =>
      refine if_neg fun h => ?_
      obtain ⟨record, hsome⟩ := (inRange_iff entry).mp h
      rw [hrecord] at hsome
      cases hsome

theorem executionRecords_ordered (s : Store) (id : FunctionNameId) :
    (s.executionRecords id).Pairwise fun a b => a.1 < b.1 := by
  have hscan := s.scan_ordered (startKey id) (endKey id)
  rw [scan_eq_executionRecords, List.pairwise_map] at hscan
  refine hscan.imp fun {a b} hab => ?_
  rw [entryOf, entryOf, Key.compare_execution_self] at hab
  exact UInt64.lt_iff_toNat_lt.mpr (Nat.compare_eq_lt.mp hab)

theorem mem_executionRecords {s : Store} {startTs : UInt64} {value : Bytes} :
    (startTs, value) ∈ s.executionRecords id ↔
      s.get (Key.execution id startTs) = some value := by
  have hscan : ((Key.execution id startTs, value) : Key × Bytes) ∈
      s.scan (startKey id) (endKey id) ↔ (startTs, value) ∈ s.executionRecords id := by
    rw [scan_eq_executionRecords, List.mem_map]
    constructor
    · rintro ⟨record, hrecord, heq⟩
      cases heq
      exact hrecord
    · intro h
      exact ⟨_, h, rfl⟩
  rw [← hscan, Store.mem_scan]
  exact and_iff_left ((Key.between_iff id _).mpr ⟨startTs, rfl⟩)

/-- The loop visits every `k`-th record of the name. -/
theorem visitedRecords_seek (s : Store) (id : FunctionNameId) (k : ℕ) :
    visitedRecords (endKey id) k (s.seek (startKey id)) =
      (stride (max 1 k) (s.executionRecords id)).map (entryOf id) := by
  have hordered : (s.seek (startKey id)).Pairwise fun a b =>
      inRange (endKey id) b = true → inRange (endKey id) a = true :=
    (s.ordered_toList (endKey id)).sublist (List.dropWhile_sublist _)
  rw [visitedRecords_eq hordered]
  have hscan : (s.seek (startKey id)).takeWhile (inRange (endKey id)) =
      (s.executionRecords id).map (entryOf id) := scan_eq_executionRecords s id
  rw [hscan, map_stride]

end Records

/-- An enumeration with a number of records to skip reads every `k`-th record of the name, in
the order of their starts, and no other record. -/
theorem enumerateExecutionsDesired_eq (sizes : ApproximateSizes) (db : Database) (name : Bytes)
    (numDesired : UInt64) :
    ∃ id db', (addString name).runOn db = (.ok id, db') ∧
      (∀ startTs value, (startTs, value) ∈ db'.store.executionRecords id ↔
        db'.store.get (Key.execution id startTs) = some value) ∧
      ((db'.store.executionRecords id).Pairwise fun a b => a.1 < b.1) ∧
      ∀ n, numSkip sizes db'.store id numDesired = some n →
        (enumerateExecutionsDesired sizes name numDesired).runOn db =
          (do
            let executions ← readExecutions
              ((stride (max 1 n.toNat) (db'.store.executionRecords id)).map (entryOf id))
            pure (some executions)).runOn db' := by
  obtain ⟨id, db', hid⟩ : ∃ id db', (addString name).runOn db = (.ok id, db') :=
    addFunctionName_returns name db
  refine ⟨id, db', hid, fun _ _ => mem_executionRecords, executionRecords_ordered _ id, ?_⟩
  intro n hskip
  rw [enumerateExecutionsDesired, DbM.runOn_bind_ok hid, DbM.runOn_get_bind]
  simp only [hskip, visitedRecords_seek]

/-! ### Four runs, and one of another name -/

def runAt (startTs : UInt64) : Execution :=
  { name := str "run", trace := str "trace", startTs, endTs := startTs + 5 }

def fourRuns : Database :=
  [runAt 30, runAt 10, { runAt 20 with name := str "other" }, runAt 40, runAt 20].foldl
    (fun db e => ((addExecution e).runOn db).2) {}

/-- 400 bytes of 100 bytes each are two times what is desired. -/
theorem enumerateExecutionsDesired_fourRuns :
    ((enumerateExecutionsDesired (fun _ _ _ => 400) (str "run") 2).runOn fourRuns).1 =
      .ok (some [runAt 10, runAt 30]) := by
  obtain ⟨id, db', hid, -, -, h⟩ :=
    enumerateExecutionsDesired_eq (fun _ _ _ => 400) fourRuns (str "run") 2
  have hrun : (addString (str "run")).runOn fourRuns = (.ok 1, fourRuns) := rfl
  rw [hrun] at hid
  cases hid
  rw [h 2 (by decide +kernel)]
  decide +kernel

end TibeeCompare.Db
