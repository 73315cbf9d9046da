import TibeeCompare.Db.Sampling

/-!
What an estimate of the sizes does to an enumeration.

The size of an execution is not to be estimated where there are fewer than 100 of them. But
the loop that counts them also ends at a record of another name, and then the guard behind
it does not see that the count is too small, not even that it is zero.
-/

namespace TibeeCompare.Db

open Strides

variable {s : Store} {id : FunctionNameId}

/-! ### The count -/

/-- The first record behind those of a name. -/
def Store.recordBehind (s : Store) (executionNameId : FunctionNameId) : Option (Key × Bytes) :=
  s.toList.find? fun entry => Key.compare entry.1 (endKey executionNameId) == .gt

theorem countExecutions_of_lt {last : Key} {i : ℕ} {it : List (Key × Bytes)}
    (h : i + (it.takeWhile (inRange last)).length < 100) :
    countExecutions last i it =
      (i + (it.takeWhile (inRange last)).length, it.dropWhile (inRange last)) := by
  induction it generalizing i with
  | nil => rfl
  | cons entry rest ih =>
      by_cases hrange : inRange last entry = true
      · rw [List.takeWhile_cons_of_pos hrange, List.length_cons] at h ⊢
        have hnext : i + 1 ≠ 100 := by omega
        rw [countExecutions, if_pos hrange, List.dropWhile_cons_of_pos hrange]
        simp only [if_neg hnext]
        rw [ih (by omega)]
        exact Prod.ext (by dsimp only; omega) rfl
      · rw [countExecutions, if_neg hrange, List.takeWhile_cons_of_neg hrange,
          List.dropWhile_cons_of_neg hrange]
        rfl

/-- From 100 records on, the loop breaks with a valid iterator. -/
theorem countExecutions_of_le {last : Key} {i : ℕ} {it : List (Key × Bytes)} (hi : i < 100)
    (h : 100 ≤ i + (it.takeWhile (inRange last)).length) :
    ∃ entry rest, countExecutions last i it = (100, entry :: rest) := by
  induction it generalizing i with
  | nil =>
      rw [List.takeWhile_nil, List.length_nil] at h
      omega
  | cons entry rest ih =>
      by_cases hrange : inRange last entry = true
      · rw [List.takeWhile_cons_of_pos hrange, List.length_cons] at h
        rw [countExecutions, if_pos hrange]
        by_cases hnext : i + 1 = 100
        · exact ⟨entry, rest, by simp only [hnext, if_true]⟩
        · simp only [if_neg hnext]
          exact ih (by omega) (by omega)
      · rw [List.takeWhile_cons_of_neg hrange, List.length_nil] at h
        omega

theorem takeWhile_seek (s : Store) (id : FunctionNameId) :
    (s.seek (startKey id)).takeWhile (inRange (endKey id)) =
      (s.executionRecords id).map (entryOf id) :=
  scan_eq_executionRecords s id

theorem head?_dropWhile_seek (s : Store) (id : FunctionNameId) :
    ((s.seek (startKey id)).dropWhile (inRange (endKey id))).head? = s.recordBehind id := by
  -- records in front of the range are not behind it
  have hbefore : ∀ entry : Key × Bytes, (Key.compare entry.1 (startKey id) == .lt) = true →
      ¬ (!inRange (endKey id) entry) = true := by
    intro entry hlt hbehind
    rw [beq_iff_eq] at hlt
    have hgt : Key.compare entry.1 (endKey id) = .gt := by simpa [inRange] using hbehind
    have hrange : Key.compare (startKey id) (endKey id) ≠ .gt :=
      ((Key.between_iff id (startKey id)).mpr ⟨0, rfl⟩).2
    have hle := Std.TransCmp.isLE_trans (Ordering.isLE_of_eq_lt hlt)
      (Ordering.ne_gt_iff_isLE.mp hrange)
    rw [hgt] at hle
    cases hle
  have hnone : (s.toList.takeWhile fun entry => Key.compare entry.1 (startKey id) == .lt).find?
      (fun entry => !inRange (endKey id) entry) = none := by
    refine List.find?_eq_none.mpr fun entry hentry => hbefore entry ?_
    exact List.mem_takeWhile_imp
      (p := fun entry : Key × Bytes => Key.compare entry.1 (startKey id) == .lt) hentry
  have hsplit := List.takeWhile_append_dropWhile
    (p := fun entry : Key × Bytes => Key.compare entry.1 (startKey id) == .lt) (l := s.toList)
  have hbehind : s.recordBehind id = s.toList.find? fun entry => !inRange (endKey id) entry := by
    rw [Store.recordBehind]
    congr 1
    funext entry
    simp [inRange, bne]
  rw [hbehind, ← hsplit, List.find?_append, hnone, Option.none_or,
    List.find?_not_eq_head?_dropWhile, Store.seek]

theorem length_takeWhile_seek (s : Store) (id : FunctionNameId) :
    ((s.seek (startKey id)).takeWhile (inRange (endKey id))).length =
      (s.executionRecords id).length := by
  rw [takeWhile_seek, List.length_map]

variable (sizes : ApproximateSizes)

/-- Below 100 records the loop ends behind all of them. -/
theorem approxExecutionSize_of_lt (h : (s.executionRecords id).length < 100) :
    approxExecutionSize sizes s id =
      match s.recordBehind id with
      | none => some 0
      | some behind =>
          if sizes 1 (startKey id) behind.1 = 0 then some 0
          else if (s.executionRecords id).length = 0 then none
          else some (sizes 1 (startKey id) behind.1 /
            UInt64.ofNat (s.executionRecords id).length) := by
  rw [← length_takeWhile_seek, ← Nat.zero_add (List.length _)] at h
  rw [approxExecutionSize, countExecutions_of_lt h, Nat.zero_add, length_takeWhile_seek,
    ← head?_dropWhile_seek]
  cases (s.seek (startKey id)).dropWhile (inRange (endKey id)) <;> rfl

theorem approxExecutionSize_of_le (h : 100 ≤ (s.executionRecords id).length) :
    ∃ size, approxExecutionSize sizes s id = some size := by
  rw [← length_takeWhile_seek, ← Nat.zero_add (List.length _)] at h
  obtain ⟨entry, rest, hcount⟩ := countExecutions_of_le (Nat.zero_lt_succ 99) h
  rw [approxExecutionSize, hcount]
  by_cases hsize : sizes 1 (startKey id) entry.1 = 0
  · exact ⟨0, by simp only [hsize, if_true]⟩
  · exact ⟨_, by simp only [hsize, if_false]; rfl⟩

/-! ### The skip -/

/-- With an execution there is no division by zero. -/
theorem exists_numSkip_of_records (numDesired : UInt64) (h : s.executionRecords id ≠ []) :
    ∃ n, numSkip sizes s id numDesired = some n := by
  have hcount : (s.executionRecords id).length ≠ 0 := mt List.length_eq_zero_iff.mp h
  have hsize : ∃ size, approxExecutionSize sizes s id = some size := by
    by_cases hle : 100 ≤ (s.executionRecords id).length
    · exact approxExecutionSize_of_le sizes hle
    · rw [approxExecutionSize_of_lt sizes (Nat.not_le.mp hle)]
      split
      · exact ⟨0, rfl⟩
      · split
        · exact ⟨0, rfl⟩
        · exact ⟨_, rfl⟩
  obtain ⟨size, hsize⟩ := hsize
  rw [numSkip, hsize]
  split
  · exact ⟨0, rfl⟩
  · exact ⟨_, rfl⟩

variable {sizes}

theorem two_le_div_iff (total : UInt64) {size desired : UInt64} (hsize : size ≠ 0)
    (hdesired : desired ≠ 0) :
    2 ≤ total / size / desired ↔ 2 * desired.toNat * size.toNat ≤ total.toNat := by
  have hsize' : 0 < size.toNat :=
    Nat.pos_of_ne_zero fun h => hsize (UInt64.toNat_inj.mp h)
  have hdesired' : 0 < desired.toNat :=
    Nat.pos_of_ne_zero fun h => hdesired (UInt64.toNat_inj.mp h)
  rw [UInt64.le_iff_toNat_le, UInt64.toNat_div, UInt64.toNat_div,
    Nat.le_div_iff_mul_le hdesired', Nat.le_div_iff_mul_le hsize']
  rfl

/-- What the number of records to skip is for an estimate, and when none is skipped. -/
theorem exists_numSkip {numDesired size : UInt64} (hdesired : numDesired ≠ 0)
    (hsize : approxExecutionSize sizes s id = some size) :
    ∃ n, numSkip sizes s id numDesired = some n ∧
      (max 1 n.toNat = 1 ↔ size = 0 ∨
        (sizes 0 (startKey id) (endKey id)).toNat < 2 * numDesired.toNat * size.toNat) := by
  rw [numSkip, if_neg hdesired, hsize, Option.map_some]
  refine ⟨_, rfl, ?_⟩
  by_cases hsizes : sizes 0 (startKey id) (endKey id) ≠ 0 ∧ size ≠ 0
  · have hdiv := two_le_div_iff (sizes 0 (startKey id) (endKey id)) hsizes.2 hdesired
    rw [if_pos hsizes, or_iff_right hsizes.2, ← Nat.not_le, ← hdiv]
    by_cases hskip : 2 ≤ sizes 0 (startKey id) (endKey id) / size / numDesired
    · have hskip' : 2 ≤ (sizes 0 (startKey id) (endKey id) / size / numDesired).toNat :=
        UInt64.le_iff_toNat_le.mp hskip
      simp only [hskip, if_true, not_true_eq_false, iff_false]
      omega
    · simp only [hskip, if_false, not_false_eq_true, iff_true]
      rfl
  · rw [if_neg hsizes]
    refine iff_of_true rfl ?_
    by_cases hzero : size = 0
    · exact Or.inl hzero
    · have htotal : sizes 0 (startKey id) (endKey id) = 0 := by
        by_contra htotal
        exact hsizes ⟨htotal, hzero⟩
      have hsize' : 0 < size.toNat := Nat.pos_of_ne_zero fun h => hzero (UInt64.toNat_inj.mp h)
      have hdesired' : 0 < numDesired.toNat :=
        Nat.pos_of_ne_zero fun h => hdesired (UInt64.toNat_inj.mp h)
      rw [htotal]
      exact Or.inr (Nat.mul_pos (Nat.mul_pos Nat.zero_lt_two hdesired') hsize')

/-- There is no division by zero, and fewer than 100 executions are all delivered. -/
def DeliversFew (sizes : ApproximateSizes) (s : Store) (id : FunctionNameId) (numDesired : UInt64) :
    Prop :=
  ∃ n, numSkip sizes s id numDesired = some n ∧
    ((s.executionRecords id).length < 100 →
      visitedRecords (endKey id) n.toNat (s.seek (startKey id)) =
        (s.executionRecords id).map (entryOf id))

/-- There are at least 100 executions, or no record behind them, or just one execution. Else the
size up to the record behind them is estimated to be less than one byte for each of them,
or large enough in comparison with the total size; and without an execution it is
estimated to be zero. -/
def EstimatesFit (sizes : ApproximateSizes) (s : Store) (id : FunctionNameId)
    (numDesired : UInt64) : Prop :=
  let count := (s.executionRecords id).length
  100 ≤ count ∨ count = 1 ∨ ∀ behind, s.recordBehind id = some behind →
    let size := (sizes 1 (startKey id) behind.1).toNat
    let totalSize := (sizes 0 (startKey id) (endKey id)).toNat
    if count = 0 then size = 0
    else size < count ∨ totalSize < 2 * numDesired.toNat * (size / count)

/-- Every `k`-th record is every record. -/
theorem visitedRecords_eq_all_iff (n : UInt64) :
    visitedRecords (endKey id) n.toNat (s.seek (startKey id)) =
        (s.executionRecords id).map (entryOf id) ↔
      max 1 n.toNat = 1 ∨ (s.executionRecords id).length ≤ 1 := by
  rw [visitedRecords_seek, (List.map_injective_iff.mpr (entryOf_injective id)).eq_iff,
    stride_eq_self_iff (Nat.lt_of_lt_of_le Nat.zero_lt_one (Nat.le_max_left _ _))]

theorem deliversFew_of_le {numDesired : UInt64} (hdesired : numDesired ≠ 0)
    (h : 100 ≤ (s.executionRecords id).length) : DeliversFew sizes s id numDesired := by
  obtain ⟨size, hsize⟩ := approxExecutionSize_of_le sizes h
  obtain ⟨n, hskip, -⟩ := exists_numSkip hdesired hsize
  exact ⟨n, hskip, fun hlt => absurd hlt (Nat.not_lt.mpr h)⟩

/-- An estimated size of zero is one of an empty range, or of less than one byte for each
execution. -/
theorem deliversFew_iff_of_size {numDesired size : UInt64} (hdesired : numDesired ≠ 0)
    (hlt : (s.executionRecords id).length < 100)
    (hsize : approxExecutionSize sizes s id = some size) :
    DeliversFew sizes s id numDesired ↔ (s.executionRecords id).length ≤ 1 ∨ size = 0 ∨
      (sizes 0 (startKey id) (endKey id)).toNat < 2 * numDesired.toNat * size.toNat := by
  obtain ⟨n, hskip, hone⟩ := exists_numSkip hdesired hsize
  rw [← hone, or_comm, ← visitedRecords_eq_all_iff]
  constructor
  · rintro ⟨n', hskip', hall⟩
    rw [hskip] at hskip'
    cases hskip'
    exact hall hlt
  · intro hall
    exact ⟨n, hskip, fun _ => hall⟩

/-- Without an execution, and with a record behind, an estimate other than zero is divided by
zero. -/
theorem not_deliversFew_of_divisionByZero {numDesired : UInt64} (hdesired : numDesired ≠ 0)
    (h : approxExecutionSize sizes s id = none) : ¬ DeliversFew sizes s id numDesired := by
  rintro ⟨n, hskip, -⟩
  rw [numSkip, if_neg hdesired, h] at hskip
  cases hskip

theorem toNat_div_ofNat {size : UInt64} {count : ℕ} (h : count < 100) :
    (size / UInt64.ofNat count).toNat = size.toNat / count := by
  rw [UInt64.toNat_div, UInt64.toNat_ofNat_of_lt' (h.trans (by decide))]

theorem deliversFew_iff {numDesired : UInt64} (hdesired : numDesired ≠ 0) :
    DeliversFew sizes s id numDesired ↔ EstimatesFit sizes s id numDesired := by
  rw [EstimatesFit]
  by_cases hle : 100 ≤ (s.executionRecords id).length
  · exact iff_of_true (deliversFew_of_le hdesired hle) (Or.inl hle)
  have hlt : (s.executionRecords id).length < 100 := Nat.not_le.mp hle
  have happrox := approxExecutionSize_of_lt sizes hlt
  -- there may be no record behind the executions, and then the estimate is 0
  cases hbehind : s.recordBehind id with
  | none =>
      rw [hbehind] at happrox
      refine iff_of_true
        ((deliversFew_iff_of_size hdesired hlt happrox).mpr (Or.inr (Or.inl rfl))) ?_
      exact Or.inr (Or.inr fun behind h => by cases h)
  | some behind =>
      rw [hbehind] at happrox
      simp only [Option.some.injEq, forall_eq']
      rw [or_iff_right hle]
      by_cases hzero : sizes 1 (startKey id) behind.1 = 0
      · simp only [hzero, if_true] at happrox
        refine iff_of_true
          ((deliversFew_iff_of_size hdesired hlt happrox).mpr (Or.inr (Or.inl rfl))) (Or.inr ?_)
        rw [hzero]
        split
        · rfl
        · next hcount => exact Or.inl (Nat.pos_of_ne_zero hcount)
      · simp only [hzero, if_false] at happrox
        by_cases hcount : (s.executionRecords id).length = 0
        · rw [if_pos hcount] at happrox ⊢
          refine iff_of_false (not_deliversFew_of_divisionByZero hdesired happrox) ?_
          rintro (hone | hsize)
          · omega
          · exact hzero (UInt64.toNat_inj.mp hsize)
        · rw [if_neg hcount] at happrox ⊢
          have hsmall : sizes 1 (startKey id) behind.1 /
              UInt64.ofNat (s.executionRecords id).length = 0 ↔
              (sizes 1 (startKey id) behind.1).toNat < (s.executionRecords id).length := by
            rw [← UInt64.toNat_inj, toNat_div_ofNat hlt]
            exact Nat.div_eq_zero_iff.trans (or_iff_right hcount)
          rw [deliversFew_iff_of_size hdesired hlt happrox, hsmall, toNat_div_ofNat hlt]
          have hone : (s.executionRecords id).length ≤ 1 ↔ (s.executionRecords id).length = 1 := by
            omega
          rw [hone]

theorem deliversFew_iff_estimatesFit (sizes : ApproximateSizes) (db : Database) (name : Bytes)
    (numDesired : UInt64) (hdesired : numDesired ≠ 0) :
    ∃ id db', (addString name).runOn db = (.ok id, db') ∧
      (DeliversFew sizes db'.store id numDesired ↔ EstimatesFit sizes db'.store id numDesired) := by
  obtain ⟨id, db', hid⟩ := addFunctionName_returns name db
  exact ⟨id, db', hid, deliversFew_iff hdesired⟩

theorem deliversFew_iff_estimatesFit_fourRuns :
    ∃ id db', (addString (str "run")).runOn fourRuns = (.ok id, db') ∧
      (DeliversFew (fun _ _ _ => 400) db'.store id 3 ↔
        EstimatesFit (fun _ _ _ => 400) db'.store id 3) :=
  deliversFew_iff_estimatesFit _ fourRuns (str "run") 3 (by decide)

/-- Four executions are found before the other name, and every second one is skipped. -/
theorem not_deliversFew_fourRuns :
    (addString (str "run")).runOn fourRuns = (.ok 1, fourRuns) ∧
      ¬ DeliversFew (fun _ _ _ => 400) fourRuns.store 1 2 := by
  refine ⟨rfl, fun h => ?_⟩
  have hcount : (fourRuns.store.executionRecords 1).length = 4 := by decide +kernel
  obtain ⟨behind, hbehind⟩ : ∃ behind, fourRuns.store.recordBehind 1 = some behind :=
    Option.isSome_iff_exists.mp (by decide +kernel)
  rcases (deliversFew_iff (by decide)).mp h with hmany | hone | hfits
  · rw [hcount] at hmany
    omega
  · rw [hcount] at hone
    omega
  · have hsize := hfits behind hbehind
    rw [hcount] at hsize
    exact absurd (show 400 < 4 ∨ 400 < 2 * 2 * (400 / 4) from hsize) (by decide)

end TibeeCompare.Db
