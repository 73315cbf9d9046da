import TibeeCompare.Db.Histories
import Mathlib.Data.List.Pairwise

/-!
Which executions of a history an enumeration delivers.

The record of an execution is found by its name and its start, and a later
execution with the same name and start takes its place. So all executions of a
name are delivered exactly if no two of them start at the same time.
-/

namespace TibeeCompare.Db

/-- The executions that a history adds under a name, in the order of the calls. -/
def added (history : List Op) (name : Bytes) : List Execution :=
  (history.filterMap Op.execution?).filter fun e => e.name = name

/-- An enumeration after a history delivers each execution that was added under
the name exactly once and as it was, in the order of their starts, and no other. -/
def Delivers (history : List Op) (name : Bytes) : Prop :=
  ∃ executions, reply history (.enumerateExecutions name) = .ok (.executions executions) ∧
    executions.Perm (added history name) ∧ executions.Pairwise fun a b => a.startTs ≤ b.startTs

/-- No two executions in the list start at the same time. -/
def DistinctStarts (executions : List Execution) : Prop :=
  executions.Pairwise fun a b => a.startTs ≠ b.startTs

instance (executions : List Execution) : Decidable (DistinctStarts executions) :=
  inferInstanceAs (Decidable (executions.Pairwise _))

theorem executionAt_eq (history : List Op) (name : Bytes) (startTs : UInt64) :
    (tables history).executionAt name startTs =
      (added history name).reverse.find? fun e => e.startTs = startTs := by
  rw [Tables.executionAt, executions_tables, added, ← List.filter_reverse, List.find?_filter]
  simp only [Bool.decide_and, Bool.decide_eq_true]

/-- Where starts are distinct, the execution with a start is the only one. -/
theorem find?_eq_some_iff {executions : List Execution} (h : DistinctStarts executions)
    {e : Execution} :
    executions.find? (fun e' => e'.startTs = e.startTs) = some e ↔ e ∈ executions := by
  constructor
  · exact List.mem_of_find?_eq_some
  · intro he
    cases hfound : executions.find? fun e' => decide (e'.startTs = e.startTs) with
    | none =>
        have hnone := List.find?_eq_none.mp hfound e he
        simp at hnone
    | some e' =>
        have hstart : e'.startTs = e.startTs := by simpa using List.find?_some hfound
        by_contra hne
        have hne' : e' ≠ e := fun heq => hne (congrArg some heq)
        have : Std.Symm fun a b : Execution => a.startTs ≠ b.startTs := ⟨fun _ _ hab => hab.symm⟩
        exact List.Pairwise.forall h (List.mem_of_find?_eq_some hfound) he hne' hstart

theorem delivers_iff (history : List Op) (name : Bytes)
    (huses : UsesFewer (2 ^ 32) (history ++ [.enumerateExecutions name])) :
    Delivers history name ↔ DistinctStarts (added history name) := by
  have hreply : reply history (.enumerateExecutions name) =
      .ok (.executions (((tables history).addName name).enumerate name)) :=
    reply_eq (fits_of_usesFewer le_rfl huses)
  have hordered := ((tables history).addName name).enumerate_ordered name
  have hmem : ∀ e, e ∈ ((tables history).addName name).enumerate name ↔
      (added history name).reverse.find? (fun e' => e'.startTs = e.startTs) = some e := by
    intro e
    rw [Tables.mem_enumerate, ← executionAt_eq]
    rfl
  constructor
  · rintro ⟨executions, hexecutions, hperm, -⟩
    rw [hreply] at hexecutions
    obtain rfl := Reply.executions.inj (Except.ok.inj hexecutions)
    refine (hperm.pairwise_iff fun hab => hab.symm).mp (hordered.imp ?_)
    intro a b hab heq
    rw [heq] at hab
    exact Nat.lt_irrefl _ hab
  · intro hdistinct
    refine ⟨_, hreply, ?_, hordered.imp fun hab => UInt64.le_iff_toNat_le.mpr hab.le⟩
    have hreverse : DistinctStarts (added history name).reverse :=
      List.pairwise_reverse.mpr (hdistinct.imp fun hab => hab.symm)
    have hnodup : (added history name).Nodup :=
      hdistinct.imp fun hab heq => hab (congrArg _ heq)
    have hnodup' : (((tables history).addName name).enumerate name).Nodup :=
      hordered.imp fun hab heq => by
        rw [heq] at hab
        exact Nat.lt_irrefl _ hab
    refine (List.perm_ext_iff_of_nodup hnodup' hnodup).mpr fun e => ?_
    rw [hmem, find?_eq_some_iff hreverse, List.mem_reverse]

/-- Two executions `run`, of different threads, that start at 5. -/
def sameStart : List Op :=
  [.addExecution
      { name := str "run", trace := str "trace"
        startTs := 5, startThread := 1, endTs := 8, endThread := 1 },
    .addExecution
      { name := str "run", trace := str "trace"
        startTs := 5, startThread := 2, endTs := 9, endThread := 2 }]

/-- Two executions that start one after the other, added in the other order. -/
def distinctStarts : List Op :=
  [.addExecution { name := str "run", trace := str "trace", startTs := 7, endTs := 8 },
    .reopen,
    .addExecution { name := str "run", trace := str "trace", startTs := 5, endTs := 9 }]

theorem delivers_iff_distinctStarts :
    Delivers distinctStarts (str "run") ↔ DistinctStarts (added distinctStarts (str "run")) :=
  delivers_iff distinctStarts (str "run") (by decide)

/-- The second execution takes the place of the first one. -/
theorem not_delivers_sameStart : ¬ Delivers sameStart (str "run") := by
  rintro ⟨executions, hreply, hperm, -⟩
  have hlast : reply sameStart (.enumerateExecutions (str "run")) =
      .ok (.executions ((added sameStart (str "run")).drop 1)) := by decide
  rw [hlast] at hreply
  obtain rfl := Reply.executions.inj (Except.ok.inj hreply)
  exact absurd hperm.length_eq (by decide)

end TibeeCompare.Db
