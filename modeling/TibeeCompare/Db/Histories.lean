import TibeeCompare.Db.Enumeration

/-!
Histories of a database: operations one after the other, with the database
closed and opened in between.

Every reply follows from the tables of the history before it, and the tables
follow from the operations alone. What the replies have in common is then a
matter of tables that only grow.
-/

namespace TibeeCompare.Db

open Interning

inductive Op
  | addFunctionName (name : Bytes)
  | getFunctionName (id : FunctionNameId)
  | addStack (stack : Stack)
  | getStack (id : StackId)
  | addExecution (execution : Execution)
  | enumerateExecutions (name : Bytes)
  | reopen
deriving DecidableEq

inductive Reply
  | id (id : UInt32)
  | name (name : Bytes)
  | stack (stack : Stack)
  | executions (executions : List Execution)
  | done
deriving DecidableEq

def Op.run : Op → DbM Reply
  | addFunctionName name => do
      let id ← Db.addFunctionName name
      pure (.id id)
  | getFunctionName id => do
      let name ← Db.getFunctionName id
      pure (.name name)
  | addStack stack => do
      let id ← Db.addStack stack
      pure (.id id)
  | getStack id => do
      let stack ← Db.getStack id
      pure (.stack stack)
  | addExecution execution => do
      Db.addExecution execution
      pure .done
  | enumerateExecutions name => do
      let executions ← Db.enumerateExecutions name
      pure (.executions executions)
  | reopen => do
      modify Db.reopen
      pure .done

/-- The database after a history that starts from an empty one. -/
def after (history : List Op) : Database :=
  history.foldl (fun db op => (op.run.runOn db).2) {}

/-- The reply to an operation that follows a history. -/
def reply (history : List Op) (op : Op) : Except FatalError Reply :=
  (op.run.runOn (after history)).1

/-! ### The tables of a history -/

namespace Tables

def apply (t : Tables) : Op → Tables
  | .addFunctionName name => t.addName name
  | .addStack stack => t.addStack stack
  | .addExecution execution => t.addExecution execution
  | .enumerateExecutions name => t.addName name
  | .getFunctionName _ | .getStack _ | .reopen => t

/-- The reply to an operation on these tables. -/
def answer (t : Tables) : Op → Except FatalError Reply
  | .addFunctionName name => .ok (.id ((t.addName name).nameId name))
  | .getFunctionName id => (t.functionName id).map .name
  | .addStack stack => .ok (.id ((t.addStack stack).stackId stack))
  | .getStack id => (t.stack id).map .stack
  | .addExecution _ => .ok .done
  | .enumerateExecutions name => .ok (.executions ((t.addName name).enumerate name))
  | .reopen => .ok .done

end Tables

/-- The tables that a history leaves. -/
def tables (history : List Op) : Tables := history.foldl Tables.apply {}

theorem Does.map {α β : Type} {x : DbM α} {t t' : Tables} {r : Except FatalError α}
    (h : Does x t r t') (f : α → β) :
    Does (x >>= fun a => Pure.pure (f a)) t (r.map f) t' := by
  intro db hdb
  obtain ⟨db', hx, hdb'⟩ := h db hdb
  refine ⟨db', ?_, hdb'⟩
  cases r with
  | ok a => rw [DbM.runOn_bind_ok hx]; rfl
  | error e => rw [DbM.runOn_bind_error hx]; rfl

theorem Op.run_does {t : Tables} (op : Op) (hfits : (t.apply op).Fits) :
    Does op.run t (t.answer op) (t.apply op) := by
  cases op with
  | addFunctionName name => exact (addFunctionName_does hfits).map Reply.id
  | getFunctionName id => exact (getFunctionName_does t id).map Reply.name
  | addStack stack => exact (addStack_does hfits).map Reply.id
  | getStack id => exact (getStack_does t id).map Reply.stack
  | addExecution execution => exact (addExecution_does hfits).map fun _ => Reply.done
  | enumerateExecutions name => exact (enumerateExecutions_does hfits).map Reply.executions
  | reopen => exact fun db h => ⟨_, rfl, h.reopen⟩

theorem Tables.Fits.of_apply {t : Tables} {op : Op} (h : (t.apply op).Fits) : t.Fits := by
  cases op with
  | addFunctionName name => exact h.of_addName
  | addStack stack => exact h.of_addStack
  | addExecution execution =>
      have h' : ((t.addName execution.name).addName execution.trace).Fits := h
      exact h'.of_addName.of_addName
  | enumerateExecutions name => exact h.of_addName
  | _ => exact h

theorem tables_append (history : List Op) (op : Op) :
    tables (history ++ [op]) = (tables history).apply op := List.foldl_append

theorem after_append (history : List Op) (op : Op) :
    after (history ++ [op]) = (op.run.runOn (after history)).2 := List.foldl_append

/-- The database of a history represents its tables. -/
theorem represents_after {history : List Op} (hfits : (tables history).Fits) :
    Represents (after history) (tables history) := by
  induction history using List.reverseRecOn with
  | nil => exact represents_empty
  | append_singleton history op ih =>
      rw [tables_append] at hfits ⊢
      obtain ⟨db, hrun, hdb⟩ := op.run_does hfits _ (ih hfits.of_apply)
      have hafter : after (history ++ [op]) = db := by
        rw [after_append]
        exact congrArg Prod.snd hrun
      rw [hafter]
      exact hdb

theorem reply_eq {history : List Op} {op : Op} (hfits : (tables (history ++ [op])).Fits) :
    reply history op = (tables history).answer op := by
  rw [tables_append] at hfits
  obtain ⟨db, hrun, -⟩ := op.run_does hfits _ (represents_after hfits.of_apply)
  exact congrArg Prod.fst hrun

/-! ### What a history puts into the tables -/

/-- The strings that an operation looks up in the table of names. -/
def Op.strings : Op → List Bytes
  | addFunctionName name => [name]
  | addExecution execution => [execution.name, execution.trace]
  | enumerateExecutions name => [name]
  | _ => []

def Op.stack? : Op → Option Stack
  | addStack stack => some stack
  | _ => none

def Op.execution? : Op → Option Execution
  | addExecution execution => some execution
  | _ => none

theorem nameTable_tables (history : List Op) :
    (tables history).nameTable = internAll [] (history.flatMap Op.strings) := by
  induction history using List.reverseRecOn with
  | nil => rfl
  | append_singleton history op ih =>
      rw [tables_append, List.flatMap_append, internAll_append, ← ih]
      cases op <;> rfl

theorem stackTable_tables (history : List Op) :
    (tables history).stackTable = internAll [] (history.filterMap Op.stack?) := by
  induction history using List.reverseRecOn with
  | nil => rfl
  | append_singleton history op ih =>
      rw [tables_append, List.filterMap_append, internAll_append, ← ih]
      cases op <;> rfl

theorem executions_tables (history : List Op) :
    (tables history).executions = (history.filterMap Op.execution?).reverse := by
  induction history using List.reverseRecOn with
  | nil => rfl
  | append_singleton history op ih =>
      rw [tables_append, List.filterMap_append, List.reverse_append, ← ih]
      cases op <;> rfl

/-- A history uses fewer than `bound` distinct strings, and fewer distinct stacks. -/
def UsesFewer (bound : ℕ) (history : List Op) : Prop :=
  (history.flatMap Op.strings).toFinset.card < bound ∧
    (history.filterMap Op.stack?).toFinset.card < bound

instance (bound : ℕ) (history : List Op) : Decidable (UsesFewer bound history) :=
  inferInstanceAs (Decidable (_ ∧ _))

theorem usesFewer_iff {bound : ℕ} {history : List Op} :
    UsesFewer bound history ↔
      (tables history).nameTable.length < bound ∧ (tables history).stackTable.length < bound := by
  rw [UsesFewer, nameTable_tables, stackTable_tables, length_internAll, length_internAll]

theorem UsesFewer.mono {bound : ℕ} {history history' : List Op} (h : UsesFewer bound history)
    (hstrings : history'.flatMap Op.strings ⊆ history.flatMap Op.strings)
    (hstacks : history'.filterMap Op.stack? ⊆ history.filterMap Op.stack?) :
    UsesFewer bound history' := by
  refine ⟨(Finset.card_le_card fun name hname => ?_).trans_lt h.1,
    (Finset.card_le_card fun stack hstack => ?_).trans_lt h.2⟩
  · exact List.mem_toFinset.mpr (hstrings (List.mem_toFinset.mp hname))
  · exact List.mem_toFinset.mpr (hstacks (List.mem_toFinset.mp hstack))

theorem fits_of_usesFewer {bound : ℕ} (hbound : bound ≤ 2 ^ 32) {history : List Op}
    (h : UsesFewer bound history) : (tables history).Fits := by
  obtain ⟨hnames, hstacks⟩ := usesFewer_iff.mp h
  exact ⟨by omega, by omega⟩

theorem nameTable_grows (pre rest : List Op) :
    (tables pre).nameTable <+: (tables (pre ++ rest)).nameTable := by
  rw [nameTable_tables, nameTable_tables, List.flatMap_append, internAll_append]
  exact prefix_internAll _ _

theorem stackTable_grows (pre rest : List Op) :
    (tables pre).stackTable <+: (tables (pre ++ rest)).stackTable := by
  rw [stackTable_tables, stackTable_tables, List.filterMap_append, internAll_append]
  exact prefix_internAll _ _

end TibeeCompare.Db
