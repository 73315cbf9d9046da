import TibeeCompare.Db.Keys
import Mathlib.Logic.Function.Basic

/-!
The operations of the database.

The store itself never fails: a `Get` finds a value or reports that there is
none, and writes succeed. What is left of the error paths are records that are
missing or too short.
-/

namespace TibeeCompare.Db

open Codecs

structure Database where
  store : Store := ∅
  functionNamesCache : FunctionNameId → Option Bytes := fun _ => none
  stacksCache : StackId → Option Stack := fun _ => none

/-- The message of an exception. -/
abbrev FatalError := String

/-- Code that uses the database; what was written before an exception stays. -/
abbrev DbM := ExceptT FatalError (StateM Database)

/-- What the code returns or throws, and the database that it leaves. -/
def DbM.runOn {α : Type} (x : DbM α) (db : Database) : Except FatalError α × Database :=
  x.run.run db

namespace DbM

variable {α β : Type}

@[simp] theorem runOn_pure (a : α) (db : Database) : runOn (pure a) db = (.ok a, db) := rfl

@[simp] theorem runOn_throw (e : FatalError) (db : Database) :
    runOn (throw e : DbM α) db = (.error e, db) := rfl

@[simp] theorem runOn_get_bind (next : Database → DbM α) (db : Database) :
    runOn (get >>= next) db = runOn (next db) db := rfl

@[simp] theorem runOn_set_bind (db' : Database) (next : PUnit → DbM α) (db : Database) :
    runOn (set db' >>= next) db = runOn (next ⟨⟩) db' := rfl

@[simp] theorem runOn_modify (f : Database → Database) (db : Database) :
    runOn (modify f) db = (.ok ⟨⟩, f db) := rfl

theorem runOn_bind_ok {x : DbM α} {next : α → DbM β} {db db' : Database} {a : α}
    (h : x.runOn db = (.ok a, db')) : runOn (x >>= next) db = runOn (next a) db' := by
  have hrun : x.run.run db = (Except.ok a, db') := h
  rw [runOn, ExceptT.run_bind, StateT.run_bind, hrun]
  rfl

theorem runOn_bind_eq_ok {x : DbM α} {next : α → DbM β} {db db' : Database} {b : β} :
    runOn (x >>= next) db = (.ok b, db') ↔
      ∃ a mid, x.runOn db = (.ok a, mid) ∧ runOn (next a) mid = (.ok b, db') := by
  constructor
  · intro h
    cases hx : x.runOn db with
    | mk r mid =>
        cases r with
        | ok a => exact ⟨a, mid, rfl, (runOn_bind_ok hx).symm.trans h⟩
        | error e =>
            have herror : runOn (x >>= next) db = (.error e, mid) := by
              have hrun : x.run.run db = (Except.error e, mid) := hx
              rw [runOn, ExceptT.run_bind, StateT.run_bind, hrun]
              rfl
            rw [herror] at h
            cases h
  · rintro ⟨a, mid, hx, hnext⟩
    exact (runOn_bind_ok hx).trans hnext

theorem runOn_map_eq_ok {x : DbM α} {f : α → β} {db db' : Database} {b : β} :
    runOn (x >>= fun a => pure (f a)) db = (.ok b, db') ↔
      ∃ a, x.runOn db = (.ok a, db') ∧ b = f a := by
  rw [runOn_bind_eq_ok]
  constructor
  · rintro ⟨a, mid, hx, hf⟩
    cases hf
    exact ⟨a, hx, rfl⟩
  · rintro ⟨a, hx, rfl⟩
    exact ⟨a, db', hx, rfl⟩

theorem runOn_bind_error {x : DbM α} {next : α → DbM β} {db db' : Database} {e : FatalError}
    (h : x.runOn db = (.error e, db')) : runOn (x >>= next) db = (.error e, db') := by
  have hrun : x.run.run db = (Except.error e, db') := h
  rw [runOn, ExceptT.run_bind, StateT.run_bind, hrun]
  rfl

/-- A run whose result shows `c` ends in such a result. -/
theorem exists_of_view {x : DbM α} {db : Database} {view : α → β} {c : β}
    (h : (runOn x db).1.map view = .ok c) : ∃ a db', runOn x db = (.ok a, db') ∧ view a = c := by
  cases hx : runOn x db with
  | mk r db' =>
      rw [hx] at h
      cases r with
      | ok a => exact ⟨a, db', rfl, Except.ok.inj h⟩
      | error e => cases h

end DbM

/-- `StringToUint32`. -/
def stringToUint32 (s : Bytes) : UInt32 := UInt32.ofNat (ofLE (s.take 4))

/-- An identifier that was not given out yet, and the write that keeps the next
one for the calls to come. The identifier 0 is not used. -/
def getIdentifier (type : Key) (db : Database) : UInt32 × (Key × Bytes) :=
  let identifier :=
    match db.store.get type with
    | some identifierStr => stringToUint32 identifierStr
    | none => 1
  (identifier, (type, writeUInt32 (identifier + 1)))

/-! ### Function names -/

def getFunctionName (id : FunctionNameId) : DbM Bytes := do
  let db ← get
  match db.functionNamesCache id with
  | some name => pure name
  | none =>
      match db.store.get (Key.functionNameId id) with
      | none =>
          throw ("Unable to retrieve a function name for the provided id (" ++
            toString id.toNat ++ ").")
      | some name =>
          set { db with functionNamesCache := Function.update db.functionNamesCache id name }
          pure name

def addFunctionName (name : Bytes) : DbM FunctionNameId := do
  let db ← get
  match db.store.get (Key.functionNameReverse name) with
  | some idStr => pure (stringToUint32 idStr)
  | none =>
      let (id, next) := getIdentifier Key.functionNameCount db
      let batch := [next, (Key.functionNameId id, name),
        (Key.functionNameReverse name, writeUInt32 id)]
      set { db with
        store := db.store.write batch
        functionNamesCache := Function.update db.functionNamesCache id name }
      pure id

/-! ### Stacks -/

/-- The `Stack` whose memory holds these bytes. -/
def readStack (s : Bytes) : Stack :=
  ⟨stringToUint32 s, stringToUint32 (s.drop 4)⟩

def getStack (id : StackId) : DbM Stack := do
  let db ← get
  match db.stacksCache id with
  | some stack => pure stack
  | none =>
      match db.store.get (Key.stackId id) with
      | none =>
          throw ("Unable to retrieve a stack for the provided id (" ++ toString id.toNat ++ ").")
      | some stackStr =>
          if stackStr.length ≠ 8 then
            throw "Read a stack with an incorrect size."
          else
            let stack := readStack stackStr
            set { db with stacksCache := Function.update db.stacksCache id stack }
            pure stack

def addStack (stack : Stack) : DbM StackId := do
  let db ← get
  match db.store.get (Key.stackReverse stack) with
  | some idStr => pure (stringToUint32 idStr)
  | none =>
      let (id, next) := getIdentifier Key.stackCount db
      let batch := [next, (Key.stackId id, writeStack stack),
        (Key.stackReverse stack, writeUInt32 id)]
      set { db with
        store := db.store.write batch
        stacksCache := Function.update db.stacksCache id stack }
      pure id

/-! ### Executions -/

/-- Strings use the same data as function names. -/
def getString (id : UInt32) : DbM Bytes := getFunctionName id

def addString (s : Bytes) : DbM FunctionNameId := addFunctionName s

/-- The value of an execution's record. -/
def writeExecution (nameId traceId : UInt32) (execution : Execution) : Bytes :=
  writeExecutionMetadataToBuffer nameId traceId execution ++
    (writeExecutionMetricsToBuffer execution ++ writeExecutionSamplesToBuffer execution)

def addExecution (execution : Execution) : DbM Unit := do
  let executionNameId ← addString execution.name
  let traceId ← addString execution.trace
  modify fun db => { db with
    store := db.store.put (Key.execution executionNameId execution.startTs)
      (writeExecution executionNameId traceId execution) }

/-- The body of the loop of `EnumerateExecutions`. -/
def readExecution (value : Bytes) : DbM Execution :=
  match readExecutionMetadataFromBuffer {} value 0 with
  | none => throw "Unable to read execution metadata."
  | some ((nameId, traceId, execution), pos) => do
      let name ← getString nameId
      let trace ← getString traceId
      match readExecutionMetricsFromBuffer { execution with name, trace } value pos with
      | none => throw "Unable to read execution metrics."
      | some (execution, pos) =>
          match readExecutionSamplesFromBuffer execution value pos with
          | none => throw "Unable to read execution samples."
          | some (execution, _) => pure execution

/-- The executions that the callback is given, for some records. -/
def readExecutions : List (Key × Bytes) → DbM (List Execution)
  | [] => pure []
  | (_, value) :: records => do
      let execution ← readExecution value
      let executions ← readExecutions records
      pure (execution :: executions)

/-- `EnumerateExecutions` without a desired number of executions. -/
def enumerateExecutions (name : Bytes) : DbM (List Execution) := do
  let executionNameId ← addString name
  let db ← get
  readExecutions (db.store.scan (Key.execution executionNameId 0)
    (Key.execution executionNameId (-1)))

/-- The database after it has been closed and opened again. -/
def reopen (db : Database) : Database := { store := db.store }

end TibeeCompare.Db
