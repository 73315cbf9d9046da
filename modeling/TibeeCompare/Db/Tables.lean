import TibeeCompare.Db.Database
import TibeeCompare.Lib.Interning

/-!
What the database is for, and how the store represents it.

The abstract state has three tables: names and stacks, numbered in the order in
which they came, and executions. `Represents` says which records of the store
spell out such tables, and that the caches hold nothing else. Each operation of
the database then does one thing to the tables (`Does`).
-/

namespace TibeeCompare.Db

open Codecs Interning

@[ext] structure Tables where
  nameTable : List Bytes := []
  stackTable : List Stack := []
  /-- The executions, the last one first. -/
  executions : List Execution := []
  nameTable_nodup : nameTable.Nodup := by simp
  stackTable_nodup : stackTable.Nodup := by simp
  interned : ∀ e ∈ executions, e.name ∈ nameTable ∧ e.trace ∈ nameTable := by simp

namespace Tables

/-! ### Operations -/

def addName (t : Tables) (name : Bytes) : Tables where
  nameTable := intern t.nameTable name
  stackTable := t.stackTable
  executions := t.executions
  nameTable_nodup := nodup_intern t.nameTable_nodup name
  stackTable_nodup := t.stackTable_nodup
  interned e he := ⟨mem_intern.mpr (Or.inl (t.interned e he).1),
    mem_intern.mpr (Or.inl (t.interned e he).2)⟩

def addStack (t : Tables) (stack : Stack) : Tables where
  nameTable := t.nameTable
  stackTable := intern t.stackTable stack
  executions := t.executions
  nameTable_nodup := t.nameTable_nodup
  stackTable_nodup := nodup_intern t.stackTable_nodup stack
  interned := t.interned

/-- An execution is kept with its two strings. -/
def addExecution (t : Tables) (e : Execution) : Tables where
  nameTable := intern (intern t.nameTable e.name) e.trace
  stackTable := t.stackTable
  executions := e :: t.executions
  nameTable_nodup := nodup_intern (nodup_intern t.nameTable_nodup _) _
  stackTable_nodup := t.stackTable_nodup
  interned := by
    intro e' he
    rcases List.mem_cons.mp he with rfl | he
    · simp
    · simp [t.interned e' he]

def nameId (t : Tables) (name : Bytes) : FunctionNameId := UInt32.ofNat (number t.nameTable name)

def stackId (t : Tables) (stack : Stack) : StackId := UInt32.ofNat (number t.stackTable stack)

def nameAt (t : Tables) (id : FunctionNameId) : Option Bytes := valueAt t.nameTable id.toNat

def stackAt (t : Tables) (id : StackId) : Option Stack := valueAt t.stackTable id.toNat

/-- The execution that was added last with a name and a start. -/
def executionAt (t : Tables) (name : Bytes) (startTs : UInt64) : Option Execution :=
  t.executions.find? fun e => e.name = name ∧ e.startTs = startTs

/-- Identifiers have 32 bits. -/
def Fits (t : Tables) : Prop := t.nameTable.length < 2 ^ 32 ∧ t.stackTable.length < 2 ^ 32

theorem Fits.of_addName {t : Tables} {name : Bytes} (h : (t.addName name).Fits) : t.Fits :=
  ⟨(prefix_intern t.nameTable name).length_le.trans_lt h.1, h.2⟩

theorem Fits.of_addStack {t : Tables} {stack : Stack} (h : (t.addStack stack).Fits) : t.Fits :=
  ⟨h.1, (prefix_intern t.stackTable stack).length_le.trans_lt h.2⟩

/-! ### The records of the tables -/

/-- The record of the next identifier: it is written with the first value. -/
def nextId (count : ℕ) : Option Bytes :=
  if count = 0 then none else some (writeUInt32 (UInt32.ofNat (count + 1)))

def lookup (t : Tables) : Key → Option Bytes
  | .functionNameCount => nextId t.nameTable.length
  | .stackCount => nextId t.stackTable.length
  | .functionNameId id => t.nameAt id
  | .stackId id => (t.stackAt id).map writeStack
  | .functionNameReverse name =>
      (find t.nameTable name).map fun n => writeUInt32 (UInt32.ofNat n)
  | .stackReverse stack =>
      (find t.stackTable stack).map fun n => writeUInt32 (UInt32.ofNat n)
  | .execution id timestamp =>
      (t.nameAt id).bind fun name => (t.executionAt name timestamp).map fun e =>
        writeExecution (t.nameId e.name) (t.nameId e.trace) e

end Tables

structure Represents (db : Database) (t : Tables) : Prop where
  fits : t.Fits
  store : ∀ key, db.store.get key = t.lookup key
  functionNamesCache : ∀ id name, db.functionNamesCache id = some name → t.nameAt id = some name
  stacksCache : ∀ id stack, db.stacksCache id = some stack → t.stackAt id = some stack

/-- In a database with tables `t`, `x` returns `r`, and leaves the tables `t'`. -/
def Does {α : Type} (x : DbM α) (t : Tables) (r : Except FatalError α) (t' : Tables) : Prop :=
  ∀ db, Represents db t → ∃ db', x.runOn db = (r, db') ∧ Represents db' t'

theorem Does.pure {α : Type} (t : Tables) (a : α) : Does (Pure.pure a) t (.ok a) t :=
  fun db h => ⟨db, rfl, h⟩

theorem Does.bind {α β : Type} {x : DbM α} {next : α → DbM β} {t t' t'' : Tables} {a : α}
    {r : Except FatalError β} (h : Does x t (.ok a) t') (h' : Does (next a) t' r t'') :
    Does (x >>= next) t r t'' := by
  intro db hdb
  obtain ⟨db', hx, hdb'⟩ := h db hdb
  obtain ⟨db'', hnext, hdb''⟩ := h' db' hdb'
  exact ⟨db'', (DbM.runOn_bind_ok hx).trans hnext, hdb''⟩

theorem represents_empty : Represents {} {} where
  fits := ⟨by simp, by simp⟩
  store key := by
    rw [Store.get_empty]
    cases key <;> simp [Tables.lookup, Tables.nextId, Tables.nameAt, Tables.stackAt, find]
  functionNamesCache _ _ h := by cases h
  stacksCache _ _ h := by cases h

/-- Closing the database forgets the caches only. -/
theorem Represents.reopen {db : Database} {t : Tables} (h : Represents db t) :
    Represents (Db.reopen db) t where
  fits := h.fits
  store := h.store
  functionNamesCache _ _ h := by cases h
  stacksCache _ _ h := by cases h

/-! ### Names -/

theorem stringToUint32_write (n : UInt32) (rest : Bytes) :
    stringToUint32 (writeUInt32 n ++ rest) = n := by
  have htake : (writeUInt32 n ++ rest).take 4 = writeUInt32 n :=
    List.take_left' (length_writeUInt32 n)
  have hn : ofLE (writeUInt32 n) = n.toNat := ofLE_toLE_of_lt n.toNat_lt
  rw [stringToUint32, htake, hn, UInt32.ofNat_toNat]

@[simp] theorem stringToUint32_writeUInt32 (n : UInt32) : stringToUint32 (writeUInt32 n) = n := by
  simpa using stringToUint32_write n []

theorem readStack_writeStack (stack : Stack) : readStack (writeStack stack) = stack := by
  have hdrop : (writeStack stack).drop 4 = writeUInt32 stack.bottom :=
    List.drop_left' (length_writeUInt32 _)
  rw [readStack, hdrop, stringToUint32_writeUInt32]
  rw [writeStack, stringToUint32_write]

/-- Where the counter is the one of a table with `count` values, the identifier
is the one behind them. -/
theorem getIdentifier_eq {db : Database} {type : Key} {count : ℕ}
    (h : db.store.get type = Tables.nextId count) :
    getIdentifier type db = (UInt32.ofNat (count + 1),
      (type, writeUInt32 (UInt32.ofNat (count + 1) + 1))) := by
  unfold getIdentifier
  rw [h, Tables.nextId]
  cases count with
  | zero => rfl
  | succ count => simp

theorem nextId_succ (count : ℕ) :
    Tables.nextId (count + 1) = some (writeUInt32 (UInt32.ofNat (count + 1) + 1)) := by
  rw [Tables.nextId, if_neg (Nat.succ_ne_zero _), UInt32.ofNat_add (count + 1) 1]
  rfl

theorem toNat_eq_iff {id : UInt32} {n : ℕ} (h : n < 2 ^ 32) :
    id.toNat = n ↔ UInt32.ofNat n = id := by
  rw [← UInt32.toNat_inj, UInt32.toNat_ofNat_of_lt' h, eq_comm]

namespace Tables

theorem nameId_addName {t : Tables} {name : Bytes} (h : name ∈ t.nameTable) (other : Bytes) :
    (t.addName other).nameId name = t.nameId name :=
  congrArg UInt32.ofNat (number_of_grown (prefix_intern _ _) h)

@[simp] theorem mem_addName {t : Tables} {name other : Bytes} :
    other ∈ (t.addName name).nameTable ↔ other ∈ t.nameTable ∨ other = name := mem_intern

theorem nameAt_addName {t : Tables} {id : FunctionNameId} {name : Bytes}
    (h : t.nameAt id = some name) (other : Bytes) : (t.addName other).nameAt id = some name :=
  valueAt_of_grown (prefix_intern _ _) h

theorem stackAt_addStack {t : Tables} {id : StackId} {stack : Stack}
    (h : t.stackAt id = some stack) (other : Stack) : (t.addStack other).stackAt id = some stack :=
  valueAt_of_grown (prefix_intern _ _) h

theorem toNat_nameId {t : Tables} (hfits : t.Fits) {name : Bytes} (h : name ∈ t.nameTable) :
    (t.nameId name).toNat = number t.nameTable name :=
  UInt32.toNat_ofNat_of_lt' ((number_le h).trans_lt hfits.1)

theorem toNat_stackId {t : Tables} (hfits : t.Fits) {stack : Stack} (h : stack ∈ t.stackTable) :
    (t.stackId stack).toNat = number t.stackTable stack :=
  UInt32.toNat_ofNat_of_lt' ((number_le h).trans_lt hfits.2)

theorem nameAt_nameId {t : Tables} (hfits : t.Fits) {name : Bytes} (h : name ∈ t.nameTable) :
    t.nameAt (t.nameId name) = some name := by
  rw [nameAt, toNat_nameId hfits h, valueAt_number h]

theorem stackAt_stackId {t : Tables} (hfits : t.Fits) {stack : Stack} (h : stack ∈ t.stackTable) :
    t.stackAt (t.stackId stack) = some stack := by
  rw [stackAt, toNat_stackId hfits h, valueAt_number h]

theorem nameId_inj {t : Tables} (hfits : t.Fits) {a b : Bytes} (ha : a ∈ t.nameTable)
    (hb : b ∈ t.nameTable) : t.nameId a = t.nameId b ↔ a = b := by
  rw [← UInt32.toNat_inj, toNat_nameId hfits ha, toNat_nameId hfits hb, number_inj ha hb]

theorem nameId_of_nameAt {t : Tables} {id : FunctionNameId} {name : Bytes}
    (h : t.nameAt id = some name) : name ∈ t.nameTable ∧ t.nameId name = id := by
  obtain ⟨hmem, hnumber⟩ := number_of_valueAt t.nameTable_nodup h
  exact ⟨hmem, by rw [nameId, hnumber, UInt32.ofNat_toNat]⟩

theorem addName_of_mem {t : Tables} {name : Bytes} (h : name ∈ t.nameTable) :
    t.addName name = t := by
  ext1
  · exact intern_of_mem h
  · rfl
  · rfl

@[simp] theorem mem_addStack {t : Tables} {stack other : Stack} :
    other ∈ (t.addStack stack).stackTable ↔ other ∈ t.stackTable ∨ other = stack := mem_intern

theorem addStack_of_mem {t : Tables} {stack : Stack} (h : stack ∈ t.stackTable) :
    t.addStack stack = t := by
  ext1
  · rfl
  · exact intern_of_mem h
  · rfl

theorem executionAt_mem {t : Tables} {name : Bytes} {startTs : UInt64} {e : Execution}
    (h : t.executionAt name startTs = some e) :
    e ∈ t.executions ∧ e.name = name ∧ e.startTs = startTs := by
  have hprop := List.find?_some h
  exact ⟨List.mem_of_find?_eq_some h, by simpa using hprop⟩

theorem executionAt_of_notMem {t : Tables} {name : Bytes} (h : name ∉ t.nameTable)
    (startTs : UInt64) : t.executionAt name startTs = none := by
  cases he : t.executionAt name startTs with
  | none => rfl
  | some e =>
      obtain ⟨hmem, rfl, -⟩ := executionAt_mem he
      exact absurd (t.interned e hmem).1 h

/-- New strings change no record of an execution. -/
theorem lookup_execution_addName {t : Tables} (hfits : t.Fits) (name : Bytes)
    (id : FunctionNameId) (timestamp : UInt64) :
    (t.addName name).lookup (.execution id timestamp) = t.lookup (.execution id timestamp) := by
  have hsame : ∀ name', (t.addName name).executionAt name' timestamp =
      t.executionAt name' timestamp := fun _ => rfl
  cases hat : t.nameAt id with
  | some old =>
      have hat' : (t.addName name).nameAt id = some old :=
        valueAt_of_grown (prefix_intern _ _) hat
      simp only [lookup, hat, hat', Option.bind_some, hsame]
      cases he : t.executionAt old timestamp with
      | none => rfl
      | some e =>
          have hinterned := t.interned e (executionAt_mem he).1
          rw [Option.map_some, Option.map_some, nameId_addName hinterned.1,
            nameId_addName hinterned.2]
  | none =>
      simp only [lookup, hat, Option.bind_none, hsame]
      cases hat' : (t.addName name).nameAt id with
      | none => rfl
      | some new =>
          -- the identifier is the one of the new string, which no execution has
          have hnew : new ∉ t.nameTable := by
            intro hmem
            have hold := nameAt_nameId hfits hmem
            rw [← nameId_addName hmem name, (nameId_of_nameAt hat').2, hat] at hold
            cases hold
          rw [Option.bind_some, executionAt_of_notMem hnew]
          rfl

/-- The records that a new name adds and changes. -/
theorem lookup_addName {t : Tables} {name : Bytes} (hfits : (t.addName name).Fits)
    (h : name ∉ t.nameTable) (key : Key) :
    (t.addName name).lookup key =
      if Key.functionNameReverse name = key then
        some (writeUInt32 (UInt32.ofNat (t.nameTable.length + 1)))
      else if Key.functionNameId (UInt32.ofNat (t.nameTable.length + 1)) = key then some name
      else if Key.functionNameCount = key then
        some (writeUInt32 (UInt32.ofNat (t.nameTable.length + 1) + 1))
      else t.lookup key := by
  have hlen : (t.addName name).nameTable.length = t.nameTable.length + 1 := by
    show (intern t.nameTable name).length = _
    rw [intern_of_notMem h, List.length_append, List.length_singleton]
  have hlt : t.nameTable.length + 1 < 2 ^ 32 := hlen ▸ hfits.1
  cases key with
  | functionNameCount => simp [lookup, hlen, nextId_succ]
  | functionNameId id =>
      have hat : (t.addName name).nameAt id =
          if id.toNat = t.nameTable.length + 1 then some name else t.nameAt id :=
        valueAt_intern_of_notMem h id.toNat
      simp only [lookup, hat, toNat_eq_iff hlt, reduceCtorEq, if_false, Key.functionNameId.injEq]
  | functionNameReverse other =>
      have hfind : find (t.addName name).nameTable other = _ := find_intern_of_notMem h other
      simp only [lookup, hfind, Key.functionNameReverse.injEq, reduceCtorEq, if_false]
      split <;> rfl
  | execution id timestamp =>
      simp only [lookup_execution_addName hfits.of_addName, reduceCtorEq, if_false]
  | _ => rfl

/-- The records that a new stack adds and changes. -/
theorem lookup_addStack {t : Tables} {stack : Stack} (hfits : (t.addStack stack).Fits)
    (h : stack ∉ t.stackTable) (key : Key) :
    (t.addStack stack).lookup key =
      if Key.stackReverse stack = key then
        some (writeUInt32 (UInt32.ofNat (t.stackTable.length + 1)))
      else if Key.stackId (UInt32.ofNat (t.stackTable.length + 1)) = key then
        some (writeStack stack)
      else if Key.stackCount = key then
        some (writeUInt32 (UInt32.ofNat (t.stackTable.length + 1) + 1))
      else t.lookup key := by
  have hlen : (t.addStack stack).stackTable.length = t.stackTable.length + 1 := by
    show (intern t.stackTable stack).length = _
    rw [intern_of_notMem h, List.length_append, List.length_singleton]
  have hlt : t.stackTable.length + 1 < 2 ^ 32 := hlen ▸ hfits.2
  cases key with
  | stackCount => simp [lookup, hlen, nextId_succ]
  | stackId id =>
      have hat : (t.addStack stack).stackAt id =
          if id.toNat = t.stackTable.length + 1 then some stack else t.stackAt id :=
        valueAt_intern_of_notMem h id.toNat
      simp only [lookup, hat, toNat_eq_iff hlt, reduceCtorEq, if_false, Key.stackId.injEq]
      split <;> rfl
  | stackReverse other =>
      have hfind : find (t.addStack stack).stackTable other = _ := find_intern_of_notMem h other
      simp only [lookup, hfind, Key.stackReverse.injEq, reduceCtorEq, if_false]
      split <;> rfl
  | _ => rfl

end Tables

/-! ### The operations on names and stacks -/

/-- A cache stays right when a true value is put into it. -/
theorem cache_update {α : Type} {cache : UInt32 → Option α} {valueOf : UInt32 → Option α}
    (h : ∀ id a, cache id = some a → valueOf id = some a) {id : UInt32} {a : α}
    (ha : valueOf id = some a) :
    ∀ id' a', Function.update cache id (some a) id' = some a' → valueOf id' = some a' := by
  intro id' a' h'
  by_cases hid : id' = id
  · subst hid
    rwa [Function.update_self, ← ha] at h'
  · rw [Function.update_of_ne hid] at h'
    exact h id' a' h'

/-- What `GetFunctionName` returns or throws. -/
def Tables.functionName (t : Tables) (id : FunctionNameId) : Except FatalError Bytes :=
  match t.nameAt id with
  | some name => .ok name
  | none =>
      .error ("Unable to retrieve a function name for the provided id (" ++
        toString id.toNat ++ ").")

def Tables.stack (t : Tables) (id : StackId) : Except FatalError Stack :=
  match t.stackAt id with
  | some stack => .ok stack
  | none =>
      .error ("Unable to retrieve a stack for the provided id (" ++ toString id.toNat ++ ").")

theorem getFunctionName_does (t : Tables) (id : FunctionNameId) :
    Does (getFunctionName id) t (t.functionName id) t := by
  intro db h
  have hstore : db.store.get (.functionNameId id) = t.nameAt id := h.store _
  rw [getFunctionName, DbM.runOn_get_bind, Tables.functionName]
  cases hcache : db.functionNamesCache id with
  | some name =>
      rw [h.functionNamesCache id name hcache]
      exact ⟨db, rfl, h⟩
  | none =>
      rw [hstore]
      cases hat : t.nameAt id with
      | none => exact ⟨db, rfl, h⟩
      | some name =>
          exact ⟨_, rfl, h.fits, h.store, cache_update h.functionNamesCache hat, h.stacksCache⟩

theorem getStack_does (t : Tables) (id : StackId) :
    Does (getStack id) t (t.stack id) t := by
  intro db h
  have hstore : db.store.get (.stackId id) = (t.stackAt id).map writeStack := h.store _
  rw [getStack, DbM.runOn_get_bind, Tables.stack]
  cases hcache : db.stacksCache id with
  | some stack =>
      rw [h.stacksCache id stack hcache]
      exact ⟨db, rfl, h⟩
  | none =>
      rw [hstore]
      cases hat : t.stackAt id with
      | none => exact ⟨db, rfl, h⟩
      | some stack =>
          have hlen : ¬ (writeStack stack).length ≠ 8 := by simp
          simp only [Option.map_some, if_neg hlen, readStack_writeStack]
          exact ⟨_, rfl, h.fits, h.store, h.functionNamesCache, cache_update h.stacksCache hat⟩

theorem addFunctionName_does {t : Tables} {name : Bytes} (hfits : (t.addName name).Fits) :
    Does (addFunctionName name) t (.ok ((t.addName name).nameId name)) (t.addName name) := by
  intro db h
  have hstore : db.store.get (.functionNameReverse name) =
      (find t.nameTable name).map fun n => writeUInt32 (UInt32.ofNat n) := h.store _
  rw [addFunctionName, DbM.runOn_get_bind, hstore]
  by_cases hmem : name ∈ t.nameTable
  · rw [find_of_mem hmem, Tables.addName_of_mem hmem, Option.map_some]
    exact ⟨db, by simp [Tables.nameId], h⟩
  · have hid : (t.addName name).nameId name = UInt32.ofNat (t.nameTable.length + 1) :=
      congrArg UInt32.ofNat (number_intern_of_notMem hmem)
    have hnext := getIdentifier_eq (h.store .functionNameCount)
    rw [find_of_notMem hmem, Option.map_none, hid]
    simp only [hnext]
    refine ⟨_, rfl, hfits, ?_, ?_, ?_⟩
    · intro key
      rw [Tables.lookup_addName hfits hmem, ← h.store]
      simp only [Store.write, List.foldl_cons, List.foldl_nil, Store.get_put]
    · refine cache_update (fun id a ha => ?_) ?_
      · exact Tables.nameAt_addName (h.functionNamesCache id a ha) name
      · rw [← hid]
        exact Tables.nameAt_nameId hfits (by simp)
    · exact h.stacksCache

theorem addStack_does {t : Tables} {stack : Stack} (hfits : (t.addStack stack).Fits) :
    Does (addStack stack) t (.ok ((t.addStack stack).stackId stack)) (t.addStack stack) := by
  intro db h
  have hstore : db.store.get (.stackReverse stack) =
      (find t.stackTable stack).map fun n => writeUInt32 (UInt32.ofNat n) := h.store _
  rw [addStack, DbM.runOn_get_bind, hstore]
  by_cases hmem : stack ∈ t.stackTable
  · rw [find_of_mem hmem, Tables.addStack_of_mem hmem, Option.map_some]
    exact ⟨db, by simp [Tables.stackId], h⟩
  · have hid : (t.addStack stack).stackId stack = UInt32.ofNat (t.stackTable.length + 1) :=
      congrArg UInt32.ofNat (number_intern_of_notMem hmem)
    have hnext := getIdentifier_eq (h.store .stackCount)
    rw [find_of_notMem hmem, Option.map_none, hid]
    simp only [hnext]
    refine ⟨_, rfl, hfits, ?_, h.functionNamesCache, ?_⟩
    · intro key
      rw [Tables.lookup_addStack hfits hmem, ← h.store]
      simp only [Store.write, List.foldl_cons, List.foldl_nil, Store.get_put]
    · refine cache_update (fun id a ha => ?_) ?_
      · exact Tables.stackAt_addStack (h.stacksCache id a ha) stack
      · rw [← hid]
        exact Tables.stackAt_stackId hfits (by simp)

/-! ### The operations on executions -/

/-- The record of an execution whose strings the tables have. -/
def Tables.record (t : Tables) (e : Execution) : Bytes :=
  writeExecution (t.nameId e.name) (t.nameId e.trace) e

/-- The record that a new execution adds or overwrites. -/
theorem Tables.lookup_addExecution {t : Tables} {e : Execution}
    (hfits : (t.addExecution e).Fits) (key : Key) :
    (t.addExecution e).lookup key =
      if Key.execution (((t.addName e.name).addName e.trace).nameId e.name) e.startTs = key then
        some (((t.addName e.name).addName e.trace).record e)
      else ((t.addName e.name).addName e.trace).lookup key := by
  generalize hu : (t.addName e.name).addName e.trace = u
  have hname : e.name ∈ u.nameTable := by simp [← hu]
  have hufits : u.Fits := hu ▸ hfits
  have hat : ∀ id, (t.addExecution e).nameAt id = u.nameAt id := fun _ => hu ▸ rfl
  have hid : ∀ name, (t.addExecution e).nameId name = u.nameId name := fun _ => hu ▸ rfl
  have hadded : ∀ name startTs, (t.addExecution e).executionAt name startTs =
      if e.name = name ∧ e.startTs = startTs then some e else u.executionAt name startTs := by
    intro name startTs
    have hrest : u.executions = t.executions := hu ▸ rfl
    rw [executionAt, executionAt, hrest]
    simp only [addExecution, List.find?_cons]
    by_cases h : e.name = name ∧ e.startTs = startTs <;> simp [h]
  cases key with
  | execution id timestamp =>
      simp only [lookup, hat, hid, Key.execution.injEq]
      cases hidAt : u.nameAt id with
      | none =>
          have hne : ¬ (u.nameId e.name = id ∧ e.startTs = timestamp) := by
            rintro ⟨rfl, -⟩
            rw [nameAt_nameId hufits hname] at hidAt
            cases hidAt
          rw [if_neg hne]
          rfl
      | some name =>
          obtain ⟨hmem, rfl⟩ := nameId_of_nameAt hidAt
          simp only [Option.bind_some, hadded, nameId_inj hufits hname hmem]
          split <;> rfl
  | _ => exact hu ▸ rfl

theorem addExecution_does {t : Tables} {e : Execution} (hfits : (t.addExecution e).Fits) :
    Does (addExecution e) t (.ok ()) (t.addExecution e) := by
  have hfits' : ((t.addName e.name).addName e.trace).Fits := hfits
  have hid : ((t.addName e.name).addName e.trace).nameId e.name =
      (t.addName e.name).nameId e.name :=
    Tables.nameId_addName (by simp) _
  refine Does.bind (addFunctionName_does hfits'.of_addName)
    (Does.bind (addFunctionName_does hfits') ?_)
  intro db h
  refine ⟨_, DbM.runOn_modify _ db, hfits, ?_, h.functionNamesCache, h.stacksCache⟩
  intro key
  rw [Tables.lookup_addExecution hfits, ← h.store, ← hid, Store.get_put]
  rfl

end TibeeCompare.Db
