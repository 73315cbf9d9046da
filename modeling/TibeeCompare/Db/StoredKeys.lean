import TibeeCompare.Db.Histories
import TibeeCompare.Db.Interned

/-!
What the keys of the store tell of its past.

No operation removes a key, and every name or stack that was added has one, also when its
identifier was given out before. So a database that holds few of them never ran out of
identifiers.
-/

namespace TibeeCompare.Db

/-- The code leaves every key in the store that was there. -/
def KeepsKeys {α : Type} (x : DbM α) : Prop :=
  ∀ (db : Database) (key : Key), (db.store.get key).isSome = true →
    ((x.runOn db).2.store.get key).isSome = true

/-- The code leaves the key in the store. -/
def Leaves {α : Type} (x : DbM α) (key : Key) : Prop :=
  ∀ db : Database, ((x.runOn db).2.store.get key).isSome = true

section Rules

variable {α β : Type} {x : DbM α} {next : α → DbM β} {key : Key}

theorem DbM.runOn_bind_cases (x : DbM α) (next : α → DbM β) (db : Database) :
    (∃ a mid, x.runOn db = (.ok a, mid) ∧ runOn (x >>= next) db = runOn (next a) mid) ∨
      ∃ e mid, x.runOn db = (.error e, mid) ∧ runOn (x >>= next) db = (.error e, mid) := by
  cases hrun : x.runOn db with
  | mk r mid =>
      cases r with
      | ok a => exact .inl ⟨a, mid, rfl, DbM.runOn_bind_ok hrun⟩
      | error e => exact .inr ⟨e, mid, rfl, DbM.runOn_bind_error hrun⟩

/-- What the first part leaves in the store, what comes next keeps there. -/
theorem isSome_bind (hnext : ∀ a, KeepsKeys (next a)) {db : Database}
    (hmid : ((x.runOn db).2.store.get key).isSome = true) :
    (((x >>= next).runOn db).2.store.get key).isSome = true := by
  rcases DbM.runOn_bind_cases x next db with ⟨a, mid, hrun, hbind⟩ | ⟨e, mid, hrun, hbind⟩
  · rw [hrun] at hmid
    rw [hbind]
    exact hnext a mid key hmid
  · rw [hrun] at hmid
    rw [hbind]
    exact hmid

theorem KeepsKeys.bind (hx : KeepsKeys x) (hnext : ∀ a, KeepsKeys (next a)) :
    KeepsKeys (x >>= next) :=
  fun db key hkey => isSome_bind hnext (hx db key hkey)

theorem Leaves.bind_left (hx : Leaves x key) (hnext : ∀ a, KeepsKeys (next a)) :
    Leaves (x >>= next) key :=
  fun db => isSome_bind hnext (hx db)

/-- A first part that does not throw. -/
theorem Leaves.bind_right (hx : Returns x) (hnext : ∀ a, Leaves (next a) key) :
    Leaves (x >>= next) key := by
  intro db
  obtain ⟨a, mid, hrun⟩ := hx db
  rw [DbM.runOn_bind_ok hrun]
  exact hnext a mid

theorem keepsKeys_pure (a : α) : KeepsKeys (pure a : DbM α) := fun _ _ hkey => hkey

theorem keepsKeys_throw (e : FatalError) : KeepsKeys (throw e : DbM α) := fun _ _ hkey => hkey

end Rules

theorem Store.isSome_get_put {s : Store} {key : Key} (h : (s.get key).isSome = true) (key' : Key)
    (value : Bytes) : ((s.put key' value).get key).isSome = true := by
  rw [Store.get_put]
  split
  · rfl
  · exact h

theorem Store.isSome_get_write {s : Store} {key : Key} (h : (s.get key).isSome = true)
    (batch : List (Key × Bytes)) : ((s.write batch).get key).isSome = true := by
  unfold Store.write
  induction batch generalizing s with
  | nil => exact h
  | cons entry batch ih => exact ih (Store.isSome_get_put h entry.1 entry.2)

/-! ### The operations -/

theorem keepsKeys_getFunctionName (id : FunctionNameId) : KeepsKeys (getFunctionName id) := by
  intro db key hkey
  rw [getFunctionName, DbM.runOn_get_bind]
  split
  · exact hkey
  · split
    · exact hkey
    · exact hkey

theorem keepsKeys_addFunctionName (name : Bytes) : KeepsKeys (addFunctionName name) := by
  intro db key hkey
  rw [addFunctionName, DbM.runOn_get_bind]
  split
  · exact hkey
  · exact Store.isSome_get_write hkey _

theorem leaves_addFunctionName (name : Bytes) :
    Leaves (addFunctionName name) (.functionNameReverse name) := by
  intro db
  rw [addFunctionName, DbM.runOn_get_bind]
  split
  · next idStr hget =>
      rw [DbM.runOn_pure, hget]
      rfl
  · exact congrArg Option.isSome ((Store.get_put _ _ _ _).trans (if_pos rfl))

theorem keepsKeys_getStack (id : StackId) : KeepsKeys (getStack id) := by
  intro db key hkey
  rw [getStack, DbM.runOn_get_bind]
  split
  · exact hkey
  · split
    · exact hkey
    · split
      · exact hkey
      · exact hkey

theorem keepsKeys_addStack (stack : Stack) : KeepsKeys (addStack stack) := by
  intro db key hkey
  rw [addStack, DbM.runOn_get_bind]
  split
  · exact hkey
  · exact Store.isSome_get_write hkey _

theorem leaves_addStack (stack : Stack) : Leaves (addStack stack) (.stackReverse stack) := by
  intro db
  rw [addStack, DbM.runOn_get_bind]
  split
  · next idStr hget =>
      rw [DbM.runOn_pure, hget]
      rfl
  · exact congrArg Option.isSome ((Store.get_put _ _ _ _).trans (if_pos rfl))

theorem keepsKeys_putExecution (key : Key) (value : Bytes) :
    KeepsKeys (modify fun db => { db with store := db.store.put key value }) :=
  fun _ _ hkey => Store.isSome_get_put hkey key value

theorem keepsKeys_addExecution (execution : Execution) : KeepsKeys (addExecution execution) :=
  (keepsKeys_addFunctionName _).bind fun _ => (keepsKeys_addFunctionName _).bind fun _ =>
    keepsKeys_putExecution _ _

theorem leaves_addExecution (execution : Execution) :
    Leaves (addExecution execution) (.functionNameReverse execution.name) ∧
      Leaves (addExecution execution) (.functionNameReverse execution.trace) := by
  constructor
  · exact (leaves_addFunctionName _).bind_left fun _ =>
      (keepsKeys_addFunctionName _).bind fun _ => keepsKeys_putExecution _ _
  · exact .bind_right (addFunctionName_returns _) fun _ =>
      (leaves_addFunctionName _).bind_left fun _ => keepsKeys_putExecution _ _

theorem keepsKeys_readExecution (value : Bytes) : KeepsKeys (readExecution value) := by
  unfold readExecution
  split
  · exact keepsKeys_throw _
  · refine (keepsKeys_getFunctionName _).bind fun name =>
      (keepsKeys_getFunctionName _).bind fun trace => ?_
    split
    · exact keepsKeys_throw _
    · split
      · exact keepsKeys_throw _
      · exact keepsKeys_pure _

theorem keepsKeys_readExecutions (records : List (Key × Bytes)) :
    KeepsKeys (readExecutions records) := by
  induction records with
  | nil => exact keepsKeys_pure _
  | cons record records ih =>
      exact (keepsKeys_readExecution _).bind fun _ => ih.bind fun _ => keepsKeys_pure _

theorem keepsKeys_readRange (id : FunctionNameId) :
    KeepsKeys (do
      let db ← get
      readExecutions (db.store.scan (Key.execution id 0) (Key.execution id (-1)))) :=
  fun db key hkey => keepsKeys_readExecutions _ db key hkey

/-! ### Histories -/

theorem Op.keepsKeys (op : Op) : KeepsKeys op.run := by
  cases op with
  | addFunctionName name => exact (keepsKeys_addFunctionName _).bind fun _ => keepsKeys_pure _
  | getFunctionName id => exact (keepsKeys_getFunctionName _).bind fun _ => keepsKeys_pure _
  | addStack stack => exact (keepsKeys_addStack _).bind fun _ => keepsKeys_pure _
  | getStack id => exact (keepsKeys_getStack _).bind fun _ => keepsKeys_pure _
  | addExecution execution => exact (keepsKeys_addExecution _).bind fun _ => keepsKeys_pure _
  | enumerateExecutions name =>
      exact ((keepsKeys_addFunctionName _).bind keepsKeys_readRange).bind fun _ =>
        keepsKeys_pure _
  | reopen => exact fun db key hkey => hkey

/-- The names that an operation adds have keys behind it. -/
theorem Op.leaves_name {t : Tables} {op : Op} {name : Bytes}
    (h : name ∈ (t.apply op).nameTable) :
    name ∈ t.nameTable ∨ Leaves op.run (.functionNameReverse name) := by
  cases op with
  | addFunctionName other =>
      refine (Tables.mem_addName.mp h).imp_right fun hname => ?_
      rw [hname]
      exact (leaves_addFunctionName _).bind_left fun _ => keepsKeys_pure _
  | addExecution execution =>
      have hadded : name ∈ ((t.addName execution.name).addName execution.trace).nameTable := h
      rcases Tables.mem_addName.mp hadded with hname | hname
      · refine (Tables.mem_addName.mp hname).imp_right fun hname => ?_
        rw [hname]
        exact (leaves_addExecution execution).1.bind_left fun _ => keepsKeys_pure _
      · rw [hname]
        exact .inr ((leaves_addExecution execution).2.bind_left fun _ => keepsKeys_pure _)
  | enumerateExecutions other =>
      refine (Tables.mem_addName.mp h).imp_right fun hname => ?_
      rw [hname]
      exact ((leaves_addFunctionName _).bind_left keepsKeys_readRange).bind_left fun _ =>
        keepsKeys_pure _
  | addStack _ | getFunctionName _ | getStack _ | reopen => exact .inl h

theorem Op.leaves_stack {t : Tables} {op : Op} {stack : Stack}
    (h : stack ∈ (t.apply op).stackTable) :
    stack ∈ t.stackTable ∨ Leaves op.run (.stackReverse stack) := by
  cases op with
  | addStack other =>
      refine (Tables.mem_addStack.mp h).imp_right fun hstack => ?_
      rw [hstack]
      exact (leaves_addStack _).bind_left fun _ => keepsKeys_pure _
  | addFunctionName _ | addExecution _ | enumerateExecutions _ | getFunctionName _ | getStack _
  | reopen => exact .inl h

/-- What no operation makes true without leaving a key has the key after a history. -/
theorem key_after {key : Key} {p : Tables → Prop} (hempty : ¬ p {})
    (hop : ∀ (t : Tables) (op : Op), p (t.apply op) → p t ∨ Leaves op.run key)
    (history : List Op) (h : p (tables history)) :
    ((after history).store.get key).isSome = true := by
  induction history using List.reverseRecOn with
  | nil => exact absurd h hempty
  | append_singleton history op ih =>
      rw [tables_append] at h
      rw [after_append]
      rcases hop (tables history) op h with hbefore | hleaves
      · exact op.keepsKeys _ _ (ih hbefore)
      · exact hleaves _

theorem name_key_after {history : List Op} {name : Bytes}
    (h : name ∈ (tables history).nameTable) :
    ((after history).store.get (.functionNameReverse name)).isSome = true :=
  key_after (p := fun t => name ∈ t.nameTable) List.not_mem_nil (fun _ _ => Op.leaves_name) history
    h

theorem stack_key_after {history : List Op} {stack : Stack}
    (h : stack ∈ (tables history).stackTable) :
    ((after history).store.get (.stackReverse stack)).isSome = true :=
  key_after (p := fun t => stack ∈ t.stackTable) List.not_mem_nil (fun _ _ => Op.leaves_stack)
    history h

/-! ### Room for more -/

def Key.name? : Key → Option Bytes
  | functionNameReverse name => some name
  | _ => none

def Key.stack? : Key → Option Stack
  | stackReverse stack => some stack
  | _ => none

namespace Database

variable (db : Database)

/-- The names that have a key. -/
def storedNames : List Bytes := db.store.toList.filterMap fun entry => entry.1.name?

def storedStacks : List Stack := db.store.toList.filterMap fun entry => entry.1.stack?

/-- There are identifiers for the names, for one more, and for the stacks. -/
def HasRoom : Prop := db.storedNames.length + 1 < 2 ^ 32 ∧ db.storedStacks.length < 2 ^ 32

instance : Decidable db.HasRoom := inferInstanceAs (Decidable (_ ∧ _))

variable {db}

theorem mem_storedNames {name : Bytes}
    (h : (db.store.get (.functionNameReverse name)).isSome = true) : name ∈ db.storedNames := by
  obtain ⟨value, hvalue⟩ := Option.isSome_iff_exists.mp h
  have hentry : (Key.functionNameReverse name, value) ∈ db.store.toList :=
    Std.TreeMap.mem_toList_iff_getElem?_eq_some.mpr hvalue
  exact List.mem_filterMap.mpr ⟨_, hentry, rfl⟩

theorem mem_storedStacks {stack : Stack}
    (h : (db.store.get (.stackReverse stack)).isSome = true) : stack ∈ db.storedStacks := by
  obtain ⟨value, hvalue⟩ := Option.isSome_iff_exists.mp h
  have hentry : (Key.stackReverse stack, value) ∈ db.store.toList :=
    Std.TreeMap.mem_toList_iff_getElem?_eq_some.mpr hvalue
  exact List.mem_filterMap.mpr ⟨_, hentry, rfl⟩

end Database

theorem Tables.length_addName_le (t : Tables) (name : Bytes) :
    (t.addName name).nameTable.length ≤ t.nameTable.length + 1 := by
  by_cases h : name ∈ t.nameTable
  · rw [Tables.addName_of_mem h]
    exact Nat.le_succ _
  · show (Interning.intern t.nameTable name).length ≤ _
    rw [Interning.intern_of_notMem h, List.length_append, List.length_singleton]

/-- A database with room did not run out of identifiers, and does not for one more name. -/
theorem fits_of_hasRoom {history : List Op} (h : (after history).HasRoom) (name : Bytes) :
    ((tables history).addName name).Fits := by
  have hnames : (tables history).nameTable.length ≤ (after history).storedNames.length :=
    (List.subperm_of_subset (tables history).nameTable_nodup fun _ hname =>
      Database.mem_storedNames (name_key_after hname)).length_le
  have hstacks : (tables history).stackTable.length ≤ (after history).storedStacks.length :=
    (List.subperm_of_subset (tables history).stackTable_nodup fun _ hstack =>
      Database.mem_storedStacks (stack_key_after hstack)).length_le
  have hname := (tables history).length_addName_le name
  obtain ⟨hroom, hroom'⟩ := h
  exact ⟨by omega, hstacks.trans_lt hroom'⟩

end TibeeCompare.Db
