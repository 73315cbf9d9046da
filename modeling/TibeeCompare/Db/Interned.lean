import TibeeCompare.Db.Tables

/-!
What is interned stays interned.

The name or the stack that an identifier was given to is found again by all later calls,
whatever the database holds: nothing takes an entry out of the two tables that lead to
identifiers.
-/

namespace TibeeCompare.Db

/-- Keys that lead from a name or a stack to its identifier. -/
def Key.isReverse : Key → Bool
  | functionNameReverse _ | stackReverse _ => true
  | functionNameCount | stackCount | functionNameId _ | stackId _ | execution _ _ => false

/-- All identifiers that `db` gave out are found in `db'`. -/
def Keeps (db db' : Database) : Prop :=
  ∀ key, key.isReverse = true → ∀ value, db.store.get key = some value →
    db'.store.get key = some value

theorem Keeps.refl (db : Database) : Keeps db db := fun _ _ _ h => h

theorem Keeps.trans {db db' db'' : Database} (h : Keeps db db') (h' : Keeps db' db'') :
    Keeps db db'' := fun key hkey value hvalue => h' key hkey value (h key hkey value hvalue)

/-- Code that gives out identifiers: what it returned once, it returns ever after, and then
without a change to the database. -/
def Interns {α : Type} (x : DbM α) : Prop :=
  ∀ db a db', x.runOn db = (.ok a, db') →
    Keeps db db' ∧ ∀ later, Keeps db' later → x.runOn later = (.ok a, later)

theorem Interns.pure {α : Type} (a : α) : Interns (Pure.pure a : DbM α) := by
  intro db a' db' h
  cases h
  exact ⟨Keeps.refl db, fun later _ => rfl⟩

theorem Interns.bind {α β : Type} {x : DbM α} {next : α → DbM β} (hx : Interns x)
    (hnext : ∀ a, Interns (next a)) : Interns (x >>= next) := by
  intro db b db' h
  obtain ⟨a, mid, hfirst, hsecond⟩ := DbM.runOn_bind_eq_ok.mp h
  obtain ⟨hkeeps, hagain⟩ := hx db a mid hfirst
  obtain ⟨hkeeps', hagain'⟩ := hnext a mid b db' hsecond
  refine ⟨hkeeps.trans hkeeps', fun later hlater => ?_⟩
  rw [DbM.runOn_bind_ok (hagain later (hkeeps'.trans hlater))]
  exact hagain' later hlater

theorem Interns.foldlM {α β : Type} {f : β → α → DbM β} (hf : ∀ b a, Interns (f b a)) (l : List α)
    (b : β) : Interns (l.foldlM f b) := by
  induction l generalizing b with
  | nil => exact Interns.pure b
  | cons a l ih => exact (hf b a).bind ih

/-- Code that never throws. -/
def Returns {α : Type} (x : DbM α) : Prop := ∀ db, ∃ a db', x.runOn db = (.ok a, db')

theorem Returns.bind {α β : Type} {x : DbM α} {next : α → DbM β} (hx : Returns x)
    (hnext : ∀ a, Returns (next a)) : Returns (x >>= next) := by
  intro db
  obtain ⟨a, mid, hfirst⟩ := hx db
  rw [DbM.runOn_bind_ok hfirst]
  exact hnext a mid

theorem Returns.foldlM {α β : Type} {f : β → α → DbM β} (hf : ∀ b a, Returns (f b a)) (l : List α)
    (b : β) : Returns (l.foldlM f b) := by
  induction l generalizing b with
  | nil => exact fun db => ⟨b, db, rfl⟩
  | cons a l ih => exact (hf b a).bind ih

/-- A new entry that leads to an identifier, with the others of its batch: nothing is lost, and
the entry is there. -/
theorem keeps_write {db : Database} {key : Key} (hnew : db.store.get key = none)
    {idKey countKey : Key} (hid : idKey.isReverse = false) (hcount : countKey.isReverse = false)
    (next idValue value : Bytes) {db' : Database}
    (hstore : db'.store = db.store.write [(countKey, next), (idKey, idValue), (key, value)]) :
    Keeps db db' ∧ db'.store.get key = some value := by
  have hget : ∀ other, db'.store.get other = if key = other then some value
      else if idKey = other then some idValue
      else if countKey = other then some next else db.store.get other := by
    intro other
    simp only [hstore, Store.write, List.foldl_cons, List.foldl_nil, Store.get_put]
  refine ⟨?_, by rw [hget, if_pos rfl]⟩
  intro other hother otherValue hvalue
  have hne : key ≠ other := by
    rintro rfl
    rw [hnew] at hvalue
    cases hvalue
  have hne' : idKey ≠ other := by
    rintro rfl
    rw [hid] at hother
    cases hother
  have hne'' : countKey ≠ other := by
    rintro rfl
    rw [hcount] at hother
    cases hother
  rw [hget, if_neg hne, if_neg hne', if_neg hne'', hvalue]

/-- Code that looks up an identifier under a key, and puts a new one there if there is none. -/
theorem interns_of_key {x : DbM UInt32} {key : Key} (hkey : key.isReverse = true)
    (hknown : ∀ db idStr, db.store.get key = some idStr →
      x.runOn db = (.ok (stringToUint32 idStr), db))
    (hnew : ∀ db, db.store.get key = none → ∃ id db', x.runOn db = (.ok id, db') ∧
      Keeps db db' ∧ db'.store.get key = some (writeUInt32 id)) : Interns x := by
  intro db id db' h
  cases hget : db.store.get key with
  | some idStr =>
      rw [hknown db idStr hget] at h
      cases h
      exact ⟨Keeps.refl db, fun later hlater => hknown later idStr (hlater key hkey _ hget)⟩
  | none =>
      obtain ⟨id', db'', hrun, hkeeps, hput⟩ := hnew db hget
      rw [hrun] at h
      cases h
      refine ⟨hkeeps, fun later hlater => ?_⟩
      rw [hknown later _ (hlater key hkey _ hput), ← List.append_nil (writeUInt32 _),
        stringToUint32_write]

theorem addFunctionName_interns (name : Bytes) : Interns (addFunctionName name) := by
  refine interns_of_key (show (Key.functionNameReverse name).isReverse = true from rfl) ?_ ?_
  · intro db idStr hget
    rw [addFunctionName, DbM.runOn_get_bind, hget]
    rfl
  · intro db hget
    have hrun : ∃ names, (addFunctionName name).runOn db =
        (.ok (getIdentifier Key.functionNameCount db).1,
          { db with
            store := db.store.write [(getIdentifier Key.functionNameCount db).2,
              (Key.functionNameId (getIdentifier Key.functionNameCount db).1, name),
              (Key.functionNameReverse name,
                writeUInt32 (getIdentifier Key.functionNameCount db).1)]
            functionNamesCache := names }) := by
      rw [addFunctionName, DbM.runOn_get_bind, hget]
      exact ⟨_, rfl⟩
    obtain ⟨names, hrun⟩ := hrun
    exact ⟨_, _, hrun, keeps_write hget rfl rfl _ _ _ rfl⟩

theorem addStack_interns (stack : Stack) : Interns (addStack stack) := by
  refine interns_of_key (show (Key.stackReverse stack).isReverse = true from rfl) ?_ ?_
  · intro db idStr hget
    rw [addStack, DbM.runOn_get_bind, hget]
    rfl
  · intro db hget
    have hrun : ∃ cache, (addStack stack).runOn db =
        (.ok (getIdentifier Key.stackCount db).1,
          { db with
            store := db.store.write [(getIdentifier Key.stackCount db).2,
              (Key.stackId (getIdentifier Key.stackCount db).1, writeStack stack),
              (Key.stackReverse stack, writeUInt32 (getIdentifier Key.stackCount db).1)]
            stacksCache := cache }) := by
      rw [addStack, DbM.runOn_get_bind, hget]
      exact ⟨_, rfl⟩
    obtain ⟨cache, hrun⟩ := hrun
    exact ⟨_, _, hrun, keeps_write hget rfl rfl _ _ _ rfl⟩

theorem addFunctionName_returns (name : Bytes) : Returns (addFunctionName name) := by
  intro db
  rw [addFunctionName, DbM.runOn_get_bind]
  cases db.store.get (Key.functionNameReverse name) with
  | some idStr => exact ⟨_, _, rfl⟩
  | none => exact ⟨_, _, rfl⟩

theorem addStack_returns (stack : Stack) : Returns (addStack stack) := by
  intro db
  rw [addStack, DbM.runOn_get_bind]
  cases db.store.get (Key.stackReverse stack) with
  | some idStr => exact ⟨_, _, rfl⟩
  | none => exact ⟨_, _, rfl⟩

end TibeeCompare.Db
