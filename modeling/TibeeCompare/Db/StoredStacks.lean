import TibeeCompare.Db.Database
import TibeeCompare.Lib.Forests

/-!
The stacks that `GetStack` finds.

A stack is in the cache, or in the store with its right size; what is found does not change
when it is put into the cache. The bottoms of a stack are a path of a forest.
-/

namespace TibeeCompare.Db

open Forests

/-- The stack that `GetStack` returns, or `none` where it throws. -/
def storedStack (db : Database) (id : StackId) : Option Stack :=
  (db.stacksCache id).or ((db.store.get (Key.stackId id)).bind fun stackStr =>
    if stackStr.length ≠ 8 then none else some (readStack stackStr))

/-- What is put into the cache is what is found without it. -/
theorem storedStack_update {db : Database} {id : StackId} {stack : Stack}
    (h : storedStack db id = some stack) :
    storedStack { db with stacksCache := Function.update db.stacksCache id (some stack) } =
      storedStack db := by
  funext id'
  by_cases hid : id' = id
  · subst hid
    rw [h, storedStack]
    dsimp only
    rw [Function.update_self, Option.some_or]
  · rw [storedStack, storedStack]
    dsimp only
    rw [Function.update_of_ne hid]

theorem getStack_cases (db : Database) (id : StackId) :
    (∃ stack db', storedStack db id = some stack ∧ (getStack id).runOn db = (.ok stack, db') ∧
        storedStack db' = storedStack db) ∨
      storedStack db id = none ∧ ∃ e, (getStack id).runOn db = (.error e, db) := by
  rw [getStack, DbM.runOn_get_bind]
  cases hcache : db.stacksCache id with
  | some stack =>
      refine Or.inl ⟨stack, db, ?_, rfl, rfl⟩
      rw [storedStack, hcache, Option.some_or]
  | none =>
      cases hget : db.store.get (Key.stackId id) with
      | none =>
          refine Or.inr ⟨?_, _, rfl⟩
          rw [storedStack, hcache, hget, Option.none_or, Option.bind_none]
      | some stackStr =>
          by_cases hlength : stackStr.length ≠ 8
          · refine Or.inr ⟨?_, "Read a stack with an incorrect size.", ?_⟩
            · rw [storedStack, hcache, hget, Option.none_or, Option.bind_some, if_pos hlength]
            · simp only [if_pos hlength]
              rfl
          · have hstored : storedStack db id = some (readStack stackStr) := by
              rw [storedStack, hcache, hget, Option.none_or, Option.bind_some, if_neg hlength]
            refine Or.inl ⟨readStack stackStr, _, hstored, ?_, storedStack_update hstored⟩
            simp only [if_neg hlength]
            rfl

/-! ### Bottoms -/

/-- The stack below a stack, if there is one. -/
def bottomOf (stored : StackId → Option Stack) (id : StackId) : Option StackId :=
  if id = kEmptyStackId then none else (stored id).map Stack.bottom

/-- The bottom of a stack is empty, or stored and smaller. -/
def BottomsSmaller (stored : StackId → Option Stack) : Prop :=
  ∀ id stack, id ≠ kEmptyStackId → stored id = some stack →
    stack.bottom = kEmptyStackId ∨ stack.bottom < id ∧ ∃ below, stored stack.bottom = some below

/-- A stack and those below it, down to the empty one. -/
def stackPath (stored : StackId → Option Stack) (id : StackId) : List StackId :=
  pathTo (bottomOf stored) id.toNat id

theorem BottomsSmaller.bottom_lt {stored : StackId → Option Stack} (h : BottomsSmaller stored)
    {id : StackId} {stack : Stack} (hid : id ≠ kEmptyStackId) (hstack : stored id = some stack) :
    stack.bottom.toNat < id.toNat := by
  have hpos : 0 < id.toNat := Nat.pos_of_ne_zero fun hzero => hid (UInt32.toNat_inj.mp hzero)
  rcases h id stack hid hstack with hempty | ⟨hlt, -⟩
  · rw [hempty]
    exact hpos
  · exact UInt32.lt_iff_toNat_lt.mp hlt

theorem BottomsSmaller.bottomOf_lt {stored : StackId → Option Stack} (h : BottomsSmaller stored)
    (id b : StackId) (hb : bottomOf stored id = some b) : b.toNat < id.toNat := by
  rw [bottomOf] at hb
  split at hb
  · cases hb
  · next hid =>
      obtain ⟨stack, hstack, rfl⟩ := Option.map_eq_some_iff.mp hb
      exact h.bottom_lt hid hstack

end TibeeCompare.Db
