import TibeeCompare.Db.Histories
import TibeeCompare.Db.StoredStacks

/-!
What the stacks of the tables spell.

A stack is put on one that is there already, so that bottoms have smaller identifiers and the
way down ends at the empty stack. As the tables hold no stack twice, what a stack spells
tells its identifier.
-/

namespace TibeeCompare.Db

open Interning

/-! ### The functions of a stack -/

/-- The functions of a stack, from its top to its bottom. -/
inductive Spells (stackAt : StackId → Option Stack) : StackId → List FunctionNameId → Prop
  | empty : Spells stackAt kEmptyStackId []
  | push {id : StackId} {stack : Stack} {functions : List FunctionNameId}
      (hne : id ≠ kEmptyStackId) (hat : stackAt id = some stack)
      (h : Spells stackAt stack.bottom functions) : Spells stackAt id (stack.function :: functions)

/-- The empty stack, or one that is there. -/
def Known (stackAt : StackId → Option Stack) (id : StackId) : Prop :=
  id = kEmptyStackId ∨ ∃ stack, stackAt id = some stack

/-- The name that `GetFunctionName` returns, or `none` where it throws. -/
def storedName (db : Database) (id : FunctionNameId) : Option Bytes :=
  (db.functionNamesCache id).or (db.store.get (Key.functionNameId id))

/-- The names of the functions of a stack, from its top to its bottom. -/
def Decodes (stackAt : StackId → Option Stack) (nameAt : FunctionNameId → Option Bytes)
    (id : StackId) (names : List Bytes) : Prop :=
  ∃ functions, Spells stackAt id functions ∧
    List.Forall₂ (fun function name => nameAt function = some name) functions names

namespace Spells

variable {stackAt stackAt' : StackId → Option Stack} {id : StackId}
  {functions functions' : List FunctionNameId}

theorem unique (h : Spells stackAt id functions) (h' : Spells stackAt id functions') :
    functions = functions' := by
  induction h generalizing functions' with
  | empty =>
      cases h' with
      | empty => rfl
      | push hne => exact absurd rfl hne
  | push hne hat _ ih =>
      cases h' with
      | empty => exact absurd rfl hne
      | push _ hat' h' =>
          rw [hat] at hat'
          cases hat'
          rw [ih h']

theorem mono (h : Spells stackAt id functions)
    (hgrows : ∀ id stack, stackAt id = some stack → stackAt' id = some stack) :
    Spells stackAt' id functions := by
  induction h with
  | empty => exact .empty
  | push hne hat _ ih => exact .push hne (hgrows _ _ hat) ih

theorem eq_empty (h : Spells stackAt id []) : id = kEmptyStackId := by
  cases h
  rfl

theorem of_cons {function : FunctionNameId} (h : Spells stackAt id (function :: functions)) :
    ∃ bottom, stackAt id = some ⟨function, bottom⟩ ∧ Spells stackAt bottom functions := by
  generalize hall : function :: functions = all at h
  cases h with
  | empty => cases hall
  | @push _ stack _ _ hat h =>
      cases hall
      exact ⟨stack.bottom, hat, h⟩

/-- The stack below some functions. -/
theorem of_append (h : Spells stackAt id (functions ++ functions')) :
    ∃ bottom, Spells stackAt bottom functions' := by
  induction functions generalizing id with
  | nil => exact ⟨id, h⟩
  | cons function functions ih =>
      obtain ⟨bottom, -, h⟩ := h.of_cons
      exact ih h

theorem known (h : Spells stackAt id functions) : Known stackAt id := by
  cases h with
  | empty => exact Or.inl rfl
  | push _ hat _ => exact Or.inr ⟨_, hat⟩

end Spells

/-! ### Tables -/

theorem Represents.storedStack_eq {db : Database} {t : Tables} (h : Represents db t) :
    storedStack db = t.stackAt := by
  funext id
  rw [storedStack]
  cases hcache : db.stacksCache id with
  | some stack => rw [Option.some_or, h.stacksCache id stack hcache]
  | none =>
      have hstore : db.store.get (.stackId id) = (t.stackAt id).map writeStack := h.store _
      rw [Option.none_or, hstore]
      cases t.stackAt id with
      | none => rfl
      | some stack =>
          have hlength : ¬ (writeStack stack).length ≠ 8 := by simp
          rw [Option.map_some, Option.bind_some, if_neg hlength, readStack_writeStack]

theorem Represents.storedName_eq {db : Database} {t : Tables} (h : Represents db t) :
    storedName db = t.nameAt := by
  funext id
  rw [storedName]
  cases hcache : db.functionNamesCache id with
  | some name => rw [Option.some_or, h.functionNamesCache id name hcache]
  | none => exact h.store _

/-- The tables have all names and stacks of others, under the same identifiers. -/
structure Grows (t t' : Tables) : Prop where
  names : t.nameTable <+: t'.nameTable
  stackIds : t.stackTable <+: t'.stackTable

theorem Grows.refl (t : Tables) : Grows t t := ⟨List.prefix_rfl, List.prefix_rfl⟩

theorem Grows.trans {t t' t'' : Tables} (h : Grows t t') (h' : Grows t' t'') : Grows t t'' :=
  ⟨h.names.trans h'.names, h.stackIds.trans h'.stackIds⟩

theorem Grows.fits {t t' : Tables} (h : Grows t t') (hfits : t'.Fits) : t.Fits :=
  ⟨h.names.length_le.trans_lt hfits.1, h.stackIds.length_le.trans_lt hfits.2⟩

theorem Grows.spells {t t' : Tables} (h : Grows t t') {id : StackId}
    {functions : List FunctionNameId} (hspells : Spells t.stackAt id functions) :
    Spells t'.stackAt id functions :=
  hspells.mono fun _ _ => valueAt_of_grown h.stackIds

theorem grows_addName (t : Tables) (name : Bytes) : Grows t (t.addName name) :=
  ⟨prefix_intern _ _, List.prefix_rfl⟩

theorem grows_addStack (t : Tables) (stack : Stack) : Grows t (t.addStack stack) :=
  ⟨List.prefix_rfl, prefix_intern _ _⟩

theorem grows_apply (t : Tables) (op : Op) : Grows t (t.apply op) := by
  cases op with
  | addFunctionName name => exact grows_addName t name
  | addStack stack => exact grows_addStack t stack
  | addExecution e =>
      exact ⟨(grows_addName t e.name).names.trans (prefix_intern _ _), List.prefix_rfl⟩
  | enumerateExecutions name => exact grows_addName t name
  | getFunctionName _ | getStack _ | reopen => exact Grows.refl t

namespace Tables

theorem known_iff {t : Tables} {id : StackId} :
    Known t.stackAt id ↔ id.toNat ≤ t.stackTable.length := by
  constructor
  · rintro (rfl | ⟨stack, hstack⟩)
    · exact Nat.zero_le _
    · obtain ⟨hmem, hnumber⟩ := number_of_valueAt t.stackTable_nodup hstack
      rw [← hnumber]
      exact number_le hmem
  · intro hle
    by_cases hid : id = kEmptyStackId
    · exact Or.inl hid
    · obtain ⟨n, hn⟩ := Nat.exists_eq_succ_of_ne_zero
        fun hzero : id.toNat = 0 => hid (UInt32.toNat_inj.mp hzero)
      refine Or.inr ⟨t.stackTable[n], ?_⟩
      rw [stackAt, hn]
      exact List.getElem?_eq_getElem _

/-- Each stack has a function with a name, and a bottom with a smaller identifier. -/
structure WellFormed (t : Tables) : Prop where
  bottom_lt : ∀ id stack, t.stackAt id = some stack → stack.bottom.toNat < id.toNat
  named : ∀ id stack, t.stackAt id = some stack → ∃ name, t.nameAt stack.function = some name

theorem wellFormed_empty : WellFormed {} := by
  constructor <;>
    intro id stack h <;>
    rw [stackAt, valueAt_nil] at h <;>
    cases h

namespace WellFormed

variable {t : Tables}

theorem known_bottom (h : t.WellFormed) {id : StackId} {stack : Stack}
    (hstack : t.stackAt id = some stack) : Known t.stackAt stack.bottom :=
  known_iff.mpr ((h.bottom_lt id stack hstack).le.trans
    (known_iff.mp (Or.inr ⟨stack, hstack⟩)))

theorem bottomsSmaller (h : t.WellFormed) : BottomsSmaller t.stackAt := by
  intro id stack _ hstack
  exact (h.known_bottom hstack).imp_right fun hbelow =>
    ⟨UInt32.lt_iff_toNat_lt.mpr (h.bottom_lt id stack hstack), hbelow⟩

/-- A stack has no more functions than its identifier says. -/
theorem exists_spells (h : t.WellFormed) {id : StackId} (hid : Known t.stackAt id) :
    ∃ functions, Spells t.stackAt id functions ∧ functions.length ≤ id.toNat ∧
      ∀ function ∈ functions, ∃ name, t.nameAt function = some name := by
  induction hn : id.toNat using Nat.strong_induction_on generalizing id with
  | _ n ih =>
      subst hn
      by_cases hempty : id = kEmptyStackId
      · subst hempty
        exact ⟨[], .empty, Nat.zero_le _, fun function hmem => absurd hmem List.not_mem_nil⟩
      · obtain ⟨stack, hstack⟩ := hid.resolve_left hempty
        have hlt := h.bottom_lt id stack hstack
        obtain ⟨functions, hspells, hlength, hnamed⟩ := ih _ hlt (h.known_bottom hstack) rfl
        refine ⟨stack.function :: functions, .push hempty hstack hspells, ?_, ?_⟩
        · rw [List.length_cons]
          omega
        · exact List.forall_mem_cons.mpr ⟨h.named id stack hstack, hnamed⟩

/-- Names may be added. -/
theorem of_grows {t' : Tables} (h : t.WellFormed) (hgrows : Grows t t')
    (hstacks : t'.stackTable = t.stackTable) : t'.WellFormed := by
  have hat : t'.stackAt = t.stackAt := by
    funext id
    rw [stackAt, stackAt, hstacks]
  constructor
  · rw [hat]
    exact h.bottom_lt
  · rw [hat]
    intro id stack hstack
    obtain ⟨name, hname⟩ := h.named id stack hstack
    exact ⟨name, valueAt_of_grown hgrows.names hname⟩

theorem addName (h : t.WellFormed) (name : Bytes) : (t.addName name).WellFormed :=
  h.of_grows (grows_addName t name) rfl

theorem addStack (h : t.WellFormed) {stack : Stack}
    (hnamed : ∃ name, t.nameAt stack.function = some name)
    (hbottom : Known t.stackAt stack.bottom) :
    (t.addStack stack).WellFormed := by
  by_cases hmem : stack ∈ t.stackTable
  · rwa [addStack_of_mem hmem]
  · have hat : ∀ id, (t.addStack stack).stackAt id =
        if id.toNat = t.stackTable.length + 1 then some stack else t.stackAt id :=
      fun id => valueAt_intern_of_notMem hmem id.toNat
    constructor
    · intro id stack' hstack
      rw [hat] at hstack
      split at hstack
      · next hid =>
          cases hstack
          exact hid ▸ Nat.lt_succ_of_le (known_iff.mp hbottom)
      · exact h.bottom_lt id stack' hstack
    · intro id stack' hstack
      rw [hat] at hstack
      split at hstack
      · cases hstack
        exact hnamed
      · exact h.named id stack' hstack

end WellFormed

/-- A stack on a bottom that no stack is behind. -/
theorem WellFormed.notMem {t : Tables} (h : t.WellFormed) (hfits : t.Fits) {stack : Stack}
    (hbottom : t.stackTable.length ≤ stack.bottom.toNat) : stack ∉ t.stackTable := by
  intro hmem
  have hlt := h.bottom_lt _ stack (stackAt_stackId hfits hmem)
  rw [toNat_stackId hfits hmem] at hlt
  exact absurd (number_le hmem) (by omega)

theorem stackId_of_stackAt {t : Tables} {id : StackId} {stack : Stack}
    (h : t.stackAt id = some stack) : stack ∈ t.stackTable ∧ t.stackId stack = id := by
  obtain ⟨hmem, hnumber⟩ := number_of_valueAt t.stackTable_nodup h
  exact ⟨hmem, by rw [stackId, hnumber, UInt32.ofNat_toNat]⟩

/-- What a stack spells tells its identifier. -/
theorem spells_injective {t : Tables} {id id' : StackId} {functions : List FunctionNameId}
    (h : Spells t.stackAt id functions) (h' : Spells t.stackAt id' functions) : id = id' := by
  induction h generalizing id' with
  | empty => exact h'.eq_empty.symm
  | @push id stack functions _ hat _ ih =>
      obtain ⟨bottom, hat', h'⟩ := h'.of_cons
      rw [← ih h'] at hat'
      rw [← (stackId_of_stackAt hat).2, ← (stackId_of_stackAt hat').2]

end Tables

end TibeeCompare.Db
