import TibeeCompare.Db.StackTables
import TibeeCompare.Stacks.StacksBuilder

/-!
Stacks that are put on one another.

A step takes tables with a stack to tables with the stack above it. The functions of a list
are put on a stack one after the other, so that the last one is on top: an identifier of a
list of names, and a concatenation, are such runs of steps.
-/

namespace TibeeCompare.Db

open Interning Stacks

namespace Tables

/-- A function is put on a stack. -/
def push (r : Tables × StackId) (function : FunctionNameId) : Tables × StackId :=
  (r.1.addStack ⟨function, r.2⟩, (r.1.addStack ⟨function, r.2⟩).stackId ⟨function, r.2⟩)

def pushName (r : Tables × StackId) (name : Bytes) : Tables × StackId :=
  push (r.1.addName name, r.2) ((r.1.addName name).nameId name)

/-- The tables after `GetStackIdentifier`, and what it returns. -/
def identify (t : Tables) (names : List Bytes) : Tables × StackId :=
  (if names = [] then [str "empty"] else names.reverse).foldl pushName (t, kEmptyStackId)

/-- The functions of a stack from its top to its bottom, down to a depth. -/
def functionsOf (t : Tables) : ℕ → StackId → List FunctionNameId
  | 0, _ => []
  | depth + 1, id =>
      if id = kEmptyStackId then []
      else (t.stackAt id).elim [] fun stack => stack.function :: functionsOf t depth stack.bottom

/-- The tables after `ConcatenateStacks`, and what it returns. -/
def concatenate (t : Tables) (bottom top : StackId) : Tables × StackId :=
  (t.functionsOf top.toNat top).reverse.foldl push (t, bottom)

/-! ### Growth -/

theorem grows_push (r : Tables × StackId) (function : FunctionNameId) :
    Grows r.1 (push r function).1 := grows_addStack r.1 _

theorem grows_pushName (r : Tables × StackId) (name : Bytes) : Grows r.1 (pushName r name).1 :=
  (grows_addName r.1 name).trans (grows_push (r.1.addName name, r.2) _)

theorem grows_foldl {α : Type} {step : Tables × StackId → α → Tables × StackId}
    (hgrows : ∀ r a, Grows r.1 (step r a).1) (l : List α) (r : Tables × StackId) :
    Grows r.1 (l.foldl step r).1 := by
  induction l generalizing r with
  | nil => exact Grows.refl _
  | cons a l ih => exact (hgrows r a).trans (ih _)

theorem grows_identify (t : Tables) (names : List Bytes) : Grows t (t.identify names).1 :=
  grows_foldl grows_pushName _ (t, kEmptyStackId)

theorem grows_concatenate (t : Tables) (bottom top : StackId) :
    Grows t (t.concatenate bottom top).1 := grows_foldl grows_push _ (t, bottom)

/-! ### What a run of steps spells -/

/-- Well-formed tables, with the functions of a stack. -/
structure Holds (r : Tables × StackId) (functions : List FunctionNameId) : Prop where
  wellFormed : r.1.WellFormed
  spells : Spells r.1.stackAt r.2 functions

theorem Holds.push {r : Tables × StackId} {functions : List FunctionNameId}
    (h : Holds r functions) {function : FunctionNameId}
    (hnamed : ∃ name, r.1.nameAt function = some name) (hfits : (push r function).1.Fits) :
    Holds (push r function) (function :: functions) := by
  have hat : (r.1.addStack ⟨function, r.2⟩).stackAt (Tables.push r function).2 =
      some ⟨function, r.2⟩ := stackAt_stackId hfits (mem_addStack.mpr (Or.inr rfl))
  refine ⟨h.wellFormed.addStack hnamed h.spells.known, .push ?_ hat ?_⟩
  · intro hempty
    rw [hempty] at hat
    cases hat
  · exact (grows_push r function).spells h.spells

theorem nameAt_of_grows {t t' : Tables} (h : Grows t t') {id : FunctionNameId} {name : Bytes}
    (hname : t.nameAt id = some name) : t'.nameAt id = some name := valueAt_of_grown h.names hname

theorem Holds.foldl_push {functions' : List FunctionNameId} {r : Tables × StackId}
    {functions : List FunctionNameId} (h : Holds r functions)
    (hnamed : ∀ function ∈ functions', ∃ name, r.1.nameAt function = some name)
    (hfits : (functions'.foldl Tables.push r).1.Fits) :
    Holds (functions'.foldl Tables.push r) (functions'.reverse ++ functions) := by
  induction functions' generalizing r functions with
  | nil => exact h
  | cons function functions' ih =>
      have hgrows := grows_push r function
      have hpush := h.push (hnamed function List.mem_cons_self)
        ((grows_foldl grows_push functions' _).fits hfits)
      rw [List.reverse_cons, List.append_assoc]
      refine ih hpush (fun function' hmem => ?_) hfits
      obtain ⟨name, hname⟩ := hnamed function' (List.mem_cons_of_mem _ hmem)
      exact ⟨name, nameAt_of_grows hgrows hname⟩

/-- Functions that are on a stack already are found there. -/
theorem foldl_push_of_spells {t : Tables} {functions functions' : List FunctionNameId}
    {bottom full : StackId} (hbottom : Spells t.stackAt bottom functions)
    (hfull : Spells t.stackAt full (functions'.reverse ++ functions)) :
    functions'.foldl push (t, bottom) = (t, full) := by
  induction functions' generalizing bottom functions with
  | nil => exact congrArg (Prod.mk t) (spells_injective hbottom hfull)
  | cons function functions' ih =>
      rw [List.reverse_cons, List.append_assoc] at hfull
      obtain ⟨above, habove⟩ := hfull.of_append
      obtain ⟨bottom', hat, hbottom'⟩ := habove.of_cons
      obtain rfl := spells_injective hbottom' hbottom
      obtain ⟨hmem, hid⟩ := stackId_of_stackAt hat
      have hpush : push (t, bottom') function = (t, above) := by
        rw [push]
        dsimp only
        rw [addStack_of_mem hmem, hid]
      rw [List.foldl_cons, hpush]
      exact ih habove hfull

/-! ### Names -/

/-- Well-formed tables, with the names of a stack. -/
structure HoldsNames (r : Tables × StackId) (names : List Bytes) : Prop where
  wellFormed : r.1.WellFormed
  decodes : Decodes r.1.stackAt r.1.nameAt r.2 names

theorem holdsNames_empty {t : Tables} (h : t.WellFormed) : HoldsNames (t, kEmptyStackId) [] :=
  ⟨h, [], .empty, .nil⟩

theorem decodes_of_grows {t t' : Tables} (h : Grows t t') {id : StackId} {names : List Bytes}
    (hdecodes : Decodes t.stackAt t.nameAt id names) : Decodes t'.stackAt t'.nameAt id names := by
  obtain ⟨functions, hspells, hnames⟩ := hdecodes
  exact ⟨functions, h.spells hspells, hnames.imp fun _ _ => nameAt_of_grows h⟩

theorem exists_decodes {t : Tables} (h : t.WellFormed) {id : StackId} (hid : Known t.stackAt id) :
    ∃ names, Decodes t.stackAt t.nameAt id names := by
  obtain ⟨functions, hspells, -, hnamed⟩ := h.exists_spells hid
  suffices hnames : ∃ names, List.Forall₂ (fun function name => t.nameAt function = some name)
      functions names from hnames.imp fun names hnames => ⟨functions, hspells, hnames⟩
  clear hspells
  induction functions with
  | nil => exact ⟨[], .nil⟩
  | cons function functions ih =>
      obtain ⟨⟨name, hname⟩, hnamed⟩ := List.forall_mem_cons.mp hnamed
      obtain ⟨names, hnames⟩ := ih hnamed
      exact ⟨name :: names, .cons hname hnames⟩

theorem HoldsNames.pushName {r : Tables × StackId} {names : List Bytes} (h : HoldsNames r names)
    {name : Bytes} (hfits : (pushName r name).1.Fits) :
    HoldsNames (pushName r name) (name :: names) := by
  obtain ⟨functions, hspells, hnames⟩ := decodes_of_grows (grows_addName r.1 name) h.decodes
  have hgrows := grows_push (r.1.addName name, r.2) ((r.1.addName name).nameId name)
  have hname : (r.1.addName name).nameAt ((r.1.addName name).nameId name) = some name :=
    nameAt_nameId (hgrows.fits hfits) (mem_addName.mpr (Or.inr rfl))
  have hbase : Holds (r.1.addName name, r.2) functions := ⟨h.wellFormed.addName name, hspells⟩
  have hpush := hbase.push ⟨name, hname⟩ hfits
  exact ⟨hpush.wellFormed, _, hpush.spells, .cons hname hnames⟩

theorem HoldsNames.foldl_pushName {names' : List Bytes} {r : Tables × StackId}
    {names : List Bytes} (h : HoldsNames r names)
    (hfits : (names'.foldl Tables.pushName r).1.Fits) :
    HoldsNames (names'.foldl Tables.pushName r) (names'.reverse ++ names) := by
  induction names' generalizing r names with
  | nil => exact h
  | cons name names' ih =>
      rw [List.reverse_cons, List.append_assoc]
      exact ih (h.pushName ((grows_foldl grows_pushName names' _).fits hfits)) hfits

theorem holdsNames_identify {t : Tables} (h : t.WellFormed) {names : List Bytes}
    (hfits : (t.identify names).1.Fits) :
    HoldsNames (t.identify names) (if names = [] then [str "empty"] else names) := by
  rw [identify] at hfits ⊢
  have hfold := (holdsNames_empty h).foldl_pushName hfits
  rw [List.append_nil] at hfold
  by_cases hnil : names = []
  · rw [if_pos hnil] at hfold ⊢
    rwa [if_pos hnil]
  · rw [if_neg hnil, List.reverse_reverse] at hfold
    rwa [if_neg hnil, if_neg hnil]

/-! ### Concatenations -/

theorem functionsOf_of_spells {t : Tables} {id : StackId} {functions : List FunctionNameId}
    (h : Spells t.stackAt id functions) {depth : ℕ} (hdepth : functions.length ≤ depth) :
    t.functionsOf depth id = functions := by
  induction h generalizing depth with
  | empty => cases depth <;> rfl
  | push hne hat _ ih =>
      cases depth with
      | zero => cases hdepth
      | succ depth =>
          rw [functionsOf, if_neg hne, hat, Option.elim_some, ih (Nat.le_of_succ_le_succ hdepth)]

variable {t : Tables} {bottom top full : StackId} {functions functions' : List FunctionNameId}

theorem WellFormed.length_le (h : t.WellFormed) (htop : Spells t.stackAt top functions) :
    functions.length ≤ top.toNat := by
  obtain ⟨functions', htop', hlength, -⟩ := h.exists_spells htop.known
  rwa [htop.unique htop']

theorem concatenate_eq_foldl (h : t.WellFormed) (htop : Spells t.stackAt top functions) :
    t.concatenate bottom top = functions.reverse.foldl push (t, bottom) := by
  rw [concatenate, functionsOf_of_spells htop (h.length_le htop)]

theorem holds_concatenate (h : t.WellFormed) (hbottom : Spells t.stackAt bottom functions)
    (htop : Spells t.stackAt top functions') (hfits : (t.concatenate bottom top).1.Fits) :
    Holds (t.concatenate bottom top) (functions' ++ functions) := by
  obtain ⟨_, htop', -, hnamed⟩ := h.exists_spells htop.known
  obtain rfl := htop'.unique htop
  rw [concatenate_eq_foldl h htop] at hfits ⊢
  have hfold := Holds.foldl_push ⟨h, hbottom⟩
    (fun function hmem => hnamed function (List.mem_reverse.mp hmem)) hfits
  rwa [List.reverse_reverse] at hfold

/-- A concatenation that is there is found. -/
theorem concatenate_of_spells (h : t.WellFormed) (hbottom : Spells t.stackAt bottom functions)
    (htop : Spells t.stackAt top functions')
    (hfull : Spells t.stackAt full (functions' ++ functions)) :
    t.concatenate bottom top = (t, full) := by
  rw [concatenate_eq_foldl h htop]
  exact foldl_push_of_spells hbottom (by rwa [List.reverse_reverse])

theorem concatenate_empty_left (h : t.WellFormed) (htop : Known t.stackAt top) :
    t.concatenate kEmptyStackId top = (t, top) := by
  obtain ⟨functions, hspells, -⟩ := h.exists_spells htop
  exact concatenate_of_spells h .empty hspells (by rwa [List.append_nil])

end Tables

/-! ### Runs -/

open Tables

/-- Some steps of the database, one after the other. -/
theorem does_foldlM {α : Type} {f : StackId → α → DbM StackId}
    {step : Tables × StackId → α → Tables × StackId} (hgrows : ∀ r a, Grows r.1 (step r a).1)
    (hdoes : ∀ r a, (step r a).1.Fits → Does (f r.2 a) r.1 (.ok (step r a).2) (step r a).1)
    {l : List α} {r : Tables × StackId} (hfits : (l.foldl step r).1.Fits) :
    Does (l.foldlM f r.2) r.1 (.ok (l.foldl step r).2) (l.foldl step r).1 := by
  induction l generalizing r with
  | nil => exact Does.pure r.1 r.2
  | cons a l ih =>
      rw [List.foldlM_cons]
      exact (hdoes r a ((grows_foldl hgrows l _).fits hfits)).bind (ih hfits)

theorem push_does (r : Tables × StackId) (function : FunctionNameId)
    (hfits : (push r function).1.Fits) :
    Does (addStack ⟨function, r.2⟩) r.1 (.ok (push r function).2) (push r function).1 :=
  addStack_does hfits

theorem pushName_does (r : Tables × StackId) (name : Bytes) (hfits : (pushName r name).1.Fits) :
    Does (do let function ← addFunctionName name; addStack ⟨function, r.2⟩) r.1
      (.ok (pushName r name).2) (pushName r name).1 :=
  (addFunctionName_does hfits.of_addStack).bind (push_does (r.1.addName name, r.2) _ hfits)

theorem getStackIdentifier_does {t : Tables} {names : List Bytes}
    (hfits : (t.identify names).1.Fits) :
    Does (StacksBuilder.getStackIdentifier names) t (.ok (t.identify names).2)
      (t.identify names).1 :=
  does_foldlM grows_pushName pushName_does hfits

end TibeeCompare.Db
