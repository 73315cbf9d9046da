import Mathlib.Data.List.Infix
import Mathlib.Data.Finset.Card

/-!
Tables that number the values they are asked for.

The first new value gets the number 1, the next one 2, and so on. A table is the
list of its values in the order of their numbers, so that it only ever grows at
its end, and what it says about a value or a number stays true.
-/

namespace TibeeCompare.Interning

variable {α : Type} [DecidableEq α]

/-- The table after it has been asked for `a`. -/
def intern (table : List α) (a : α) : List α := if a ∈ table then table else table ++ [a]

/-- The number of a value of the table. -/
def number (table : List α) (a : α) : ℕ := table.idxOf a + 1

/-- The number of a value, if the table has it. -/
def find (table : List α) (a : α) : Option ℕ :=
  if a ∈ table then some (number table a) else none

/-- The value with a number. -/
def valueAt (table : List α) : ℕ → Option α
  | 0 => none
  | n + 1 => table[n]?

/-- The table after it has been asked for some values in this order. -/
def internAll (table : List α) (values : List α) : List α := values.foldl intern table

omit [DecidableEq α] in
@[simp] theorem valueAt_nil (n : ℕ) : valueAt ([] : List α) n = none := by cases n <;> rfl

theorem intern_of_mem {table : List α} {a : α} (h : a ∈ table) : intern table a = table := if_pos h

theorem intern_of_notMem {table : List α} {a : α} (h : a ∉ table) :
    intern table a = table ++ [a] := if_neg h

/-! ### Growth -/

theorem prefix_intern (table : List α) (a : α) : table <+: intern table a := by
  unfold intern
  split
  · exact List.prefix_rfl
  · exact List.prefix_append table [a]

theorem prefix_internAll (table values : List α) : table <+: internAll table values := by
  induction values generalizing table with
  | nil => exact List.prefix_rfl
  | cons a values ih => exact (prefix_intern table a).trans (ih _)

@[simp] theorem mem_intern {table : List α} {a b : α} : b ∈ intern table a ↔ b ∈ table ∨ b = a := by
  by_cases ha : a ∈ table
  · rw [intern_of_mem ha]
    constructor
    · exact Or.inl
    · rintro (hb | rfl)
      · exact hb
      · exact ha
  · rw [intern_of_notMem ha, List.mem_append, List.mem_singleton]

@[simp] theorem mem_internAll {table values : List α} {b : α} :
    b ∈ internAll table values ↔ b ∈ table ∨ b ∈ values := by
  induction values generalizing table with
  | nil => simp [internAll]
  | cons a values ih =>
      show b ∈ internAll (intern table a) values ↔ _
      rw [ih, mem_intern, List.mem_cons, or_assoc]

theorem internAll_append (table xs ys : List α) :
    internAll table (xs ++ ys) = internAll (internAll table xs) ys := List.foldl_append

theorem nodup_intern {table : List α} (h : table.Nodup) (a : α) : (intern table a).Nodup := by
  unfold intern
  split
  · exact h
  · next ha => exact h.append (List.nodup_singleton a) (by simpa using ha)

theorem nodup_internAll {table : List α} (h : table.Nodup) (values : List α) :
    (internAll table values).Nodup := by
  induction values generalizing table with
  | nil => exact h
  | cons a values ih => exact ih (nodup_intern h a)

/-- The table holds each value that it was asked for once. -/
theorem length_internAll (values : List α) :
    (internAll [] values).length = values.toFinset.card := by
  rw [← List.toFinset_card_of_nodup (nodup_internAll List.nodup_nil values)]
  congr 1
  ext a
  simp

/-! ### Numbers and values -/

theorem number_pos (table : List α) (a : α) : 0 < number table a := Nat.succ_pos _

theorem number_le {table : List α} {a : α} (h : a ∈ table) : number table a ≤ table.length :=
  List.idxOf_lt_length_of_mem h

theorem valueAt_number {table : List α} {a : α} (h : a ∈ table) :
    valueAt table (number table a) = some a := by
  rw [number, valueAt, List.getElem?_eq_getElem (List.idxOf_lt_length_of_mem h),
    List.getElem_idxOf]

theorem number_inj {table : List α} {a b : α} (ha : a ∈ table) (hb : b ∈ table) :
    number table a = number table b ↔ a = b := by
  constructor
  · intro h
    have hvalue := valueAt_number hb
    rw [← h, valueAt_number ha] at hvalue
    exact Option.some.inj hvalue
  · rintro rfl
    rfl

theorem number_of_valueAt {table : List α} (hnodup : table.Nodup) {n : ℕ} {a : α}
    (h : valueAt table n = some a) : a ∈ table ∧ number table a = n := by
  cases n with
  | zero => cases h
  | succ n =>
      obtain ⟨hlt, rfl⟩ := List.getElem?_eq_some_iff.mp h
      exact ⟨List.getElem_mem hlt, congrArg (· + 1) (hnodup.idxOf_getElem n hlt)⟩

theorem number_of_grown {table table' : List α} (h : table <+: table') {a : α}
    (ha : a ∈ table) : number table' a = number table a := by
  obtain ⟨rest, rfl⟩ := h
  rw [number, number, List.idxOf_append_of_mem ha]

omit [DecidableEq α] in
theorem valueAt_of_grown {table table' : List α} (h : table <+: table') {n : ℕ} {a : α}
    (ha : valueAt table n = some a) : valueAt table' n = some a := by
  cases n with
  | zero => cases ha
  | succ n =>
      obtain ⟨rest, rfl⟩ := h
      obtain ⟨hlt, -⟩ := List.getElem?_eq_some_iff.mp ha
      rw [valueAt, List.getElem?_append_left hlt]
      exact ha

/-- A new value gets the number behind the last one. -/
theorem number_intern_of_notMem {table : List α} {a : α} (h : a ∉ table) :
    number (intern table a) a = table.length + 1 := by
  rw [intern_of_notMem h, number, List.idxOf_append_of_notMem h, List.idxOf_cons_self]

theorem find_of_mem {table : List α} {a : α} (h : a ∈ table) :
    find table a = some (number table a) := if_pos h

theorem find_of_notMem {table : List α} {a : α} (h : a ∉ table) : find table a = none := if_neg h

theorem find_intern_of_notMem {table : List α} {a : α} (h : a ∉ table) (b : α) :
    find (intern table a) b = if a = b then some (table.length + 1) else find table b := by
  by_cases hab : a = b
  · subst hab
    rw [if_pos rfl, find_of_mem (by simp), number_intern_of_notMem h]
  · rw [if_neg hab]
    by_cases hb : b ∈ table
    · rw [find_of_mem (by simp [hb]), find_of_mem hb, number_of_grown (prefix_intern _ _) hb]
    · rw [find_of_notMem (by simp [hb, Ne.symm hab]), find_of_notMem hb]

/-- The table after a new value says of a number what it said before, unless it
is the number of this value. -/
theorem valueAt_intern_of_notMem {table : List α} {a : α} (h : a ∉ table) (n : ℕ) :
    valueAt (intern table a) n = if n = table.length + 1 then some a else valueAt table n := by
  rw [intern_of_notMem h]
  cases n with
  | zero => rfl
  | succ n =>
      rw [valueAt, valueAt]
      rcases Nat.lt_trichotomy n table.length with hlt | rfl | hgt
      · rw [List.getElem?_append_left hlt, if_neg (by omega)]
      · rw [List.getElem?_append_right le_rfl, Nat.sub_self, if_pos rfl]
        rfl
      · rw [List.getElem?_eq_none (by simp; omega), if_neg (by omega),
          List.getElem?_eq_none hgt.le]

end TibeeCompare.Interning
