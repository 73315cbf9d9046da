import TibeeCompare.Db.StackPushes

/-!
Tables that are filled through stacks only.

A name comes into the tables with a stack that has it on top, and no stack had a new name
before. So there are no more names than stacks, and the identifiers of both last as long as
those of the stacks do.
-/

namespace TibeeCompare.Db.Tables

open Interning

/-- Well-formed tables with no more names than stacks. -/
structure Stacked (t : Tables) : Prop where
  wellFormed : t.WellFormed
  names_le : t.nameTable.length ≤ t.stackTable.length

/-- There are fewer stacks than identifiers for them, and one more is left. -/
def FewStacks (t : Tables) : Prop := t.stackTable.length < 2 ^ 32 - 1

theorem stacked_empty : Stacked {} := ⟨wellFormed_empty, le_rfl⟩

theorem FewStacks.of_grows {t t' : Tables} (h : t'.FewStacks) (hgrows : Grows t t') :
    t.FewStacks := hgrows.stackIds.length_le.trans_lt h

theorem Stacked.fits {t : Tables} (h : t.Stacked) (hfew : t.FewStacks) : t.Fits := by
  rw [FewStacks] at hfew
  have hnames := h.names_le
  exact ⟨by omega, by omega⟩

theorem length_addName {t : Tables} {name : Bytes} (h : name ∉ t.nameTable) :
    (t.addName name).nameTable.length = t.nameTable.length + 1 := by
  show (intern t.nameTable name).length = _
  rw [intern_of_notMem h, List.length_append, List.length_singleton]

theorem length_addStack {t : Tables} {stack : Stack} (h : stack ∉ t.stackTable) :
    (t.addStack stack).stackTable.length = t.stackTable.length + 1 := by
  show (intern t.stackTable stack).length = _
  rw [intern_of_notMem h, List.length_append, List.length_singleton]

/-- No stack has the identifier that a new name gets. -/
theorem WellFormed.notMem_of_newName {t : Tables} (h : t.WellFormed) (hfits : t.Fits)
    {name : Bytes} (hname : name ∉ t.nameTable) (hlast : t.nameTable.length + 1 < 2 ^ 32)
    (bottom : StackId) : ⟨(t.addName name).nameId name, bottom⟩ ∉ t.stackTable := by
  intro hmem
  obtain ⟨other, hother⟩ := h.named _ _ (stackAt_stackId hfits hmem)
  obtain ⟨hmem', hnumber⟩ := number_of_valueAt t.nameTable_nodup hother
  have hid : ((t.addName name).nameId name).toNat = t.nameTable.length + 1 := by
    rw [nameId, UInt32.toNat_ofNat_of_lt']
    · exact number_intern_of_notMem hname
    · exact (number_intern_of_notMem hname).trans_lt hlast
  have hle := number_le hmem'
  dsimp only at hnumber
  omega

/-- A stack with a name on top brings at least as many stacks as names. -/
theorem Stacked.names_le_pushName {r : Tables × StackId} (h : r.1.Stacked) (hfew : r.1.FewStacks)
    (name : Bytes) :
    (pushName r name).1.nameTable.length ≤ (pushName r name).1.stackTable.length := by
  have hgrows := (grows_push (r.1.addName name, r.2) ((r.1.addName name).nameId name)).stackIds
  have hle := h.names_le
  by_cases hname : name ∈ r.1.nameTable
  · have hlength := hgrows.length_le
    calc _ = r.1.nameTable.length := congrArg List.length (intern_of_mem hname)
      _ ≤ r.1.stackTable.length := hle
      _ ≤ _ := hlength
  · have hlast : r.1.nameTable.length + 1 < 2 ^ 32 := by
      rw [FewStacks] at hfew
      omega
    have hnew := h.wellFormed.notMem_of_newName (h.fits hfew) hname hlast r.2
    calc _ = r.1.nameTable.length + 1 := length_addName hname
      _ ≤ r.1.stackTable.length + 1 := Nat.succ_le_succ hle
      _ = _ := (length_addStack (t := r.1.addName name) hnew).symm

/-! ### Runs of steps -/

theorem stacked_pushName {r : Tables × StackId} {names : List Bytes}
    (h : HoldsNames r names) (hle : r.1.nameTable.length ≤ r.1.stackTable.length) {name : Bytes}
    (hfew : (pushName r name).1.FewStacks) :
    HoldsNames (pushName r name) (name :: names) ∧ (pushName r name).1.Stacked := by
  have hbefore : r.1.Stacked := ⟨h.wellFormed, hle⟩
  have hle' := hbefore.names_le_pushName (hfew.of_grows (grows_pushName r name)) name
  have hfits : (pushName r name).1.Fits := by
    rw [FewStacks] at hfew
    exact ⟨by omega, by omega⟩
  have hholds := h.pushName hfits
  exact ⟨hholds, hholds.wellFormed, hle'⟩

theorem stacked_foldl_pushName {names' : List Bytes} {r : Tables × StackId}
    {names : List Bytes} (h : HoldsNames r names)
    (hle : r.1.nameTable.length ≤ r.1.stackTable.length)
    (hfew : (names'.foldl pushName r).1.FewStacks) : (names'.foldl pushName r).1.Stacked := by
  induction names' generalizing r names with
  | nil => exact ⟨h.wellFormed, hle⟩
  | cons name names' ih =>
      have hgrows := grows_foldl grows_pushName names' (pushName r name)
      obtain ⟨hnext, hstacked⟩ := stacked_pushName h hle (hfew.of_grows hgrows)
      exact ih hnext hstacked.names_le hfew

theorem Stacked.identify {t : Tables} (h : t.Stacked) {names : List Bytes}
    (hfew : (t.identify names).1.FewStacks) : (t.identify names).1.Stacked :=
  stacked_foldl_pushName (holdsNames_empty h.wellFormed) h.names_le hfew

/-- What brings no name keeps this. -/
theorem Stacked.of_grows {t t' : Tables} (h : t.Stacked) (hgrows : Grows t t')
    (hnames : t'.nameTable = t.nameTable) (hwf : t'.WellFormed) : t'.Stacked := by
  refine ⟨hwf, ?_⟩
  rw [hnames]
  exact h.names_le.trans hgrows.stackIds.length_le

theorem nameTable_foldl_push (functions : List FunctionNameId) (r : Tables × StackId) :
    (functions.foldl push r).1.nameTable = r.1.nameTable := by
  induction functions generalizing r with
  | nil => rfl
  | cons function functions ih => exact ih (push r function)

theorem nameTable_concatenate (t : Tables) (bottom top : StackId) :
    (t.concatenate bottom top).1.nameTable = t.nameTable := nameTable_foldl_push _ _

end TibeeCompare.Db.Tables
