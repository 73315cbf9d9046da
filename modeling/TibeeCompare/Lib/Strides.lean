import Mathlib.Data.List.Range
import Mathlib.Tactic.Ring

/-!
Every `k`-th element of a list.
-/

namespace TibeeCompare.Strides

variable {α : Type} {k : ℕ}

/-- The elements at the positions `0`, `k`, `2 * k` and so on. -/
def stride (k : ℕ) (l : List α) : List α :=
  (List.range l.length).filterMap fun j => l[j * k]?

@[simp] theorem stride_nil (k : ℕ) : stride k ([] : List α) = [] := rfl

/-- Positions behind the list give nothing more. -/
theorem filterMap_range (hk : 0 < k) {l : List α} {n : ℕ} (h : l.length ≤ n) :
    ((List.range n).filterMap fun j => l[j * k]?) = stride k l := by
  obtain ⟨m, rfl⟩ := Nat.exists_eq_add_of_le h
  have hbehind : ((List.range m).map (l.length + ·)).filterMap (fun j => l[j * k]?) = [] := by
    refine List.filterMap_eq_nil_iff.mpr fun j hj => ?_
    obtain ⟨i, -, rfl⟩ := List.mem_map.mp hj
    refine List.getElem?_eq_none ?_
    calc l.length ≤ l.length + i := Nat.le_add_right _ _
      _ ≤ (l.length + i) * k := Nat.le_mul_of_pos_right _ hk
  rw [List.range_add, List.filterMap_append, hbehind, List.append_nil, stride]

theorem stride_cons (n : ℕ) (a : α) (l : List α) :
    stride (n + 1) (a :: l) = a :: stride (n + 1) (l.drop n) := by
  have hlength : (l.drop n).length ≤ l.length := by
    rw [List.length_drop]
    exact Nat.sub_le _ _
  have hnext : ∀ j, (a :: l)[(j + 1) * (n + 1)]? = (l.drop n)[j * (n + 1)]? := by
    intro j
    have hpos : (j + 1) * (n + 1) = (n + j * (n + 1)) + 1 := by ring
    rw [hpos, List.getElem?_cons_succ, List.getElem?_drop]
  rw [← filterMap_range (Nat.zero_lt_succ n) hlength, stride, List.length_cons,
    List.range_succ_eq_map, List.filterMap_cons_some (b := a) (by simp), List.filterMap_map]
  exact congrArg (a :: ·) (List.filterMap_congr fun j _ => hnext j)

theorem stride_ne_nil {k : ℕ} (hk : 0 < k) {l : List α} (h : l ≠ []) : stride k l ≠ [] := by
  obtain ⟨n, rfl⟩ := Nat.exists_eq_succ_of_ne_zero hk.ne'
  obtain ⟨a, l, rfl⟩ := List.exists_cons_of_ne_nil h
  rw [stride_cons]
  exact List.cons_ne_nil _ _

theorem length_stride_le (k : ℕ) (l : List α) : (stride k l).length ≤ l.length :=
  (List.length_filterMap_le _ _).trans_eq List.length_range

theorem map_stride {β : Type} (f : α → β) (k : ℕ) (l : List α) :
    stride k (l.map f) = (stride k l).map f := by
  rw [stride, stride, List.length_map, List.map_filterMap]
  exact List.filterMap_congr fun j _ => List.getElem?_map ..

@[simp] theorem stride_one (l : List α) : stride 1 l = l := by
  induction l with
  | nil => rfl
  | cons a l ih => rw [stride_cons 0, List.drop_zero, ih]

/-- Nothing is left out exactly if there are no gaps, or nothing to leave out. -/
theorem stride_eq_self_iff (hk : 0 < k) {l : List α} :
    stride k l = l ↔ k = 1 ∨ l.length ≤ 1 := by
  obtain ⟨n, rfl⟩ := Nat.exists_eq_succ_of_ne_zero hk.ne'
  cases l with
  | nil => simp
  | cons a l =>
      rw [Nat.succ_eq_add_one, stride_cons, List.cons_inj_right]
      constructor
      · intro h
        have hle := length_stride_le (n + 1) (l.drop n)
        rw [h, List.length_drop] at hle
        rw [List.length_cons]
        omega
      · rintro (hone | hlength)
        · obtain rfl : n = 0 := by omega
          rw [List.drop_zero, stride_one]
        · have hl : l = [] := by
            rw [List.length_cons] at hlength
            exact List.length_eq_zero_iff.mp (by omega)
          rw [hl, List.drop_nil, stride_nil]

end TibeeCompare.Strides
