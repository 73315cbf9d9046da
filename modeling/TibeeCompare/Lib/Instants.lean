import TibeeCompare.Lib.Intervals
import Mathlib.Order.Interval.Finset.Nat
import Mathlib.Data.Finset.Card

/-!
The instants of a window of time, and the intervals that they are in.

Of intervals that tile a span, at most one has a given instant in it. So the instants of
a window that are in intervals of some kind can be counted interval by interval.
-/

namespace TibeeCompare.Intervals

variable {α : Type} {first last : α → ℕ}

/-- The element whose interval has the instant `t` in it. -/
def elementAt (first last : α → ℕ) (t : ℕ) (xs : List α) : Option α :=
  xs.find? fun x => decide (first x ≤ t ∧ t < last x)

theorem elementAt_cons (t : ℕ) (x : α) (xs : List α) :
    elementAt first last t (x :: xs) =
      if first x ≤ t ∧ t < last x then some x else elementAt first last t xs := by
  rw [elementAt, List.find?_cons]
  by_cases hin : first x ≤ t ∧ t < last x
  · rw [if_pos hin, decide_eq_true hin]
  · rw [if_neg hin, decide_eq_false hin]
    rfl

theorem elementAt_eq_some {t : ℕ} {xs : List α} {x : α} (h : elementAt first last t xs = some x) :
    x ∈ xs ∧ first x ≤ t ∧ t < last x := by
  rw [elementAt] at h
  exact ⟨List.mem_of_find?_eq_some h, by simpa using List.find?_some h⟩

/-- No interval has an instant in it that all of them are away from. -/
theorem elementAt_append_of_forall {t : ℕ} {pre xs : List α}
    (h : ∀ x ∈ pre, ¬ (first x ≤ t ∧ t < last x)) :
    elementAt first last t (pre ++ xs) = elementAt first last t xs := by
  rw [elementAt, List.find?_append, List.find?_eq_none.mpr fun x hx => by simpa using h x hx]
  rfl

/-- The instants of a window that are in intervals with the property `p` are as many as these
intervals have in the window. -/
theorem Tiles.card_instants {lo hi : ℕ} {xs : List α} (h : Tiles first last lo xs hi)
    (start end_ : ℕ) (p : α → Bool) :
    ((Finset.Ico start end_).filter fun t => (elementAt first last t xs).any p = true).card =
      ((xs.filter p).map fun x => min end_ (last x) - max start (first x)).sum := by
  induction xs generalizing lo with
  | nil => simp [elementAt]
  | cons x xs ih =>
      obtain ⟨rfl, hx, htail⟩ := h
      -- what comes later does not meet the first interval, so that the instants can be added up
      have hlater : ∀ t, (elementAt first last t xs).any p = true → last x ≤ t := by
        intro t ht
        obtain ⟨y, hy, -⟩ := (Option.any_eq_true _ _).mp ht
        obtain ⟨hmem, hfirst, -⟩ := elementAt_eq_some hy
        exact (htail.ordered.bounds hmem).1.trans hfirst
      have hhead : ∀ t, (elementAt first last t (x :: xs)).any p = true ↔
          (p x = true ∧ first x ≤ t ∧ t < last x) ∨ (elementAt first last t xs).any p = true := by
        intro t
        rw [elementAt_cons]
        split
        · next hin =>
            have hnot : ¬ (elementAt first last t xs).any p = true := fun ht =>
              absurd (hlater t ht) (Nat.not_le.mpr hin.2)
            simp [hin, hnot]
        · next hin => simp [hin]
      have hown : (Finset.Ico start end_).filter (fun t => p x = true ∧ first x ≤ t ∧ t < last x) =
          if p x then Finset.Ico (max start (first x)) (min end_ (last x)) else ∅ := by
        ext t
        cases hp : p x with
        | false => simp
        | true =>
            simp only [Finset.mem_filter, Finset.mem_Ico, if_true, true_and]
            omega
      have hdisjoint : Disjoint
          ((Finset.Ico start end_).filter fun t => p x = true ∧ first x ≤ t ∧ t < last x)
          ((Finset.Ico start end_).filter fun t => (elementAt first last t xs).any p = true) := by
        rw [Finset.disjoint_filter]
        intro t _ hin ht
        exact absurd (hlater t ht) (Nat.not_le.mpr hin.2.2)
      rw [Finset.filter_congr fun t _ => hhead t, Finset.filter_or,
        Finset.card_union_of_disjoint hdisjoint, ih htail, hown]
      cases hp : p x with
      | false => simp [hp]
      | true => simp [hp]

end TibeeCompare.Intervals
