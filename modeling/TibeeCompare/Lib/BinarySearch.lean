import TibeeCompare.Lib.SortedLists

/-!
Binary search, as `std::lower_bound` and `std::upper_bound` do it.

The search halves a range of positions by asking a property of the element in
the middle. It is defined on any list; on a list where the elements that have the
property come first, it finds the first one that has not.
-/

namespace TibeeCompare.BinarySearch

variable {α : Type}

/-- Halves the `len` positions from `first` on, for some rounds. -/
def search (p : ℕ → Bool) : ℕ → ℕ → ℕ → ℕ
  | 0, first, _ => first
  | rounds + 1, first, len =>
      if len = 0 then first
      else if p (first + len / 2) then search p rounds (first + len / 2 + 1) (len - len / 2 - 1)
      else search p rounds first (len / 2)

/-- The position at which the search ends for the property `p` of elements. -/
def partitionPoint (p : α → Bool) (l : List α) : ℕ :=
  search (fun i => (l[i]?.map p).getD false) l.length 0 l.length

/-- The search stays among its positions. -/
theorem search_le (p : ℕ → Bool) (rounds first len : ℕ) :
    search p rounds first len ≤ first + len := by
  induction rounds generalizing first len with
  | zero => exact Nat.le_add_right _ _
  | succ rounds ih =>
      rw [search]
      split
      · exact Nat.le_add_right _ _
      split
      · exact (ih _ _).trans (by omega)
      · exact (ih _ _).trans (by omega)

theorem partitionPoint_le (p : α → Bool) (l : List α) : partitionPoint p l ≤ l.length :=
  (search_le _ _ _ _).trans_eq (Nat.zero_add _)

/-- If the property holds before `point` and nowhere else, the search finds
`point`. -/
theorem search_eq {p : ℕ → Bool} {point : ℕ} (h : ∀ i, p i = true ↔ i < point) :
    ∀ rounds first len, len ≤ rounds → first ≤ point → point ≤ first + len →
      search p rounds first len = point := by
  intro rounds
  induction rounds with
  | zero =>
      intro first len hrounds hfirst hpoint
      rw [search]
      omega
  | succ rounds ih =>
      intro first len hrounds hfirst hpoint
      rw [search]
      split
      · omega
      split
      · next hmid =>
          have := (h _).mp hmid
          exact ih _ _ (by omega) (by omega) (by omega)
      · next hmid =>
          have : ¬ first + len / 2 < point := fun hlt => hmid ((h _).mpr hlt)
          exact ih _ _ (by omega) (by omega) (by omega)

/-- The positions whose elements have the property are those of `takeWhile`. -/
theorem holds_iff_lt_takeWhile {p : α → Bool} {l : List α}
    (h : l.Pairwise fun a b => p b = true → p a = true) (i : ℕ) :
    (l[i]?.map p).getD false = true ↔ i < (l.takeWhile p).length := by
  induction l generalizing i with
  | nil => simp
  | cons a l ih =>
      obtain ⟨ha, hl⟩ := List.pairwise_cons.mp h
      by_cases hp : p a = true
      · rw [List.takeWhile_cons_of_pos hp]
        cases i with
        | zero => simp [hp]
        | succ i =>
            rw [List.getElem?_cons_succ, ih hl, List.length_cons]
            omega
      · rw [List.takeWhile_cons_of_neg hp, List.length_nil]
        have hnone : ∀ b ∈ a :: l, p b ≠ true := by
          intro b hb hpb
          rcases List.mem_cons.mp hb with rfl | hb
          · exact hp hpb
          · exact hp (ha b hb hpb)
        constructor
        · intro hi
          cases hget : (a :: l)[i]? with
          | none => simp [hget] at hi
          | some b =>
              rw [hget] at hi
              exact absurd hi (hnone b (List.mem_of_getElem? hget))
        · exact fun hi => absurd hi (Nat.not_lt_zero i)

theorem partitionPoint_eq {p : α → Bool} {l : List α}
    (h : l.Pairwise fun a b => p b = true → p a = true) :
    partitionPoint p l = (l.takeWhile p).length := by
  have hle : (l.takeWhile p).length ≤ l.length := (List.takeWhile_sublist p).length_le
  exact search_eq (holds_iff_lt_takeWhile h) _ _ _ le_rfl (Nat.zero_le _) (by omega)

end TibeeCompare.BinarySearch
