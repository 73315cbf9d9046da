import Mathlib.Data.List.TakeWhile
import Mathlib.Data.List.Basic
import Mathlib.Order.Lattice

/-!
Lists in ascending order.

The elements up to a bound come first, so that the binary searches of the code and
the linear searches of a model find the same ones.
-/

namespace TibeeCompare.SortedLists

variable {α β : Type}

theorem le_getLast? [Preorder α] {l : List α} (hsorted : l.Pairwise (· < ·)) {last a : α}
    (hlast : l.getLast? = some last) (ha : a ∈ l) : a ≤ last := by
  have hsplit := List.dropLast_append_getLast? last hlast
  rw [← hsplit] at ha hsorted
  rcases List.mem_append.mp ha with ha | ha
  · exact ((List.pairwise_append.mp hsorted).2.2 a ha last (List.mem_singleton_self _)).le
  · exact (List.mem_singleton.mp ha).le

/-- Where two properties agree on the elements of a list, they cut it at the same place. -/
theorem cut_congr {l : List α} {p q : α → Bool} (h : ∀ a ∈ l, p a = q a) :
    l.takeWhile p = l.takeWhile q ∧ l.dropWhile p = l.dropWhile q := by
  induction l with
  | nil => exact ⟨rfl, rfl⟩
  | cons a l ih =>
      obtain ⟨htake, hdrop⟩ := ih fun b hb => h b (List.mem_cons_of_mem _ hb)
      rw [List.takeWhile_cons, List.takeWhile_cons, List.dropWhile_cons, List.dropWhile_cons,
        h a List.mem_cons_self, htake, hdrop]
      exact ⟨rfl, rfl⟩

/-- If a property that fails once fails for all later elements, the elements that
have it are at the start. -/
theorem takeWhile_eq_filter {l : List α} {p : α → Bool}
    (h : l.Pairwise fun a b => p b = true → p a = true) : l.takeWhile p = l.filter p := by
  induction l with
  | nil => rfl
  | cons a l ih =>
      obtain ⟨ha, hl⟩ := List.pairwise_cons.mp h
      by_cases hp : p a = true
      · rw [List.takeWhile_cons_of_pos hp, List.filter_cons_of_pos hp, ih hl]
      · have hnone : l.filter p = [] :=
          List.filter_eq_nil_iff.mpr fun b hb hpb => hp (ha b hb hpb)
        rw [List.takeWhile_cons_of_neg hp, List.filter_cons_of_neg hp, hnone]

theorem dropWhile_eq_filter {l : List α} {p : α → Bool}
    (h : l.Pairwise fun a b => p b = true → p a = true) :
    l.dropWhile p = l.filter fun a => !p a := by
  induction l with
  | nil => rfl
  | cons a l ih =>
      obtain ⟨ha, hl⟩ := List.pairwise_cons.mp h
      by_cases hp : p a = true
      · rw [List.dropWhile_cons_of_pos hp, List.filter_cons_of_neg (by simp [hp]), ih hl]
      · have hall : (l.filter fun a => !p a) = l :=
          List.filter_eq_self.mpr fun b hb => by
            simpa using fun hpb => hp (ha b hb hpb)
        rw [List.dropWhile_cons_of_neg hp, List.filter_cons_of_pos (by simp [hp]), hall]

/-- Of such elements it does not matter when they are skipped. -/
theorem drop_takeWhile {l : List α} {p : α → Bool}
    (h : l.Pairwise fun a b => p b = true → p a = true) (n : ℕ) :
    (l.takeWhile p).drop n = (l.drop n).takeWhile p := by
  induction n generalizing l with
  | zero => rfl
  | succ n ih =>
      cases l with
      | nil => rfl
      | cons a l =>
          obtain ⟨ha, hl⟩ := List.pairwise_cons.mp h
          rw [List.drop_succ_cons, ← ih hl]
          by_cases hp : p a = true
          · rw [List.takeWhile_cons_of_pos hp, List.drop_succ_cons]
          · have hnone : l.takeWhile p = [] := by
              rw [takeWhile_eq_filter hl]
              exact List.filter_eq_nil_iff.mpr fun b hb hpb => hp (ha b hb hpb)
            rw [List.takeWhile_cons_of_neg hp, hnone, List.drop_nil, List.drop_nil]

variable [LinearOrder β] {f : α → β} {bound : β}

theorem mem_takeWhile_of_le {l : List α} (hordered : l.Pairwise fun a b => f a ≤ f b)
    {a : α} (ha : a ∈ l) (hle : f a ≤ bound) : a ∈ l.takeWhile fun a => f a ≤ bound := by
  induction l with
  | nil => cases ha
  | cons b l ih =>
      obtain ⟨hb, hordered⟩ := List.pairwise_cons.mp hordered
      have hle' : f b ≤ bound := by
        rcases List.mem_cons.mp ha with rfl | ha
        · exact hle
        · exact (hb a ha).trans hle
      rw [List.takeWhile_cons_of_pos (by simpa using hle')]
      rcases List.mem_cons.mp ha with rfl | ha
      · exact List.mem_cons_self
      · exact List.mem_cons_of_mem _ (ih hordered ha)

/-! ### Insertion -/

/-- Puts an element at its place in a list in the order of `f`, instead of the
one with the same value if there is one. -/
def insertBy (f : α → β) (a : α) : List α → List α
  | [] => [a]
  | b :: l =>
      if f a < f b then a :: b :: l
      else if f a = f b then a :: l
      else b :: insertBy f a l

theorem mem_insertBy {l : List α} (hordered : l.Pairwise fun a b => f a < f b) (a b : α) :
    b ∈ insertBy f a l ↔ b = a ∨ b ∈ l ∧ f b ≠ f a := by
  induction l with
  | nil => simp [insertBy]
  | cons c l ih =>
      obtain ⟨hc, hordered⟩ := List.pairwise_cons.mp hordered
      rw [insertBy]
      split
      -- before all elements
      · next hlt =>
          have hne : ∀ b ∈ c :: l, f b ≠ f a := by
            intro b hb
            rcases List.mem_cons.mp hb with rfl | hb
            · exact hlt.ne'
            · exact (hlt.trans (hc b hb)).ne'
          simp only [List.mem_cons] at hne ⊢
          constructor
          · rintro (rfl | hb)
            · exact Or.inl rfl
            · exact Or.inr ⟨hb, hne b hb⟩
          · rintro (rfl | ⟨hb, -⟩)
            · exact Or.inl rfl
            · exact Or.inr hb
      split
      -- in the place of the one with the same key
      · next heq =>
          rw [List.mem_cons, List.mem_cons]
          constructor
          · rintro (rfl | hb)
            · exact Or.inl rfl
            · exact Or.inr ⟨Or.inr hb, fun h => (hc b hb).ne (heq ▸ h.symm)⟩
          · rintro (rfl | ⟨rfl | hb, hne⟩)
            · exact Or.inl rfl
            · exact absurd heq.symm hne
            · exact Or.inr hb
      -- further on
      · next hlt hne =>
          rw [List.mem_cons, ih hordered, List.mem_cons]
          constructor
          · rintro (rfl | rfl | ⟨hb, hne'⟩)
            · exact Or.inr ⟨Or.inl rfl, Ne.symm hne⟩
            · exact Or.inl rfl
            · exact Or.inr ⟨Or.inr hb, hne'⟩
          · rintro (rfl | ⟨rfl | hb, hne'⟩)
            · exact Or.inr (Or.inl rfl)
            · exact Or.inl rfl
            · exact Or.inr (Or.inr ⟨hb, hne'⟩)

theorem pairwise_insertBy {l : List α} (hordered : l.Pairwise fun a b => f a < f b) (a : α) :
    (insertBy f a l).Pairwise fun a b => f a < f b := by
  induction l with
  | nil => simp [insertBy]
  | cons c l ih =>
      obtain ⟨hc, hl⟩ := List.pairwise_cons.mp hordered
      rw [insertBy]
      split
      · next hlt =>
          refine List.pairwise_cons.mpr ⟨?_, hordered⟩
          intro b hb
          rcases List.mem_cons.mp hb with rfl | hb
          · exact hlt
          · exact hlt.trans (hc b hb)
      split
      · next heq => exact List.pairwise_cons.mpr ⟨fun b hb => heq ▸ hc b hb, hl⟩
      · next hlt hne =>
          refine List.pairwise_cons.mpr ⟨?_, ih hl⟩
          intro b hb
          rcases (mem_insertBy hl a b).mp hb with rfl | ⟨hb, -⟩
          · exact lt_of_le_of_ne (not_lt.mp hlt) (Ne.symm hne)
          · exact hc b hb

theorem pairwise_foldr_insertBy (l : List α) :
    (l.foldr (insertBy f) []).Pairwise fun a b => f a < f b := by
  induction l with
  | nil => exact List.Pairwise.nil
  | cons a l ih => exact pairwise_insertBy ih a

/-- Of the elements with the same value the first one stays. -/
theorem mem_foldr_insertBy {l : List α} {a : α} :
    a ∈ l.foldr (insertBy f) [] ↔ l.find? (fun b => f b = f a) = some a := by
  induction l with
  | nil => simp
  | cons b l ih =>
      rw [List.foldr_cons, mem_insertBy (pairwise_foldr_insertBy l), ih]
      by_cases hb : f b = f a
      · rw [List.find?_cons_of_pos (by simpa using hb)]
        constructor
        · rintro (rfl | ⟨-, hne⟩)
          · rfl
          · exact absurd hb.symm hne
        · rintro ⟨⟩
          exact Or.inl rfl
      · rw [List.find?_cons_of_neg (by simpa using hb)]
        constructor
        · rintro (rfl | ⟨h, -⟩)
          · exact absurd rfl hb
          · exact h
        · intro h
          exact Or.inr ⟨h, Ne.symm hb⟩

end TibeeCompare.SortedLists
