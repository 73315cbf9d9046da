import TibeeCompare.Lib.BinarySearch

/-!
Timelines: lists of things in the order in which they started.

The thing that is going on at a time is the last one that started by then. It is
found by a binary search and a step back, and the things that started before it can
be dropped without a change to what is found from then on.
-/

namespace TibeeCompare.Timelines

open BinarySearch

variable {α : Type}

/-- The list from the last element on that a binary search for `p` passes by; the whole
list if it passes by none. -/
def searchBack (p : α → Bool) (l : List α) : List α := l.drop (partitionPoint p l - 1)

variable {p : α → Bool} {l : List α}

@[simp] theorem searchBack_nil : searchBack p [] = [] := List.drop_nil

theorem searchBack_suffix (p : α → Bool) (l : List α) : searchBack p l <:+ l := List.drop_suffix _ _

/-- The step back leaves the last element. -/
theorem getLast?_searchBack (p : α → Bool) (l : List α) :
    (searchBack p l).getLast? = l.getLast? := by
  have hle := partitionPoint_le p l
  cases l with
  | nil => rw [searchBack_nil]
  | cons a l =>
      rw [searchBack, List.getLast?_drop, if_neg]
      rw [List.length_cons] at hle ⊢
      omega

theorem eq_append_of_takeWhile {pre : List α} {last : α} (h : l.takeWhile p = pre ++ [last]) :
    l = pre ++ last :: l.dropWhile p := by
  have hsplit := List.takeWhile_append_dropWhile (p := p) (l := l)
  rw [h, List.append_assoc] at hsplit
  exact hsplit.symm

theorem holds_of_takeWhile {pre : List α} {last : α} (h : l.takeWhile p = pre ++ [last]) :
    p last = true := by
  have hmem : last ∈ l.takeWhile p := by
    rw [h]
    exact List.mem_concat_self
  exact List.mem_takeWhile_imp hmem

theorem dropWhile_of_takeWhile_nil (h : l.takeWhile p = []) : l.dropWhile p = l := by
  have hsplit := List.takeWhile_append_dropWhile (p := p) (l := l)
  rwa [h, List.nil_append] at hsplit

/-- Either no element has the property, or the search steps back to the last one. -/
theorem searchBack_cases (h : l.Pairwise fun a b => p b = true → p a = true) :
    (l.takeWhile p = [] ∧ searchBack p l = l) ∨
      ∃ pre last, l.takeWhile p = pre ++ [last] ∧ searchBack p l = last :: l.dropWhile p := by
  rw [searchBack, partitionPoint_eq h]
  rcases List.eq_nil_or_concat (l.takeWhile p) with hnil | ⟨pre, last, hconcat⟩
  · exact Or.inl ⟨hnil, by rw [hnil]; rfl⟩
  · rw [List.concat_eq_append] at hconcat
    refine Or.inr ⟨pre, last, hconcat, ?_⟩
    have hsplit := eq_append_of_takeWhile hconcat
    rw [hconcat, List.length_append, List.length_singleton, Nat.add_sub_cancel]
    conv_lhs => rw [hsplit]
    rw [List.drop_left]

/-- What comes before an element with the property plays no role. -/
theorem searchBack_append {pre rest : List α} {a : α}
    (h : (pre ++ a :: rest).Pairwise fun a b => p b = true → p a = true) (ha : p a = true) :
    searchBack p (pre ++ a :: rest) = searchBack p (a :: rest) := by
  obtain ⟨-, hrest, hbetween⟩ := List.pairwise_append.mp h
  have htake : (pre ++ a :: rest).takeWhile p = pre ++ (a :: rest).takeWhile p :=
    List.takeWhile_append_of_pos fun b hb => hbetween b hb a List.mem_cons_self ha
  have hpos : 0 < ((a :: rest).takeWhile p).length := by
    rw [List.takeWhile_cons_of_pos ha]
    exact Nat.succ_pos _
  rw [searchBack, searchBack, partitionPoint_eq h, partitionPoint_eq hrest, htake,
    List.length_append, Nat.add_sub_assoc hpos, ← List.drop_drop, List.drop_left]

/-! ### Trimming -/

/-- `l'` is `l` without elements that came before one with the property. -/
def Trims (p : α → Bool) (l l' : List α) : Prop :=
  ∃ dropped, l = dropped ++ l' ∧ (dropped = [] ∨ ∃ first, l'.head? = some first ∧ p first = true)

theorem Trims.refl (p : α → Bool) (l : List α) : Trims p l l := ⟨[], rfl, Or.inl rfl⟩

theorem Trims.suffix {l' : List α} (h : Trims p l l') : l' <:+ l := by
  obtain ⟨dropped, rfl, -⟩ := h
  exact List.suffix_append dropped l'

theorem Trims.eq_nil_iff {l' : List α} (h : Trims p l l') : l' = [] ↔ l = [] := by
  obtain ⟨dropped, rfl, rfl | ⟨first, hfirst, -⟩⟩ := h
  · rfl
  · have hne : l' ≠ [] := fun hnil => by rw [hnil] at hfirst; cases hfirst
    simp [hne]

theorem Trims.getLast? {l' : List α} (h : Trims p l l') : l'.getLast? = l.getLast? := by
  obtain ⟨dropped, rfl, rfl | ⟨first, hfirst, -⟩⟩ := h
  · rfl
  · rw [List.getLast?_append_of_ne_nil]
    rintro rfl
    cases hfirst

theorem Trims.append {l' : List α} (h : Trims p l l') (xs : List α) :
    Trims p (l ++ xs) (l' ++ xs) := by
  obtain ⟨dropped, rfl, hfirst⟩ := h
  refine ⟨dropped, List.append_assoc .., hfirst.imp_right ?_⟩
  rintro ⟨first, hfirst, hp⟩
  exact ⟨first, by rw [List.head?_append, hfirst]; rfl, hp⟩

/-- A weaker property may be asked of the first element that is kept. -/
theorem Trims.mono {q : α → Bool} {l' : List α} (h : Trims p l l')
    (hpq : ∀ a, p a = true → q a = true) : Trims q l l' := by
  obtain ⟨dropped, rfl, hfirst⟩ := h
  exact ⟨dropped, rfl, hfirst.imp_right fun ⟨first, hfirst, hp⟩ => ⟨first, hfirst, hpq first hp⟩⟩

theorem Trims.trans {l' l'' : List α} (h : Trims p l l') (h' : Trims p l' l'') : Trims p l l'' := by
  obtain ⟨dropped, rfl, hfirst⟩ := h
  obtain ⟨dropped', rfl, hfirst'⟩ := h'
  refine ⟨dropped ++ dropped', (List.append_assoc ..).symm, ?_⟩
  rcases hfirst' with rfl | hfirst'
  · rw [List.append_nil]
    exact hfirst
  · exact Or.inr hfirst'

/-- What is kept may change in ways that the property does not see. -/
theorem Trims.of_map {γ : Type} {f : α → γ} {q : γ → Bool} {dropped kept kept' : List α}
    (h : Trims (fun a => q (f a)) (dropped ++ kept) kept) (hmap : kept'.map f = kept.map f) :
    Trims (fun a => q (f a)) (dropped ++ kept') kept' := by
  obtain ⟨dropped', heq, hfirst⟩ := h
  obtain rfl := List.append_cancel_right heq
  refine ⟨dropped, rfl, hfirst.imp_right ?_⟩
  rintro ⟨first, hfirst, hq⟩
  have hhead := congrArg List.head? hmap
  rw [List.head?_map, List.head?_map, hfirst] at hhead
  obtain ⟨first', hfirst', hf⟩ := Option.map_eq_some_iff.mp hhead
  exact ⟨first', hfirst', (congrArg q hf).trans hq⟩

/-- A search and a step back trims a list. -/
theorem trims_searchBack (h : l.Pairwise fun a b => p b = true → p a = true) :
    Trims p l (searchBack p l) := by
  rcases searchBack_cases h with ⟨-, heq⟩ | ⟨pre, last, htake, heq⟩
  · rw [heq]
    exact Trims.refl p l
  · refine ⟨pre, ?_, Or.inr ⟨last, by rw [heq]; rfl, holds_of_takeWhile htake⟩⟩
    rw [heq]
    exact eq_append_of_takeWhile htake

/-- A search for a property that the first kept element has finds the same in a
trimmed list. -/
theorem Trims.searchBack_eq {l' : List α} (h : Trims p l l')
    (hsorted : l.Pairwise fun a b => p b = true → p a = true) :
    searchBack p l' = searchBack p l := by
  obtain ⟨dropped, rfl, rfl | ⟨first, hfirst, hp⟩⟩ := h
  · rfl
  · obtain ⟨rest, rfl⟩ : ∃ rest, l' = first :: rest := by
      cases l' with
      | nil => cases hfirst
      | cons a rest => exact ⟨rest, by rw [Option.some.inj hfirst]⟩
    exact (searchBack_append hsorted hp).symm

/-- The latest of some times is not after a time that none of them is after. -/
theorem foldl_max_le {start t : ℕ} {times : List ℕ} (hstart : start ≤ t)
    (hall : ∀ time ∈ times, time ≤ t) : times.foldl max start ≤ t := by
  induction times generalizing start with
  | nil => exact hstart
  | cons time times ih =>
      obtain ⟨htime, hrest⟩ := List.forall_mem_cons.mp hall
      exact ih (Nat.max_le.mpr ⟨hstart, htime⟩) hrest

end TibeeCompare.Timelines
