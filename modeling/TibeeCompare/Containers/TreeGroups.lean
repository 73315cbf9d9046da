import TibeeCompare.Containers.RedBlackIntervalTree
import Mathlib.Data.List.Nodup

/-!
What a tree holds, whatever its shape: groups of elements with one lower bound,
in the order of these bounds.

Rotations and colors leave the groups alone, and an insertion does to them what it
would do to a sorted list.
-/

namespace TibeeCompare.Containers

variable {T : Type}

/-! ### Groups -/

def maxHigh (elements : List (ElementPair T)) : ℕ :=
  (elements.map fun e => e.1.high).foldr max 0

/-- The elements of a node: they share the lower bound, and are sorted by the
higher one. -/
structure IsGroup (elements : List (ElementPair T)) : Prop where
  nonempty : elements ≠ []
  sameLow : ∀ e ∈ elements, e.1.low = nodeLow elements
  sorted : elements.Pairwise endsBy

instance : IsTrans (ElementPair T) endsBy := ⟨fun _ _ _ hab hbc => Nat.le_trans hab hbc⟩

instance : Std.Total (α := ElementPair T) endsBy := ⟨fun a b => Nat.le_total a.1.high b.1.high⟩

@[simp] theorem maxHigh_nil : maxHigh ([] : List (ElementPair T)) = 0 := rfl

@[simp] theorem maxHigh_cons (e : ElementPair T) (elements : List (ElementPair T)) :
    maxHigh (e :: elements) = max e.1.high (maxHigh elements) := rfl

@[simp] theorem maxHigh_append (xs ys : List (ElementPair T)) :
    maxHigh (xs ++ ys) = max (maxHigh xs) (maxHigh ys) := by
  induction xs with
  | nil => simp
  | cons e xs ih => rw [List.cons_append, maxHigh_cons, maxHigh_cons, ih, max_assoc]

theorem lt_maxHigh {elements : List (ElementPair T)} {n : ℕ} :
    n < maxHigh elements ↔ ∃ e ∈ elements, n < e.1.high := by
  induction elements with
  | nil => simp
  | cons e elements ih => simp [ih]

theorem maxHigh_le {elements : List (ElementPair T)} {n : ℕ} :
    maxHigh elements ≤ n ↔ ∀ e ∈ elements, e.1.high ≤ n := by
  induction elements with
  | nil => simp
  | cons e elements ih => simp [ih]

theorem nodeMaxHigh_eq {elements : List (ElementPair T)} (h : elements.Pairwise endsBy) :
    nodeMaxHigh elements = maxHigh elements := by
  rcases List.eq_nil_or_concat elements with rfl | ⟨pre, back, rfl⟩
  · rfl
  · rw [List.concat_eq_append] at h ⊢
    have hle : maxHigh pre ≤ back.1.high := by
      refine maxHigh_le.mpr fun e he => ?_
      exact (List.pairwise_append.mp h).2.2 e he back (List.mem_singleton_self back)
    simp only [nodeMaxHigh, List.getLast?_concat, maxHigh_append, maxHigh_cons, maxHigh_nil]
    omega

theorem addElement_perm (elements : List (ElementPair T)) (interval : Interval) (value : T) :
    (addElement elements interval value).Perm ((interval, value) :: elements) :=
  (List.perm_insertionSort _ _).trans List.perm_append_comm

@[simp] theorem mem_addElement {elements : List (ElementPair T)} {interval : Interval} {value : T}
    {e : ElementPair T} :
    e ∈ addElement elements interval value ↔ e = (interval, value) ∨ e ∈ elements := by
  rw [(addElement_perm elements interval value).mem_iff, List.mem_cons]

theorem nodeLow_eq {elements : List (ElementPair T)} (hne : elements ≠ []) {low : ℕ}
    (h : ∀ e ∈ elements, e.1.low = low) : nodeLow elements = low := by
  cases elements with
  | nil => exact absurd rfl hne
  | cons e rest => exact h e List.mem_cons_self

theorem addElement_ne_nil (elements : List (ElementPair T)) (interval : Interval) (value : T) :
    addElement elements interval value ≠ [] :=
  List.ne_nil_of_mem (mem_addElement.mpr (Or.inl rfl))

/-- A group takes another element with its lower bound. -/
theorem IsGroup.addElement {elements : List (ElementPair T)} (h : IsGroup elements)
    {interval : Interval} (hlow : interval.low = nodeLow elements) (value : T) :
    IsGroup (addElement elements interval value) ∧
      nodeLow (Containers.addElement elements interval value) = nodeLow elements := by
  have hsame : ∀ e ∈ Containers.addElement elements interval value,
      e.1.low = nodeLow elements := by
    intro e he
    rcases mem_addElement.mp he with rfl | he
    · exact hlow
    · exact h.sameLow e he
  have heq := nodeLow_eq (addElement_ne_nil _ _ _) hsame
  refine ⟨⟨addElement_ne_nil _ _ _, fun e he => ?_, List.pairwise_insertionSort endsBy _⟩, heq⟩
  rw [heq]
  exact hsame e he

theorem isGroup_singleton (interval : Interval) (value : T) : IsGroup [(interval, value)] :=
  ⟨List.cons_ne_nil _ _, fun _ he => List.mem_singleton.mp he ▸ rfl, List.pairwise_singleton _ _⟩

/-! ### Sorted lists of groups -/

/-- The groups with one more element. -/
def insertGroup (interval : Interval) (value : T) :
    List (List (ElementPair T)) → List (List (ElementPair T))
  | [] => [[(interval, value)]]
  | group :: groups =>
      if interval.low < nodeLow group then [(interval, value)] :: group :: groups
      else if interval.low = nodeLow group then addElement group interval value :: groups
      else group :: insertGroup interval value groups

/-- Groups in the order of their lower bounds, which are distinct. -/
structure AreGroups (groups : List (List (ElementPair T))) : Prop where
  sorted : groups.Pairwise fun a b => nodeLow a < nodeLow b
  each : ∀ group ∈ groups, IsGroup group

theorem areGroups_nil : AreGroups ([] : List (List (ElementPair T))) :=
  ⟨List.Pairwise.nil, by simp⟩

theorem areGroups_cons {group : List (ElementPair T)} {groups : List (List (ElementPair T))} :
    AreGroups (group :: groups) ↔
      IsGroup group ∧ (∀ other ∈ groups, nodeLow group < nodeLow other) ∧ AreGroups groups := by
  constructor
  · rintro ⟨hsorted, heach⟩
    obtain ⟨hfirst, hrest⟩ := List.pairwise_cons.mp hsorted
    exact ⟨heach _ List.mem_cons_self, hfirst, hrest,
      fun g hg => heach g (List.mem_cons_of_mem _ hg)⟩
  · rintro ⟨hgroup, hfirst, hrest⟩
    refine ⟨List.pairwise_cons.mpr ⟨hfirst, hrest.sorted⟩, fun g hg => ?_⟩
    rcases List.mem_cons.mp hg with rfl | hg
    · exact hgroup
    · exact hrest.each g hg

theorem AreGroups.nodup_nodeLow {groups : List (List (ElementPair T))} (h : AreGroups groups) :
    (groups.map nodeLow).Nodup :=
  List.pairwise_map.mpr (h.sorted.imp fun hlt => Nat.ne_of_lt hlt)

/-- An element is in the group that has its lower bound. -/
theorem AreGroups.mem_group {groups : List (List (ElementPair T))} (h : AreGroups groups)
    {group : List (ElementPair T)} (hmem : group ∈ groups) {e : ElementPair T}
    (he : e ∈ groups.flatten) (hlow : e.1.low = nodeLow group) : e ∈ group := by
  obtain ⟨other, hother, heother⟩ := List.mem_flatten.mp he
  have hkeys : nodeLow other = nodeLow group :=
    ((h.each other hother).sameLow e heother).symm.trans hlow
  exact List.inj_on_of_nodup_map h.nodup_nodeLow hother hmem hkeys ▸ heother

/-- The groups of a node are those of its left child, its own and those of its
right child. -/
theorem AreGroups.split {groups rest : List (List (ElementPair T))} {group : List (ElementPair T)}
    (h : AreGroups (groups ++ group :: rest)) :
    AreGroups groups ∧ IsGroup group ∧ AreGroups rest ∧
      (∀ other ∈ groups, nodeLow other < nodeLow group) ∧
      ∀ other ∈ rest, nodeLow group < nodeLow other := by
  obtain ⟨hsorted, heach⟩ := h
  obtain ⟨hgroups, hrest, hbetween⟩ := List.pairwise_append.mp hsorted
  obtain ⟨hgroup, hlt, hrest⟩ := areGroups_cons.mp
    ⟨hrest, fun g hg => heach g (List.mem_append_right _ hg)⟩
  exact ⟨⟨hgroups, fun g hg => heach g (List.mem_append_left _ hg)⟩, hgroup, hrest,
    fun other hother => hbetween other hother group List.mem_cons_self, hlt⟩

section Insert

variable (interval : Interval) (value : T)

/-- The lower bounds after an insertion: one of a group, or the new one. -/
theorem nodeLow_of_mem_insertGroup {groups : List (List (ElementPair T))} (h : AreGroups groups)
    {group : List (ElementPair T)} (hmem : group ∈ insertGroup interval value groups) :
    nodeLow group = interval.low ∨ ∃ old ∈ groups, nodeLow group = nodeLow old := by
  induction groups with
  | nil =>
      rw [insertGroup, List.mem_singleton] at hmem
      exact Or.inl (hmem ▸ rfl)
  | cons first groups ih =>
      obtain ⟨hfirst, -, hrest⟩ := areGroups_cons.mp h
      rw [insertGroup] at hmem
      split at hmem
      · rcases List.mem_cons.mp hmem with rfl | hmem
        · exact Or.inl rfl
        · exact Or.inr ⟨group, hmem, rfl⟩
      split at hmem
      · next heq =>
          rcases List.mem_cons.mp hmem with rfl | hmem
          · exact Or.inr ⟨first, List.mem_cons_self, (hfirst.addElement heq value).2⟩
          · exact Or.inr ⟨group, List.mem_cons_of_mem _ hmem, rfl⟩
      · rcases List.mem_cons.mp hmem with rfl | hmem
        · exact Or.inr ⟨group, List.mem_cons_self, rfl⟩
        · rcases ih hrest hmem with hnew | ⟨old, hold, heq⟩
          · exact Or.inl hnew
          · exact Or.inr ⟨old, List.mem_cons_of_mem _ hold, heq⟩

theorem AreGroups.insertGroup {groups : List (List (ElementPair T))} (h : AreGroups groups) :
    AreGroups (insertGroup interval value groups) := by
  induction groups with
  | nil => exact areGroups_cons.mpr ⟨isGroup_singleton interval value, by simp, areGroups_nil⟩
  | cons first groups ih =>
      obtain ⟨hfirst, hlt, hrest⟩ := areGroups_cons.mp h
      rw [Containers.insertGroup]
      split
      · next hlow =>
          refine areGroups_cons.mpr ⟨isGroup_singleton interval value, fun other hother => ?_, h⟩
          rcases List.mem_cons.mp hother with rfl | hother
          · exact hlow
          · exact hlow.trans (hlt other hother)
      split
      · next heq =>
          obtain ⟨hgroup, hlow⟩ := hfirst.addElement heq value
          exact areGroups_cons.mpr ⟨hgroup, fun other hother => hlow ▸ hlt other hother, hrest⟩
      · next hnlt hne =>
          refine areGroups_cons.mpr ⟨hfirst, fun other hother => ?_, ih hrest⟩
          rcases nodeLow_of_mem_insertGroup interval value hrest hother with hnew | ⟨old, hold, heq⟩
          · omega
          · exact heq ▸ hlt old hold

theorem flatten_insertGroup_perm (groups : List (List (ElementPair T))) :
    (insertGroup interval value groups).flatten.Perm ((interval, value) :: groups.flatten) := by
  induction groups with
  | nil => exact List.Perm.refl _
  | cons first groups ih =>
      rw [insertGroup]
      split
      · exact List.Perm.refl _
      split
      · exact (addElement_perm first interval value).append_right _
      · exact (ih.append_left first).trans List.perm_middle

/-- An insertion into two runs of groups with a group in between. -/
theorem insertGroup_append {groups rest : List (List (ElementPair T))}
    {group : List (ElementPair T)} (h : ∀ g ∈ groups, nodeLow g < nodeLow group) :
    insertGroup interval value (groups ++ group :: rest) =
      if interval.low < nodeLow group then insertGroup interval value groups ++ group :: rest
      else if interval.low = nodeLow group then
        groups ++ addElement group interval value :: rest
      else groups ++ group :: insertGroup interval value rest := by
  induction groups with
  | nil => simp [insertGroup]
  | cons first groups ih =>
      have hfirst := h first List.mem_cons_self
      rw [List.cons_append, insertGroup, ih fun g hg => h g (List.mem_cons_of_mem _ hg),
        insertGroup]
      split_ifs <;> first | rfl | omega

end Insert

/-! ### The groups of a tree -/

namespace Node

/-- The groups of the nodes, from left to right. -/
def groups : Node T → List (List (ElementPair T))
  | null => []
  | node elements _ left right _ => left.groups ++ elements :: right.groups

/-- All elements of the subtree. -/
def toList (h : Node T) : List (ElementPair T) := h.groups.flatten

@[simp] theorem groups_null : (null : Node T).groups = [] := rfl

@[simp] theorem groups_node (elements : List (ElementPair T)) (color : Color) (left right : Node T)
    (m : ℕ) : (node elements color left right m).groups = left.groups ++ elements :: right.groups :=
  rfl

@[simp] theorem groups_update (elements : List (ElementPair T)) (color : Color)
    (left right : Node T) :
    (update elements color left right).groups = left.groups ++ elements :: right.groups := rfl

@[simp] theorem groups_setColor (color : Color) (h : Node T) :
    (h.setColor color).groups = h.groups := by cases h <;> rfl

@[simp] theorem groups_rotateLeft (h : Node T) : h.rotateLeft.groups = h.groups := by
  rcases h with _ | ⟨elements, color, left, _ | ⟨elements', color', left', right', m'⟩, m⟩ <;>
    simp [rotateLeft]

@[simp] theorem groups_rotateRight (h : Node T) : h.rotateRight.groups = h.groups := by
  rcases h with _ | ⟨elements, color, _ | ⟨elements', color', left', right', m'⟩, right, m⟩ <;>
    simp [rotateRight]

@[simp] theorem groups_fixUp (h : Node T) : h.fixUp.groups = h.groups := by
  cases h with
  | null => rfl
  | node elements color left right m =>
      simp only [fixUp]
      split_ifs <;> simp

/-- An insertion does to the groups what it would do to a sorted list. -/
theorem groups_insertInternal (interval : Interval) (value : T) (color : Color) {h : Node T}
    (hgroups : AreGroups h.groups) :
    (insertInternal interval value color h).groups = insertGroup interval value h.groups := by
  induction h generalizing color with
  | null => rfl
  | node elements oldColor left right m ihLeft ihRight =>
      obtain ⟨hleft, -, hright, hlt, -⟩ := AreGroups.split hgroups
      rw [groups_node, insertGroup_append interval value hlt, insertInternal]
      split_ifs <;> simp [ihLeft _ hleft, ihRight _ hright]

end Node

namespace RedBlackIntervalTree

/-- The groups of a tree that some elements have been inserted into. -/
theorem groups_insertAll (elements : List (ElementPair T)) {tree : RedBlackIntervalTree T}
    (h : AreGroups tree.root.groups) :
    (tree.insertAll elements).root.groups =
        elements.foldl (fun groups e => insertGroup e.1 e.2 groups) tree.root.groups ∧
      AreGroups (tree.insertAll elements).root.groups ∧
      (tree.insertAll elements).root.toList.Perm (elements ++ tree.root.toList) := by
  induction elements generalizing tree with
  | nil => exact ⟨rfl, h, List.Perm.refl _⟩
  | cons e elements ih =>
      have hinsert : (tree.insert e.1 e.2).root.groups = insertGroup e.1 e.2 tree.root.groups := by
        rw [insert, Node.groups_setColor, Node.groups_insertInternal e.1 e.2 _ h]
      have hperm : (tree.insert e.1 e.2).root.toList.Perm (e :: tree.root.toList) := by
        rw [Node.toList, hinsert]
        exact flatten_insertGroup_perm e.1 e.2 _
      have hareGroups : AreGroups (tree.insert e.1 e.2).root.groups :=
        hinsert ▸ h.insertGroup e.1 e.2
      obtain ⟨hgroups, hvalid, hall⟩ := ih hareGroups
      refine ⟨?_, hvalid, hall.trans ?_⟩
      · rw [List.foldl_cons, ← hinsert]
        exact hgroups
      · exact (hperm.append_left elements).trans List.perm_middle

end RedBlackIntervalTree

end TibeeCompare.Containers
