import TibeeCompare.Containers.TreeGroups
import Mathlib.Data.Nat.Log
import Mathlib.Data.Finset.Card

/-!
The invariants of the tree: search order, cached maxima and colors.

On the way down an insertion splits the nodes with two red children; on the way up
two rotations repair what this and the new node break. What a call may leave to its
caller depends on the color that the node has when the call is made: below a red
node there may be one red node too many, on its left.
-/

namespace TibeeCompare.Containers

variable {T : Type}

namespace Node

/-- The key of each node lies above the keys on its left, and below those on its
right. -/
def SearchOrder : Node T → Prop
  | null => True
  | node elements _ left right _ =>
      (∀ group ∈ left.groups, nodeLow group < nodeLow elements) ∧
        (∀ group ∈ right.groups, nodeLow elements < nodeLow group) ∧
        left.SearchOrder ∧ right.SearchOrder

/-- Each node keeps the largest higher bound of its subtree. -/
def MaxCached : Node T → Prop
  | null => True
  | node elements color left right subtreeMaxHigh =>
      subtreeMaxHigh = maxHigh (node elements color left right subtreeMaxHigh).toList ∧
        left.MaxCached ∧ right.MaxCached

/-- No red node has a red child. -/
def NoRedRed : Node T → Prop
  | null => True
  | node _ color left right _ =>
      (color = .red → left.isRed = false ∧ right.isRed = false) ∧ left.NoRedRed ∧ right.NoRedRed

/-- A right child is red only if the left child is red too. -/
def LeansLeft : Node T → Prop
  | null => True
  | node _ _ left right _ =>
      (right.isRed = true → left.isRed = true) ∧ left.LeansLeft ∧ right.LeansLeft

/-- All paths to the leaves have `n` black nodes. -/
def BlackHeight : ℕ → Node T → Prop
  | n, null => n = 0
  | n, node _ .red left right _ => left.BlackHeight n ∧ right.BlackHeight n
  | n, node _ .black left right _ => ∃ k, n = k + 1 ∧ left.BlackHeight k ∧ right.BlackHeight k

def height : Node T → ℕ
  | null => 0
  | node _ _ left right _ => max left.height right.height + 1

def nodeCount : Node T → ℕ
  | null => 0
  | node _ _ left right _ => left.nodeCount + right.nodeCount + 1

theorem length_groups (h : Node T) : h.groups.length = h.nodeCount := by
  induction h with
  | null => rfl
  | node elements color left right m ihLeft ihRight =>
      rw [groups_node, List.length_append, List.length_cons, ihLeft, ihRight, nodeCount]
      omega

theorem searchOrder_of_sorted {h : Node T}
    (hsorted : h.groups.Pairwise fun a b => nodeLow a < nodeLow b) : h.SearchOrder := by
  induction h with
  | null => trivial
  | node elements color left right m ihLeft ihRight =>
      obtain ⟨hleft, hright, hbetween⟩ := List.pairwise_append.mp hsorted
      obtain ⟨habove, hright⟩ := List.pairwise_cons.mp hright
      exact ⟨fun g hg => hbetween g hg elements List.mem_cons_self, habove, ihLeft hleft,
        ihRight hright⟩

/-! ### Cached maxima -/

theorem MaxCached.subtreeMaxHigh_eq {h : Node T} (hmax : h.MaxCached) :
    h.subtreeMaxHigh = maxHigh h.toList := by
  cases h with
  | null => rfl
  | node elements color left right m => exact hmax.1

theorem maxCached_update {elements : List (ElementPair T)} {color : Color} {left right : Node T}
    (hsorted : elements.Pairwise endsBy) (hleft : left.MaxCached) (hright : right.MaxCached) :
    (update elements color left right).MaxCached := by
  refine ⟨?_, hleft, hright⟩
  have hlist : (update elements color left right).toList =
      left.toList ++ (elements ++ right.toList) := by
    simp [toList]
  show max (max left.subtreeMaxHigh right.subtreeMaxHigh) (nodeMaxHigh elements) =
    maxHigh (update elements color left right).toList
  rw [hlist, hleft.subtreeMaxHigh_eq, hright.subtreeMaxHigh_eq, nodeMaxHigh_eq hsorted,
    maxHigh_append, maxHigh_append]
  omega

theorem MaxCached.setColor {h : Node T} (hmax : h.MaxCached) (color : Color) :
    (h.setColor color).MaxCached := by
  cases h with
  | null => trivial
  | node elements oldColor left right m => exact ⟨hmax.1, hmax.2⟩

/-- The elements of every node are sorted. -/
def ElementsSorted (h : Node T) : Prop := ∀ group ∈ h.groups, group.Pairwise endsBy

theorem MaxCached.rotateLeft {h : Node T} (hmax : h.MaxCached) (hsorted : h.ElementsSorted) :
    h.rotateLeft.MaxCached := by
  rcases h with _ | ⟨elements, color, left, _ | ⟨elements', color', left', right', m'⟩, m⟩
  · trivial
  · exact hmax
  · obtain ⟨-, hleft, -, hleft', hright'⟩ := hmax
    exact maxCached_update (hsorted _ (by simp))
      (maxCached_update (hsorted _ (by simp)) hleft hleft') hright'

theorem MaxCached.rotateRight {h : Node T} (hmax : h.MaxCached) (hsorted : h.ElementsSorted) :
    h.rotateRight.MaxCached := by
  rcases h with _ | ⟨elements, color, _ | ⟨elements', color', left', right', m'⟩, right, m⟩
  · trivial
  · exact hmax
  · obtain ⟨-, ⟨-, hleft', hright'⟩, hright⟩ := hmax
    exact maxCached_update (hsorted _ (by simp)) hleft'
      (maxCached_update (hsorted _ (by simp)) hright' hright)

theorem MaxCached.fixUp {h : Node T} (hmax : h.MaxCached) (hsorted : h.ElementsSorted) :
    h.fixUp.MaxCached := by
  cases h with
  | null => exact hmax
  | node elements color left right m =>
      have hmax' := hmax.rotateLeft hsorted
      have hsorted' : (node elements color left right m).rotateLeft.ElementsSorted := by
        rwa [ElementsSorted, groups_rotateLeft]
      simp only [Node.fixUp]
      split_ifs
      · exact hmax'.rotateRight hsorted'
      · exact hmax'
      · exact hmax.rotateRight hsorted
      · exact hmax

theorem MaxCached.insertInternal (interval : Interval) (value : T) (color : Color) {h : Node T}
    (hmax : h.MaxCached) (hgroups : AreGroups h.groups) :
    (insertInternal interval value color h).MaxCached := by
  have hafter : (Node.insertInternal interval value color h).ElementsSorted := by
    rw [ElementsSorted, groups_insertInternal interval value color hgroups]
    exact fun g hg => ((hgroups.insertGroup interval value).each g hg).sorted
  induction h generalizing color with
  | null => exact maxCached_update (List.pairwise_insertionSort _ _) trivial trivial
  | node elements oldColor left right m ihLeft ihRight =>
      obtain ⟨-, hleft, hright⟩ := hmax
      obtain ⟨hgroupsLeft, hgroup, hgroupsRight, -, -⟩ := AreGroups.split hgroups
      have hinner : ∀ {inner : Node T} (hinner : AreGroups inner.groups) (c : Color),
          (Node.insertInternal interval value c inner).ElementsSorted := by
        intro inner hinner c
        rw [ElementsSorted, groups_insertInternal interval value c hinner]
        exact fun g hg => ((hinner.insertGroup interval value).each g hg).sorted
      rw [Node.insertInternal] at hafter ⊢
      split_ifs at hafter ⊢ <;> rw [ElementsSorted, groups_fixUp] at hafter <;>
        refine MaxCached.fixUp (maxCached_update ?_ ?_ ?_) hafter
      all_goals first
        | exact hgroup.sorted
        | exact List.pairwise_insertionSort _ _
        | exact hleft.setColor _
        | exact hright.setColor _
        | exact ihLeft _ hleft hgroupsLeft (hinner hgroupsLeft _)
        | exact ihRight _ hright hgroupsRight (hinner hgroupsRight _)

/-! ### Colors -/

/-- A tree that keeps all the rules, with the color of its root. -/
inductive Balanced : Color → ℕ → Node T → Prop
  | null : Balanced .black 0 null
  | red {k : ℕ} {elements : List (ElementPair T)} {left right : Node T} {m : ℕ}
      (hleft : Balanced .black k left) (hright : Balanced .black k right) :
      Balanced .red k (node elements .red left right m)
  | black {k : ℕ} {elements : List (ElementPair T)} {left right : Node T} {m : ℕ}
      {leftColor rightColor : Color} (hleft : Balanced leftColor k left)
      (hright : Balanced rightColor k right) (hleans : rightColor = .red → leftColor = .red) :
      Balanced .black (k + 1) (node elements .black left right m)

theorem Balanced.color_eq {color : Color} {k : ℕ} {h : Node T} (hb : Balanced color k h) :
    h.color = color := by cases hb <;> rfl

theorem Balanced.isRed {color : Color} {k : ℕ} {h : Node T} (hb : Balanced color k h) :
    h.isRed = decide (color = .red) := by rw [Node.isRed, hb.color_eq]

theorem Balanced.setColor_self {color : Color} {k : ℕ} {h : Node T} (hb : Balanced color k h) :
    h.setColor color = h := by cases hb <;> rfl

/-- A red root may be made black: one black node more on every path. -/
theorem Balanced.setColor_black {k : ℕ} {h : Node T} (hb : Balanced .red k h) :
    Balanced .black (k + 1) (h.setColor .black) := by
  cases hb with
  | red hleft hright => exact .black hleft hright (fun h => (by cases h))

theorem Balanced.left_isRed {k : ℕ} {h : Node T} (hb : Balanced .red k h) :
    h.left.isRed = false := by
  cases hb with
  | red hleft hright => exact hleft.isRed

/-- A node that an insertion may turn red although it was black. -/
def splits : Node T → Bool
  | null => true
  | node _ _ left right _ => left.isRed && right.isRed

/-- What an insertion makes of a subtree that was called with a color. -/
inductive Inserted (k : ℕ) : Color → Bool → Node T → Prop
  | stays {h : Node T} (hb : Balanced .black k h) : Inserted k .black false h
  | splits {color : Color} {h : Node T} (hb : Balanced color k h) : Inserted k .black true h
  | loose {elements : List (ElementPair T)} {left right : Node T} {m : ℕ} {leftColor : Color}
      (hleft : Balanced leftColor k left) (hright : Balanced .black k right) :
      Inserted k .red false (node elements .red left right m)

theorem Inserted.balanced {k : ℕ} {splits : Bool} {h : Node T} (hi : Inserted k .black splits h) :
    ∃ color, Balanced color k h := by
  cases hi with
  | stays hb => exact ⟨_, hb⟩
  | splits hb => exact ⟨_, hb⟩

/-! #### The two rotations -/

section FixUp

variable {elements elements' : List (ElementPair T)} {color : Color}
  {left right left' right' : Node T} {m' : ℕ}

theorem fixUp_update_eq :
    fixUp (update elements color left right) =
      let h :=
        if !left.isRed && right.isRed then (update elements color left right).rotateLeft
        else update elements color left right
      if h.left.isRed && h.left.left.isRed then h.rotateRight else h := rfl

theorem fixUp_update (hleans : right.isRed = true → left.isRed = true)
    (hleft : left.isRed = true → left.left.isRed = false) :
    fixUp (update elements color left right) = update elements color left right := by
  have hrotate : (!left.isRed && right.isRed) = false := by
    cases hr : right.isRed with
    | false => exact Bool.and_false _
    | true => rw [hleans hr]; rfl
  have hrotate' : (left.isRed && left.left.isRed) = false := by
    cases hl : left.isRed with
    | false => rfl
    | true => exact hleft hl
  rw [fixUp_update_eq, hrotate]
  show (if left.isRed && left.left.isRed then _ else _) = _
  rw [hrotate']
  rfl

/-- A red node on the right moves to the left. -/
theorem fixUp_rotateLeft (hleft : left.isRed = false) :
    fixUp (update elements color left (node elements' .red left' right' m')) =
      update elements' color (update elements .red left left') right' := by
  rw [fixUp_update_eq, hleft]
  show (if true && left.isRed then _ else _) = _
  rw [hleft]
  rfl

/-- Two red nodes on the left become the children of the node between them. -/
theorem fixUp_rotateRight (hleft : left'.isRed = true) :
    fixUp (update elements color (node elements' .red left' right' m') right) =
      update elements' color left' (update elements .red right' right) := by
  rw [fixUp_update_eq]
  show (if true && left'.isRed then _ else _) = _
  rw [hleft]
  rfl

end FixUp

section Repair

variable {elements : List (ElementPair T)} {k : ℕ} {left right : Node T}

theorem fixUp_balanced {leftColor rightColor : Color} (hleft : Balanced leftColor k left)
    (hright : Balanced rightColor k right) (hleans : rightColor = .red → leftColor = .red)
    (color : Color) :
    fixUp (update elements color left right) = update elements color left right := by
  refine fixUp_update (fun h => ?_) (fun h => ?_)
  · rw [hright.isRed, decide_eq_true_eq] at h
    rw [hleft.isRed, decide_eq_true_eq]
    exact hleans h
  · rw [hleft.isRed, decide_eq_true_eq] at h
    subst h
    exact hleft.left_isRed

/-- Below a red node. -/
theorem fixUp_red {leftColor rightColor : Color} (hleft : Balanced leftColor k left)
    (hright : Balanced rightColor k right) (hone : leftColor = .black ∨ rightColor = .black) :
    Inserted k .red false (fixUp (update elements .red left right)) := by
  cases rightColor with
  | black =>
      rw [fixUp_balanced hleft hright (fun h => (by cases h))]
      exact .loose hleft hright
  | red =>
      obtain rfl : leftColor = .black := hone.resolve_right (fun h => (by cases h))
      cases hright with
      | red hleft' hright' =>
          rw [fixUp_rotateLeft hleft.isRed]
          exact .loose (.red hleft hleft') hright'

/-- Below a black node, when the left child is black or the right child is not the
one that changed. -/
theorem fixUp_black {leftColor rightColor : Color} (hleft : Balanced leftColor k left)
    (hright : Balanced rightColor k right) :
    Balanced .black (k + 1) (fixUp (update elements .black left right)) := by
  cases rightColor with
  | black =>
      rw [fixUp_balanced hleft hright (fun h => (by cases h))]
      exact .black hleft hright (fun h => (by cases h))
  | red =>
      cases leftColor with
      | red =>
          rw [fixUp_balanced hleft hright (fun h => h)]
          exact .black hleft hright (fun h => h)
      | black =>
          cases hright with
          | red hleft' hright' =>
              rw [fixUp_rotateLeft hleft.isRed]
              exact .black (.red hleft hleft') hright' (fun _ => rfl)

/-- Below a black node whose left child was called with the color red. -/
theorem fixUp_loose (hleft : Inserted k .red false left) (hright : Balanced .black k right) :
    Balanced .black (k + 1) (fixUp (update elements .black left right)) := by
  cases hleft with
  | @loose elements' left' right' m' leftColor hleft' hright' =>
      cases leftColor with
      | black => exact fixUp_black (.red hleft' hright') hright
      | red =>
          rw [fixUp_rotateRight hleft'.isRed]
          exact .black hleft' (.red hright' hright) (fun _ => rfl)

end Repair

theorem Balanced.splits_of_red {k : ℕ} {h : Node T} (hb : Balanced .red k h) :
    h.splits = false := by
  cases hb with
  | red hleft hright => rw [Node.splits, hleft.isRed]; rfl

theorem insertInternal_balanced (interval : Interval) (value : T) {color : Color} {k : ℕ}
    {h : Node T} (hb : Balanced color k (h.setColor color)) :
    Inserted k color h.splits (insertInternal interval value color h) := by
  induction h generalizing color k with
  | null =>
      cases hb
      exact .splits (.red .null .null)
  | node elements oldColor left right m ihLeft ihRight =>
      rw [insertInternal]
      cases hb with
      -- a red node: its children are black, so that there are no colors to flip
      | red hleft hright =>
          have hflips : (left.isRed && right.isRed) = false := by rw [hleft.isRed]; rfl
          have hsplits : (node elements oldColor left right m).splits = false := hflips
          obtain ⟨leftColor, hleft'⟩ := (ihLeft (by rwa [hleft.setColor_self])).balanced
          obtain ⟨rightColor, hright'⟩ := (ihRight (by rwa [hright.setColor_self])).balanced
          simp only [hflips, hsplits, Bool.false_eq_true, if_false, hleft.color_eq, hright.color_eq,
            hleft.setColor_self, hright.setColor_self]
          split_ifs
          · exact fixUp_red hleft' hright (Or.inr rfl)
          · exact fixUp_red hleft hright (Or.inl rfl)
          · exact fixUp_red hleft hright' (Or.inl rfl)
      | @black k _ _ _ _ leftColor rightColor hleft hright hleans =>
          by_cases hflips : (left.isRed && right.isRed) = true
          · -- a node with two red children: they get black, and stay black
            obtain ⟨hl, hr⟩ := Bool.and_eq_true_iff.mp hflips
            rw [hleft.isRed, decide_eq_true_eq] at hl
            rw [hright.isRed, decide_eq_true_eq] at hr
            subst hl hr
            have hsplits : (node elements oldColor left right m).splits = true := hflips
            have hstays : ∀ {inner : Node T}, Inserted (k + 1) .black false inner →
                Balanced .black (k + 1) inner := by
              rintro inner ⟨hb⟩
              assumption
            have hleft' := hstays (hleft.splits_of_red ▸ ihLeft hleft.setColor_black)
            have hright' := hstays (hright.splits_of_red ▸ ihRight hright.setColor_black)
            simp only [hflips, hsplits, if_true, hleft.color_eq, hright.color_eq, Color.flip]
            have hleft := hleft.setColor_black
            have hright := hright.setColor_black
            split_ifs
            · rw [fixUp_balanced hleft' hright id]
              exact .splits (.red hleft' hright)
            · rw [fixUp_balanced hleft hright id]
              exact .splits (.red hleft hright)
            · rw [fixUp_balanced hleft hright' id]
              exact .splits (.red hleft hright')
          · have hflips : (left.isRed && right.isRed) = false := by simpa using hflips
            have hsplits : (node elements oldColor left right m).splits = false := hflips
            -- the tree leans to the left: a red right child has a red one beside it, as above
            obtain rfl : rightColor = .black := by
              cases rightColor with
              | black => rfl
              | red => rw [hleft.isRed, hright.isRed, hleans rfl] at hflips; cases hflips
            have hleft' := ihLeft (hleft.setColor_self.symm ▸ hleft)
            obtain ⟨rightColor, hright'⟩ := (ihRight (hright.setColor_self.symm ▸ hright)).balanced
            simp only [hflips, hsplits, Bool.false_eq_true, if_false, hleft.color_eq,
              hright.color_eq, hleft.setColor_self, hright.setColor_self]
            refine .stays ?_
            split_ifs
            · cases leftColor with
              | black =>
                  obtain ⟨newColor, hleft'⟩ := hleft'.balanced
                  exact fixUp_black hleft' hright
              | red => exact fixUp_loose (hleft.splits_of_red ▸ hleft') hright
            · exact fixUp_black hleft hright
            · exact fixUp_black hleft hright'

/-- A tree with all rules kept is not higher than twice its number of black nodes. -/
theorem Balanced.height_le {color : Color} {k : ℕ} {h : Node T} (hb : Balanced color k h) :
    h.height ≤ 2 * k + (if color = .red then 1 else 0) := by
  induction hb with
  | null => exact Nat.zero_le _
  | red hleft hright ihLeft ihRight =>
      simp only [reduceCtorEq, if_false, if_true, Node.height] at ihLeft ihRight ⊢
      omega
  | black hleft hright hleans ihLeft ihRight =>
      rw [Node.height]
      split_ifs at ihLeft ihRight ⊢ <;> omega

theorem Balanced.le_nodeCount {color : Color} {k : ℕ} {h : Node T} (hb : Balanced color k h) :
    2 ^ k ≤ h.nodeCount + 1 := by
  induction hb with
  | null => exact Nat.le_refl _
  | red hleft hright ihLeft ihRight =>
      rw [Node.nodeCount]
      omega
  | black hleft hright hleans ihLeft ihRight =>
      rw [Node.nodeCount, Nat.pow_succ]
      omega

theorem Balanced.noRedRed {color : Color} {k : ℕ} {h : Node T} (hb : Balanced color k h) :
    h.NoRedRed := by
  induction hb with
  | null => trivial
  | red hleft hright ihLeft ihRight => exact ⟨fun _ => ⟨hleft.isRed, hright.isRed⟩, ihLeft, ihRight⟩
  | black hleft hright hleans ihLeft ihRight => exact ⟨fun h => (by cases h), ihLeft, ihRight⟩

theorem Balanced.leansLeft {color : Color} {k : ℕ} {h : Node T} (hb : Balanced color k h) :
    h.LeansLeft := by
  induction hb with
  | null => trivial
  | red hleft hright ihLeft ihRight =>
      exact ⟨fun h => (by rw [hright.isRed] at h; cases h), ihLeft, ihRight⟩
  | black hleft hright hleans ihLeft ihRight =>
      refine ⟨fun h => ?_, ihLeft, ihRight⟩
      rw [hright.isRed, decide_eq_true_eq] at h
      rw [hleft.isRed, decide_eq_true_eq]
      exact hleans h

theorem Balanced.blackHeight {color : Color} {k : ℕ} {h : Node T} (hb : Balanced color k h) :
    h.BlackHeight k := by
  induction hb with
  | null => rfl
  | red hleft hright ihLeft ihRight => exact ⟨ihLeft, ihRight⟩
  | black hleft hright hleans ihLeft ihRight => exact ⟨_, rfl, ihLeft, ihRight⟩

end Node

namespace RedBlackIntervalTree

/-- What holds of a tree that some elements have been inserted into. -/
structure WellFormed (tree : RedBlackIntervalTree T) (inserted : List (ElementPair T)) : Prop where
  searchOrder : tree.root.SearchOrder
  groups : ∀ group ∈ tree.root.groups, IsGroup group
  maxCached : tree.root.MaxCached
  elements : tree.root.toList.Perm inserted
  size : tree.size = inserted.length
  rootBlack : tree.root.color = .black
  noRedRed : tree.root.NoRedRed
  leansLeft : tree.root.LeansLeft
  blackHeight : ∃ n, tree.root.BlackHeight n
  /-- There are as many nodes as lower bounds. -/
  nodeCount : tree.root.nodeCount = (inserted.map fun e => e.1.low).toFinset.card
  height : tree.root.height ≤ 2 * Nat.log 2 (tree.root.nodeCount + 1)

/-- The invariant that an insertion keeps. -/
structure Valid (tree : RedBlackIntervalTree T) : Prop where
  groups : AreGroups tree.root.groups
  maxCached : tree.root.MaxCached
  balanced : ∃ n, tree.root.Balanced .black n

theorem valid_empty : Valid ({} : RedBlackIntervalTree T) :=
  ⟨areGroups_nil, trivial, 0, .null⟩

theorem Valid.insert {tree : RedBlackIntervalTree T} (h : tree.Valid) (interval : Interval)
    (value : T) : (tree.insert interval value).Valid := by
  obtain ⟨n, hb⟩ := h.balanced
  refine ⟨?_, (h.maxCached.insertInternal interval value _ h.groups).setColor _, ?_⟩
  · rw [RedBlackIntervalTree.insert, Node.groups_setColor,
      Node.groups_insertInternal interval value _ h.groups]
    exact h.groups.insertGroup interval value
  · have hinserted := Node.insertInternal_balanced interval value
      (hb.color_eq ▸ hb.setColor_self.symm ▸ hb : Node.Balanced tree.root.color n _)
    rw [hb.color_eq] at hinserted
    obtain ⟨color, hb'⟩ := hinserted.balanced
    rw [RedBlackIntervalTree.insert, hb.color_eq]
    cases color with
    | black => exact ⟨n, hb'.setColor_self.symm ▸ hb'⟩
    | red => exact ⟨n + 1, hb'.setColor_black⟩

theorem valid_insertAll {tree : RedBlackIntervalTree T} (h : tree.Valid)
    (elements : List (ElementPair T)) : (tree.insertAll elements).Valid := by
  induction elements generalizing tree with
  | nil => exact h
  | cons e elements ih => exact ih (h.insert e.1 e.2)

theorem size_insertAll (tree : RedBlackIntervalTree T) (elements : List (ElementPair T)) :
    (tree.insertAll elements).size = tree.size + elements.length := by
  induction elements generalizing tree with
  | nil => rfl
  | cons e elements ih =>
      show ((tree.insert e.1 e.2).insertAll elements).size = _
      rw [ih, List.length_cons]
      show tree.size + 1 + elements.length = tree.size + (elements.length + 1)
      omega

/-- The nodes have the lower bounds of the elements as their keys, each once. -/
theorem nodeCount_eq {h : Node T} (hgroups : AreGroups h.groups) :
    h.nodeCount = (h.toList.map fun e => e.1.low).toFinset.card := by
  have hkeys : (h.toList.map fun e => e.1.low).toFinset = (h.groups.map nodeLow).toFinset := by
    ext low
    simp only [List.mem_toFinset, List.mem_map, Node.toList, List.mem_flatten]
    constructor
    · rintro ⟨e, ⟨group, hgroup, he⟩, rfl⟩
      exact ⟨group, hgroup, ((hgroups.each group hgroup).sameLow e he).symm⟩
    · rintro ⟨group, hgroup, rfl⟩
      obtain ⟨e, he⟩ := List.exists_mem_of_ne_nil _ (hgroups.each group hgroup).nonempty
      exact ⟨e, ⟨group, hgroup, he⟩, (hgroups.each group hgroup).sameLow e he⟩
  rw [hkeys, List.toFinset_card_of_nodup hgroups.nodup_nodeLow, List.length_map, Node.length_groups]

/-- A tree holds what was inserted into it. -/
theorem perm_insertAll (inserted : List (ElementPair T)) :
    (insertAll {} inserted).root.toList.Perm inserted := by
  have hempty : Valid ({} : RedBlackIntervalTree T) := valid_empty
  simpa [Node.toList] using (groups_insertAll inserted hempty.groups).2.2

/-- Every tree that insertions build from the empty one is a well-formed red-black
tree with exactly the inserted elements. -/
theorem wellFormed_insertAll (inserted : List (ElementPair T)) :
    WellFormed (insertAll {} inserted) inserted := by
  have hempty : Valid ({} : RedBlackIntervalTree T) := valid_empty
  have hvalid := valid_insertAll hempty inserted
  obtain ⟨n, hb⟩ := hvalid.balanced
  have hperm := perm_insertAll inserted
  have hheight := hb.height_le
  have hlog : n ≤ Nat.log 2 ((insertAll {} inserted).root.nodeCount + 1) :=
    Nat.le_log_of_pow_le Nat.one_lt_two hb.le_nodeCount
  have hsize : (insertAll {} inserted).size = 0 + inserted.length := size_insertAll {} inserted
  refine ⟨Node.searchOrder_of_sorted hvalid.groups.sorted, hvalid.groups.each, hvalid.maxCached,
    hperm, hsize.trans (Nat.zero_add _), hb.color_eq, hb.noRedRed, hb.leansLeft,
    ⟨n, hb.blackHeight⟩, ?_, ?_⟩
  · rw [nodeCount_eq hvalid.groups, List.toFinset_eq_of_perm _ _ (hperm.map _)]
  · rw [if_neg (by decide)] at hheight
    omega

end RedBlackIntervalTree

end TibeeCompare.Containers
