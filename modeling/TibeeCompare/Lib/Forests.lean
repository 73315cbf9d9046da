import Mathlib.Algebra.BigOperators.Ring.List
import Mathlib.Data.List.Count
import Mathlib.Data.List.Nodup
import Mathlib.Tactic.Ring

/-!
Forests: each node has a parent or is a root, and each node has a list of children.

A path leads from a node over its ancestors to a root. What a walk over the children below a
node comes across is what has the node on its path, so sums over the one are sums over the
other.
-/

namespace TibeeCompare.Forests

variable {α : Type}

/-- A node and its ancestors, at most `n` of them. -/
def pathTo (parent : α → Option α) : ℕ → α → List α
  | 0, a => [a]
  | n + 1, a =>
      a :: match parent a with
        | none => []
        | some b => pathTo parent n b

/-- A rank that is less for the parent bounds the number of ancestors. -/
theorem pathTo_eq {parent : α → Option α} {rank : α → ℕ}
    (hrank : ∀ a b, parent a = some b → rank b < rank a) {a : α} {n m : ℕ} (hn : rank a ≤ n)
    (hm : rank a ≤ m) : pathTo parent n a = pathTo parent m a := by
  induction n generalizing m a with
  | zero =>
      cases m with
      | zero => rfl
      | succ m =>
          have hroot : parent a = none := by
            cases hparent : parent a with
            | none => rfl
            | some b => exact absurd (hrank a b hparent) (by omega)
          rw [pathTo, pathTo, hroot]
  | succ n ih =>
      cases hparent : parent a with
      | none =>
          cases m with
          | zero => rw [pathTo, pathTo, hparent]
          | succ m => rw [pathTo, pathTo, hparent]
      | some b =>
          have hlt := hrank a b hparent
          cases m with
          | zero => omega
          | succ m =>
              rw [pathTo, pathTo, hparent]
              exact congrArg (a :: ·) (ih (by omega) (by omega))

/-- Paths depend on the parents of their nodes only. -/
theorem pathTo_congr {parent parent' : α → Option α} {p : α → Prop}
    (h : ∀ a, p a → parent a = parent' a)
    (hclosed : ∀ a b, p a → parent a = some b → p b) {a : α} (ha : p a) (n : ℕ) :
    pathTo parent n a = pathTo parent' n a := by
  induction n generalizing a with
  | zero => rfl
  | succ n ih =>
      rw [pathTo, pathTo, ← h a ha]
      cases hparent : parent a with
      | none => rfl
      | some b => exact congrArg (a :: ·) (ih (hclosed a b ha hparent))

structure Forest (α : Type) where
  parent : α → Option α
  children : α → List α
  rank : α → ℕ
  nodup : ∀ a, (children a).Nodup
  mem_children : ∀ {a c}, c ∈ children a ↔ parent c = some a
  rank_lt : ∀ {a c}, parent c = some a → rank a < rank c

namespace Forest

variable (f : Forest α)

/-- A node and all of its ancestors. -/
def path (a : α) : List α := pathTo f.parent (f.rank a) a

variable {f}

theorem path_of_none {a : α} (h : f.parent a = none) : f.path a = [a] := by
  rw [path]
  cases f.rank a with
  | zero => rfl
  | succ n => rw [pathTo, h]

theorem path_of_some {a b : α} (h : f.parent a = some b) : f.path a = a :: f.path b := by
  have hlt := f.rank_lt h
  have hrank : ∀ a b, f.parent a = some b → f.rank b < f.rank a := fun _ _ => f.rank_lt
  rw [path, pathTo_eq hrank (Nat.le_refl _) (Nat.le_succ (f.rank a)), pathTo, h]
  exact congrArg (a :: ·) (pathTo_eq hrank hlt.le (Nat.le_refl _))

/-- Induction from the parent of a node to the node. -/
theorem induction_parent {motive : α → Prop} (root : ∀ a, f.parent a = none → motive a)
    (step : ∀ a b, f.parent a = some b → motive b → motive a) (a : α) : motive a := by
  induction hrank : f.rank a using Nat.strong_induction_on generalizing a with
  | _ n ih =>
      cases hparent : f.parent a with
      | none => exact root a hparent
      | some b => exact step a b hparent (ih (f.rank b) (hrank ▸ f.rank_lt hparent) b rfl)

theorem rank_le_of_mem_path {a b : α} (h : b ∈ f.path a) : f.rank b ≤ f.rank a := by
  induction a using f.induction_parent with
  | root a hroot =>
      rw [path_of_none hroot, List.mem_singleton] at h
      rw [h]
  | step a p hparent ih =>
      rw [path_of_some hparent, List.mem_cons] at h
      rcases h with rfl | h
      · exact Nat.le_refl _
      · exact (ih h).trans (f.rank_lt hparent).le

theorem nodup_path (a : α) : (f.path a).Nodup := by
  induction a using f.induction_parent with
  | root a hroot =>
      rw [path_of_none hroot]
      exact List.nodup_singleton a
  | step a p hparent ih =>
      rw [path_of_some hparent]
      refine List.nodup_cons.mpr ⟨fun hmem => ?_, ih⟩
      exact absurd (rank_le_of_mem_path hmem) (Nat.not_le.mpr (f.rank_lt hparent))

variable [DecidableEq α]

theorem sum_map_ite (b : α) (l : List α) :
    (l.map fun c => if b = c then 1 else 0).sum = l.count b := by
  induction l with
  | nil => rfl
  | cons c l ih =>
      rw [List.map_cons, List.sum_cons, ih, List.count_cons, Nat.add_comm]
      simp only [beq_iff_eq, @eq_comm _ c b]

/-- A path that comes to a node starts there, or comes to one of its children before. -/
theorem count_path (a b : α) :
    (f.path b).count a =
      (if b = a then 1 else 0) + ((f.children a).map fun c => (f.path b).count c).sum := by
  induction b using f.induction_parent with
  | root b hroot =>
      have hchildren : ∀ c ∈ f.children a, [b].count c = 0 := by
        intro c hc
        refine List.count_eq_zero.mpr fun hmem => ?_
        rw [List.mem_singleton.mp hmem, f.mem_children, hroot] at hc
        cases hc
      rw [path_of_none hroot, List.map_congr_left hchildren, List.count_singleton]
      simp
  | step b p hparent ih =>
      -- the first node of the path is a child of `a` exactly if its parent is `a`
      have hfirst : ((f.children a).map fun c => if b = c then 1 else 0).sum =
          if p = a then 1 else 0 := by
        have hmem : b ∈ f.children a ↔ p = a := by
          rw [f.mem_children, hparent, Option.some_inj]
        rw [sum_map_ite, (f.nodup a).count]
        simp only [hmem]
      have hsplit : ((f.children a).map fun c => (b :: f.path p).count c).sum =
          ((f.children a).map fun c => (f.path p).count c).sum +
            ((f.children a).map fun c => if b = c then 1 else 0).sum := by
        rw [← List.sum_map_add]
        simp only [List.count_cons, beq_iff_eq]
      rw [path_of_some hparent, hsplit, hfirst, List.count_cons, ih]
      simp only [beq_iff_eq]
      omega

/-! ### Walks over the children -/

variable (f) in
/-- The nodes below `a`, children before their parents, down to the given depth. -/
def postorder : ℕ → α → List α
  | 0, _ => []
  | n + 1, a => (f.children a).flatMap (postorder n) ++ [a]

/-- A walk that goes deep enough comes to the nodes that have `a` on their path, once to each. -/
theorem count_postorder {bound : ℕ} (hbound : ∀ a, f.rank a < bound) {n : ℕ} {a : α}
    (hn : bound ≤ n + f.rank a) (b : α) : (f.postorder n a).count b = (f.path b).count a := by
  induction n generalizing a with
  | zero => exact absurd (hbound a) (by omega)
  | succ n ih =>
      have hchildren : ∀ c ∈ f.children a, (f.postorder n c).count b = (f.path b).count c := by
        intro c hc
        have hlt := f.rank_lt (f.mem_children.mp hc)
        exact ih (by omega)
      rw [postorder, List.count_append, List.count_flatMap, count_path a b, List.count_singleton]
      rw [Function.comp_def, List.map_congr_left hchildren, Nat.add_comm]
      simp only [beq_iff_eq, @eq_comm _ a b]

/-! ### Sums over what is below a node -/

variable (f) in
/-- The sum of the weights of nodes that have `a` on their path. -/
def inclusive (weights : List (α × ℕ)) (a : α) : ℕ :=
  ((weights.filter fun w => a ∈ f.path w.1).map Prod.snd).sum

@[simp] theorem inclusive_nil (a : α) : f.inclusive [] a = 0 := rfl

theorem inclusive_cons (w : α × ℕ) (weights : List (α × ℕ)) (a : α) :
    f.inclusive (w :: weights) a = w.2 * (f.path w.1).count a + f.inclusive weights a := by
  rw [inclusive, (nodup_path w.1).count]
  by_cases h : a ∈ f.path w.1
  · rw [List.filter_cons_of_pos (by simpa using h), List.map_cons, List.sum_cons, if_pos h,
      Nat.mul_one, inclusive]
  · rw [List.filter_cons_of_neg (by simpa using h), if_neg h, Nat.mul_zero, Nat.zero_add, inclusive]

/-- The weight of a node itself, and the sums of its children. -/
theorem inclusive_eq (weights : List (α × ℕ)) (a : α) :
    f.inclusive weights a = ((weights.filter fun w => w.1 = a).map Prod.snd).sum +
      ((f.children a).map (f.inclusive weights)).sum := by
  induction weights with
  | nil =>
      have hzero : (f.children a).map (f.inclusive []) = (f.children a).map fun _ => 0 :=
        List.map_congr_left fun c _ => inclusive_nil c
      simp [hzero]
  | cons w weights ih =>
      have hchildren : ((f.children a).map (f.inclusive (w :: weights))).sum =
          w.2 * ((f.children a).map fun c => (f.path w.1).count c).sum +
            ((f.children a).map (f.inclusive weights)).sum := by
        rw [← List.sum_map_mul_left, ← List.sum_map_add]
        simp only [← inclusive_cons]
      rw [inclusive_cons, ih, count_path a w.1, hchildren]
      by_cases h : w.1 = a
      · rw [List.filter_cons_of_pos (by simpa using h), List.map_cons, List.sum_cons, if_pos h]
        ring
      · rw [List.filter_cons_of_neg (by simpa using h), if_neg h]
        ring

theorem inclusive_le (weights : List (α × ℕ)) (a : α) :
    f.inclusive weights a ≤ (weights.map Prod.snd).sum := by
  induction weights with
  | nil => rfl
  | cons w weights ih =>
      have hcount : (f.path w.1).count a ≤ 1 := List.nodup_iff_count_le_one.mp (nodup_path w.1) a
      rw [inclusive_cons, List.map_cons, List.sum_cons]
      exact Nat.add_le_add ((Nat.mul_le_mul_left _ hcount).trans_eq (Nat.mul_one _)) ih

end Forest

end TibeeCompare.Forests
