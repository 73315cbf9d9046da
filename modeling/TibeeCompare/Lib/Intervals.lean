import Mathlib.Order.Lattice
import Mathlib.Algebra.GroupWithZero.Nat
import Mathlib.Algebra.BigOperators.Group.List.Basic

/-!
Lists of intervals of time, laid out one after the other.

The elements are of any type; `first` and `last` read their two bounds.
`Ordered lo xs hi` says that the intervals lie between `lo` and `hi`, each
ending before the next one starts; `Tiles lo xs hi` that they fill the span
from `lo` to `hi` without a gap. Both are defined by recursion on the list and
split along `++`, which is how lists that grow at the end are reasoned about.
-/

namespace TibeeCompare.Intervals

variable {α τ : Type} [LinearOrder τ] (first last : α → τ)

/-- The intervals lie between `lo` and `hi`, in order and without overlap. -/
def Ordered : τ → List α → τ → Prop
  | lo, [], hi => lo ≤ hi
  | lo, x :: xs, hi => lo ≤ first x ∧ first x ≤ last x ∧ Ordered (last x) xs hi

/-- The intervals fill the span from `lo` to `hi`: the first starts at `lo`, each
starts where the one before it ends, and the last ends at `hi`. -/
def Tiles : τ → List α → τ → Prop
  | lo, [], hi => lo = hi
  | lo, x :: xs, hi => first x = lo ∧ first x ≤ last x ∧ Tiles (last x) xs hi

variable {first last}

theorem Tiles.ordered {lo hi : τ} {xs : List α} (h : Tiles first last lo xs hi) :
    Ordered first last lo xs hi := by
  induction xs generalizing lo with
  | nil => exact h.le
  | cons x xs ih => exact ⟨h.1.ge, h.2.1, ih h.2.2⟩

theorem Ordered.le {lo hi : τ} {xs : List α} (h : Ordered first last lo xs hi) : lo ≤ hi := by
  induction xs generalizing lo with
  | nil => exact h
  | cons x xs ih => exact h.1.trans (h.2.1.trans (ih h.2.2))

omit [LinearOrder τ] in
theorem exists_mid_iff {a b : Prop} {p q : τ → Prop} :
    (a ∧ b ∧ ∃ mid, p mid ∧ q mid) ↔ ∃ mid, (a ∧ b ∧ p mid) ∧ q mid := by
  constructor
  · rintro ⟨ha, hb, mid, hp, hq⟩
    exact ⟨mid, ⟨ha, hb, hp⟩, hq⟩
  · rintro ⟨mid, ⟨ha, hb, hp⟩, hq⟩
    exact ⟨ha, hb, mid, hp, hq⟩

theorem ordered_append {lo hi : τ} {xs ys : List α} :
    Ordered first last lo (xs ++ ys) hi ↔
      ∃ mid, Ordered first last lo xs mid ∧ Ordered first last mid ys hi := by
  induction xs generalizing lo with
  | nil =>
      constructor
      · exact fun h => ⟨lo, le_refl lo, h⟩
      · rintro ⟨mid, hlo, h⟩
        cases ys with
        | nil => exact le_trans hlo h
        | cons y ys => exact ⟨le_trans hlo h.1, h.2⟩
  | cons x xs ih =>
      simp only [List.cons_append, Ordered, ih]
      exact exists_mid_iff

theorem tiles_append {lo hi : τ} {xs ys : List α} :
    Tiles first last lo (xs ++ ys) hi ↔
      ∃ mid, Tiles first last lo xs mid ∧ Tiles first last mid ys hi := by
  induction xs generalizing lo with
  | nil =>
      constructor
      · exact fun h => ⟨lo, rfl, h⟩
      · rintro ⟨mid, rfl, h⟩
        exact h
  | cons x xs ih =>
      simp only [List.cons_append, Tiles, ih]
      exact exists_mid_iff

/-- The upper bound of an ordered list may be moved up. -/
theorem Ordered.mono {lo hi hi' : τ} {xs : List α} (h : Ordered first last lo xs hi)
    (hhi : hi ≤ hi') : Ordered first last lo xs hi' := by
  have hnil : Ordered first last hi ([] : List α) hi' := hhi
  simpa using ordered_append.mpr ⟨hi, h, hnil⟩

theorem Ordered.bounds {lo hi : τ} {xs : List α} (h : Ordered first last lo xs hi) {x : α}
    (hx : x ∈ xs) : lo ≤ first x ∧ first x ≤ last x ∧ last x ≤ hi := by
  induction xs generalizing lo with
  | nil => exact absurd hx List.not_mem_nil
  | cons y ys ih =>
      obtain ⟨hlo, hy, htail⟩ := h
      rcases List.mem_cons.mp hx with rfl | hx
      · exact ⟨hlo, hy, htail.le⟩
      · obtain ⟨h₁, h₂⟩ := ih htail hx
        exact ⟨hlo.trans (hy.trans h₁), h₂⟩

theorem Ordered.pairwise {lo hi : τ} {xs : List α} (h : Ordered first last lo xs hi) :
    xs.Pairwise fun x y => last x ≤ first y := by
  induction xs generalizing lo with
  | nil => exact List.Pairwise.nil
  | cons x xs ih =>
      exact List.Pairwise.cons (fun y hy => (h.2.2.bounds hy).1) (ih h.2.2)

theorem Tiles.first_of_head? {lo hi : τ} {xs : List α} (h : Tiles first last lo xs hi) {x : α}
    (hx : xs.head? = some x) : first x = lo := by
  cases xs with
  | nil => cases hx
  | cons y xs =>
      obtain rfl := Option.some.inj hx
      exact h.1

/-- Durations of intervals in order add up to no more than the length of the span. -/
theorem Ordered.sum_durations_le {first last : α → ℕ} {lo hi : ℕ} {xs : List α}
    (h : Ordered first last lo xs hi) : (xs.map fun x => last x - first x).sum ≤ hi - lo := by
  induction xs generalizing lo with
  | nil => exact Nat.zero_le _
  | cons x xs ih =>
      obtain ⟨hlo, hx, htail⟩ := h
      have hle := htail.le
      have hrest := ih htail
      rw [List.map_cons, List.sum_cons]
      omega

/-- The durations of a tiling add up to the length of the span. -/
theorem Tiles.sum_durations {first last : α → ℕ} {lo hi : ℕ} {xs : List α}
    (h : Tiles first last lo xs hi) : (xs.map fun x => last x - first x).sum = hi - lo := by
  induction xs generalizing lo with
  | nil => simp [show lo = hi from h]
  | cons x xs ih =>
      obtain ⟨rfl, hx, htail⟩ := h
      have hle := htail.ordered.le
      rw [List.map_cons, List.sum_cons, ih htail]
      omega

end TibeeCompare.Intervals
