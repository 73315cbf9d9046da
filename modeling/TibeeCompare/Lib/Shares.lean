import Mathlib.Algebra.BigOperators.Group.List.Lemmas
import Mathlib.Algebra.Order.BigOperators.Group.List
import Mathlib.Algebra.GroupWithZero.Nat

/-!
Shares: an amount that is split in proportion to weights, each share rounded down.

The shares of some of the weights never exceed the amount. They use it up only if
nothing was rounded and the weights are all that there are.
-/

namespace TibeeCompare.Shares

variable {amount total : ℕ} {weights : List ℕ}

/-- The share of each weight. -/
def shares (amount total : ℕ) (weights : List ℕ) : List ℕ := weights.map fun w => amount * w / total

theorem sum_shares_cons (amount total w : ℕ) (weights : List ℕ) :
    (shares amount total (w :: weights)).sum * total =
      amount * w / total * total + (shares amount total weights).sum * total := by
  rw [shares, List.map_cons, List.sum_cons, Nat.add_mul]
  rfl

theorem sum_shares_mul_le (amount total : ℕ) (weights : List ℕ) :
    (shares amount total weights).sum * total ≤ amount * weights.sum := by
  induction weights with
  | nil => simp [shares]
  | cons w weights ih =>
      rw [sum_shares_cons, List.sum_cons, Nat.mul_add]
      exact Nat.add_le_add (Nat.div_mul_le_self (amount * w) total) ih

theorem sum_shares_le (htotal : 0 < total) (h : weights.sum ≤ total) :
    (shares amount total weights).sum ≤ amount := by
  have hle : (shares amount total weights).sum * total ≤ amount * total :=
    (sum_shares_mul_le amount total weights).trans (Nat.mul_le_mul_left amount h)
  exact Nat.le_of_mul_le_mul_right hle htotal

/-- Nothing is lost exactly if every share is whole. -/
theorem sum_shares_mul_eq_iff :
    (shares amount total weights).sum * total = amount * weights.sum ↔
      ∀ w ∈ weights, total ∣ amount * w := by
  induction weights with
  | nil => simp [shares]
  | cons w weights ih =>
      have hw := Nat.div_mul_le_self (amount * w) total
      have hrest := sum_shares_mul_le amount total weights
      rw [sum_shares_cons, List.sum_cons, Nat.mul_add, List.forall_mem_cons, ← ih]
      constructor
      · intro h
        exact ⟨Nat.dvd_iff_div_mul_eq .. |>.mpr (by omega), by omega⟩
      · rintro ⟨hdvd, hsum⟩
        rw [Nat.div_mul_cancel hdvd, hsum]

/-- The amount is used up exactly if it is nothing, or if the weights are all of the total and
every share is whole. -/
theorem sum_shares_eq_iff (htotal : 0 < total) (h : weights.sum ≤ total) :
    (shares amount total weights).sum = amount ↔
      amount = 0 ∨ weights.sum = total ∧ ∀ w ∈ weights, total ∣ amount * w := by
  have hmul := sum_shares_mul_le amount total weights
  have hle : amount * weights.sum ≤ amount * total := Nat.mul_le_mul_left amount h
  constructor
  · intro heq
    rw [heq] at hmul
    have hsum : amount * weights.sum = amount * total := Nat.le_antisymm hle hmul
    rcases Nat.eq_zero_or_pos amount with hzero | hpos
    · exact Or.inl hzero
    · refine Or.inr ⟨Nat.eq_of_mul_eq_mul_left hpos hsum, sum_shares_mul_eq_iff.mp ?_⟩
      rw [heq, hsum]
  · rintro (rfl | ⟨hsum, hdvd⟩)
    · exact Nat.le_zero.mp (sum_shares_le htotal h)
    · have heq := sum_shares_mul_eq_iff.mpr hdvd
      rw [hsum] at heq
      exact Nat.eq_of_mul_eq_mul_right htotal heq

end TibeeCompare.Shares
