import TibeeCompare.Db.Keys

/-!
What `leveldb` relies on in the order of the keys.

The comparator is a preorder on all byte strings, since it compares what it looks at as lists of
numbers. On the keys of the database it tells any two apart.
-/

namespace TibeeCompare.Db

open Std

namespace Key

theorem bytes_injective : Function.Injective bytes := fun _ _ h =>
  sortKey_injective (congrArg sortKey h)

theorem compare_eq_iff (a b : Key) : compare a b = .eq ↔ a.bytes = b.bytes := by
  rw [LawfulEqCmp.compare_eq_iff_eq]
  exact bytes_injective.eq_iff.symm

/-- The sign of a comparison goes on from two comparisons that have it. -/
theorem compare_trans {a b c : Key} {sign : Ordering} (hab : compare a b = sign)
    (hbc : compare b c = sign) : compare a c = sign := by
  cases sign with
  | lt => exact TransCmp.lt_trans hab hbc
  | eq => exact TransCmp.eq_trans hab hbc
  | gt => exact TransCmp.gt_trans hab hbc

theorem compare_swap (a b : Key) : compare b a = (compare a b).swap := OrientedCmp.eq_swap

end Key

/-- A strict total order on the keys, with the executions of each name in a row from the first to
the last key that an enumeration seeks. -/
structure OrdersKeys (compare : Bytes → Bytes → Ordering) : Prop where
  antisymmetric : ∀ a b : Key, compare b.bytes a.bytes = (compare a.bytes b.bytes).swap
  transitive : ∀ (a b c : Key) (sign : Ordering), compare a.bytes b.bytes = sign →
    compare b.bytes c.bytes = sign → compare a.bytes c.bytes = sign
  zero : ∀ a b : Key, compare a.bytes b.bytes = .eq ↔ a.bytes = b.bytes
  contiguous : ∀ (id : FunctionNameId) (key : Key),
    (compare key.bytes (Key.execution id 0).bytes ≠ .lt ∧
      compare key.bytes (Key.execution id (-1)).bytes ≠ .gt) ↔
        ∃ timestamp, key.bytes = (Key.execution id timestamp).bytes
  byTimestamp : ∀ (id : FunctionNameId) (ts ts' : UInt64),
    compare (Key.execution id ts).bytes (Key.execution id ts').bytes =
      Ord.compare ts.toNat ts'.toNat

theorem keyCompare_ordersKeys : OrdersKeys keyCompare where
  antisymmetric := Key.compare_swap
  transitive _ _ _ _ := Key.compare_trans
  zero := Key.compare_eq_iff
  contiguous id key := by
    simp only [Key.bytes_injective.eq_iff]
    exact Key.between_iff id key
  byTimestamp := Key.compare_execution_self

end TibeeCompare.Db
