import Mathlib.Algebra.Group.Nat.Defs
import Mathlib.Data.Nat.Notation
import Mathlib.Logic.Function.Basic

/-!
Vocabulary shared by all components: timestamps, threads, byte strings, and
the unsigned 64-bit arithmetic of the source where it matters.

Timestamps and thread identifiers are natural numbers. They are compared far
more often than they are computed with; the few subtractions, sums and
products that can leave the 64-bit range are written with `subU64`, `addU64`
and `mulU64`.
-/

namespace TibeeCompare

/-- A `std::string`, as the bytes it holds. -/
abbrev Bytes := List UInt8

/-- The bytes of a string literal of the source. -/
def str (s : String) : Bytes := s.toUTF8.data.toList

/-- Number of values of a 64-bit unsigned integer. -/
abbrev U64 : ℕ := 2 ^ 64

def addU64 (a b : ℕ) : ℕ := (a + b) % U64

def mulU64 (a b : ℕ) : ℕ := a * b % U64

/-- `a - b` on 64-bit unsigned integers: the difference, or the difference
plus `2 ^ 64` when it would be negative. -/
def subU64 (a b : ℕ) : ℕ := if b ≤ a then a - b else a + U64 - b

theorem subU64_of_le {a b : ℕ} (h : b ≤ a) : subU64 a b = a - b := if_pos h

@[simp] theorem subU64_self (a : ℕ) : subU64 a a = 0 := by simp [subU64]

theorem addU64_of_lt {a b : ℕ} (h : a + b < U64) : addU64 a b = a + b :=
  Nat.mod_eq_of_lt h

end TibeeCompare
