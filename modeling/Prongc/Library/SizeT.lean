import Mathlib.Algebra.Group.Nat.Defs

namespace Prongc.Library.SizeT

/-- The value of a size_t after a decrement. -/
def sizePred (n : Nat) : Nat := if n = 0 then 2 ^ 64 - 1 else n - 1

/-- The value of a size_t after an increment. -/
def sizeSucc (n : Nat) : Nat := if n = 2 ^ 64 - 1 then 0 else n + 1

theorem sizeSucc_of_lt {n : Nat} (h : n + 1 < 2 ^ 64) : sizeSucc n = n + 1 := by
  rw [sizeSucc, if_neg (by omega)]

theorem sizePred_eq_zero {n : Nat} : sizePred n = 0 ↔ n = 1 := by
  rw [sizePred]
  split <;> omega

end Prongc.Library.SizeT
