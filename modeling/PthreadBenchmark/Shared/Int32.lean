import Mathlib.Algebra.Order.Ring.Int

/-! # Numbers of an `int` of 32 bits -/

namespace PthreadBenchmark

/-- What does not fit wraps around. -/
def toInt (x : ℤ) : ℤ := x.bmod (2 ^ 32)

def InIntRange (x : ℤ) : Prop := -2 ^ 31 ≤ x ∧ x < 2 ^ 31

variable {x y : ℤ}

theorem toInt_of_inIntRange (h : InIntRange x) : toInt x = x := by
  obtain ⟨hlo, hhi⟩ := h
  rw [toInt, Int.bmod_def]
  split <;> omega

theorem inIntRange_zero : InIntRange 0 := ⟨by decide, by decide⟩

theorem inIntRange_toInt (x : ℤ) : InIntRange (toInt x) := by
  rw [toInt, Int.bmod_def, InIntRange]
  split <;> omega

theorem toInt_emod (x : ℤ) : toInt x % 2 ^ 32 = x % 2 ^ 32 := by
  rw [toInt, Int.bmod_def]
  split <;> omega

/-- The last conversion of a sum is enough. -/
theorem toInt_toInt_add (x y : ℤ) : toInt (toInt x + y) = toInt (x + y) :=
  Int.bmod_add_bmod

end PthreadBenchmark
