import Mathlib.Data.Int.Cast.Basic
import Mathlib.Algebra.Order.Ring.Int
import Mathlib.Tactic.Ring
import Mathlib.Tactic.Linarith

/-! # Blocks of equal size

The indices from zero on are cut into blocks of one size, which are numbered from zero. -/

namespace PthreadBenchmark

/-- The index is in the block with the number `w`. -/
def InBlock (size w i : ℤ) : Prop := w * size ≤ i ∧ i < (w + 1) * size

variable {size w w' i : ℤ} {n : ℕ}

theorem InBlock.size_pos (h : InBlock size w i) : 0 < size := by
  have hlt := h.1.trans_lt h.2
  rw [add_mul, one_mul] at hlt
  omega

theorem InBlock.ediv_eq (h : InBlock size w i) : i / size = w := by
  rw [Int.ediv_eq_iff_of_pos h.size_pos, ← add_one_mul]
  exact h

/-- An index has one block at most. -/
theorem InBlock.unique (h : InBlock size w i) (h' : InBlock size w' i) : w = w' :=
  h.ediv_eq.symm.trans h'.ediv_eq

/-- The indices of the first `n` blocks. -/
theorem exists_inBlock_iff (hsize : 0 ≤ size) :
    (∃ w : Fin n, InBlock size w i) ↔ 0 ≤ i ∧ i < n * size := by
  constructor
  · rintro ⟨w, hfirst, hlast⟩
    have hlt := w.isLt
    refine ⟨(mul_nonneg (Int.natCast_nonneg _) hsize).trans hfirst, hlast.trans_le ?_⟩
    apply mul_le_mul_of_nonneg_right _ hsize
    omega
  · rintro ⟨h0, hi⟩
    have hpos : 0 < size := hsize.lt_of_ne fun hzero => by simp [← hzero] at hi; omega
    have hw : 0 ≤ i / size := Int.ediv_nonneg h0 hsize
    have hlt : i / size < n := Int.ediv_lt_of_lt_mul hpos hi
    refine ⟨⟨(i / size).toNat, by omega⟩, ?_⟩
    have hcast : (((i / size).toNat : ℕ) : ℤ) = i / size := Int.toNat_of_nonneg hw
    simp only [InBlock, hcast]
    exact ⟨Int.ediv_mul_le i hpos.ne', Int.lt_ediv_add_one_mul_self i hpos⟩

end PthreadBenchmark
