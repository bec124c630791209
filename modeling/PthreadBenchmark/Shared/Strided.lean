import Mathlib.Algebra.BigOperators.Fin
import Mathlib.Algebra.BigOperators.Group.Finset.Basic
import Mathlib.Algebra.Order.BigOperators.Group.Finset

/-! # Strided loops

`for (j = t; j < n; j += step)`, run for each `t < step`, visits every index below `n`
once. -/

namespace PthreadBenchmark

/-- The sum of `f` over the indices that a strided loop still has before it at `j`. -/
def ahead (step n : ℕ) (f : ℕ → ℕ) (j : ℕ) : ℕ :=
  ∑ x ∈ Finset.range n, if j ≤ x ∧ x % step = j % step then f x else 0

variable {step n j : ℕ} (f : ℕ → ℕ)

theorem ahead_of_le (h : n ≤ j) : ahead step n f j = 0 := by
  refine Finset.sum_eq_zero fun x hx => if_neg ?_
  rw [Finset.mem_range] at hx
  omega

/-- One round of the loop. -/
theorem ahead_of_lt (h : j < n) (hstep : 0 < step) :
    ahead step n f j = f j + ahead step n f (j + step) := by
  have hsplit : ∀ x, (if j ≤ x ∧ x % step = j % step then f x else 0) =
      (if x = j then f j else 0) +
        if j + step ≤ x ∧ x % step = (j + step) % step then f x else 0 := by
    intro x
    rw [Nat.add_mod_right]
    by_cases hx : x = j
    · subst x
      have hbeyond : ¬ j + step ≤ j := by omega
      simp [hbeyond]
    · by_cases hbefore : j ≤ x ∧ x % step = j % step
      · have hdvd : step ∣ x - j := Nat.dvd_of_mod_eq_zero (Nat.sub_mod_eq_zero_of_mod_eq hbefore.2)
        have hle := Nat.le_of_dvd (by omega) hdvd
        simp [hx, hbefore, show j + step ≤ x by omega]
      · have hnot : ¬ (j + step ≤ x ∧ x % step = j % step) := fun hafter =>
          hbefore ⟨by omega, hafter.2⟩
        simp [hx, hbefore, hnot]
  unfold ahead
  simp only [hsplit, Finset.sum_add_distrib, Finset.sum_ite_eq', Finset.mem_range, h, if_true]

/-- Together the loops visit every index once. -/
theorem sum_ahead (hstep : 0 < step) :
    ∑ t : Fin step, ahead step n f t = ∑ x ∈ Finset.range n, f x := by
  unfold ahead
  rw [Finset.sum_comm]
  refine Finset.sum_congr rfl fun x _ => ?_
  have hlt := Nat.mod_lt x hstep
  rw [Finset.sum_eq_single (⟨x % step, hlt⟩ : Fin step)]
  · rw [if_pos ⟨Nat.mod_le x step, (Nat.mod_eq_of_lt hlt).symm⟩]
  · intro t _ hne
    refine if_neg fun ht => hne (Fin.ext ?_)
    exact ((ht.2.trans (Nat.mod_eq_of_lt t.isLt))).symm
  · intro hnot
    exact absurd (Finset.mem_univ _) hnot

end PthreadBenchmark
