import Mathlib.Algebra.BigOperators.Group.Finset.Basic
import Mathlib.Algebra.Order.BigOperators.Group.Finset
import Mathlib.Data.Fintype.BigOperators

/-! # Weights of a family of threads

A counting invariant over any number of threads is a sum of weights of their local
states. A step changes one local state, so each sum moves by that thread's weight. -/

namespace PthreadBenchmark

variable {ι σ : Type*} [Fintype ι]

/-- The sum of `f` over the local states of all threads. -/
def weight (f : σ → ℕ) (threads : ι → σ) : ℕ := ∑ i, f (threads i)

/-- Only the thread that moved changes a sum of weights. -/
theorem weight_update [DecidableEq ι] (f : σ → ℕ) (threads : ι → σ) (i : ι) (v : σ) :
    weight f (Function.update threads i v) + f (threads i) = weight f threads + f v := by
  have hrest : ∑ j ∈ Finset.univ.erase i, f (Function.update threads i v j) =
      ∑ j ∈ Finset.univ.erase i, f (threads j) := by
    apply Finset.sum_congr rfl
    intro j hj
    rw [Function.update_of_ne (Finset.ne_of_mem_erase hj)]
  have hall := Finset.add_sum_erase Finset.univ (fun j => f (threads j)) (Finset.mem_univ i)
  unfold weight
  rw [← Finset.add_sum_erase _ _ (Finset.mem_univ i), hrest, Function.update_self]
  omega

/-- The rule for sums of what threads have taken and given back. -/
theorem balance_update [DecidableEq ι] {α : Type*} [AddCommGroup α] (f : σ → α) (threads : ι → σ)
    (i : ι) (v : σ) :
    ∑ j, f (Function.update threads i v j) = ∑ j, f (threads j) + f v - f (threads i) := by
  have hcomp : (fun j => f (Function.update threads i v j)) =
      Function.update (fun j => f (threads j)) i (f v) := Function.comp_update f threads i v
  have hall := Finset.add_sum_erase Finset.univ (fun j => f (threads j)) (Finset.mem_univ i)
  rw [hcomp, Finset.sum_update_of_mem (Finset.mem_univ i), Finset.sdiff_singleton_eq_erase, ← hall]
  rw [add_assoc, add_sub_cancel_left, add_comm]

/-- A thread that comes down brings the sum down. -/
theorem weight_update_lt [DecidableEq ι] {f : σ → ℕ} {threads : ι → σ} {i : ι} {v : σ}
    (h : f v < f (threads i)) : weight f (Function.update threads i v) < weight f threads := by
  have hweight := weight_update f threads i v
  omega

/-- Where no thread rises by more than `k`, the sum rises by at most `k` for each thread. -/
theorem weight_le_add {f : σ → ℕ} {threads threads' : ι → σ} {k : ℕ}
    (h : ∀ i, f (threads' i) ≤ f (threads i) + k) :
    weight f threads' ≤ weight f threads + Fintype.card ι * k := by
  calc weight f threads' ≤ ∑ i, (f (threads i) + k) := Finset.sum_le_sum fun i _ => h i
    _ = weight f threads + Fintype.card ι * k := by
        rw [Finset.sum_add_distrib, Finset.sum_const, Finset.card_univ, Nat.nsmul_eq_mul]
        rfl

theorem le_weight (f : σ → ℕ) (threads : ι → σ) (i : ι) :
    f (threads i) ≤ weight f threads :=
  Finset.single_le_sum (f := fun j => f (threads j)) (fun _ _ => Nat.zero_le _)
    (Finset.mem_univ i)

/-- Two different threads weigh together at most the whole. -/
theorem add_le_weight [DecidableEq ι] (f : σ → ℕ) (threads : ι → σ) {i j : ι}
    (h : i ≠ j) : f (threads i) + f (threads j) ≤ weight f threads := by
  have hj : j ∈ Finset.univ.erase i := Finset.mem_erase.mpr ⟨h.symm, Finset.mem_univ j⟩
  have hle := Finset.single_le_sum (f := fun k => f (threads k))
    (fun _ _ => Nat.zero_le _) hj
  unfold weight
  rw [← Finset.add_sum_erase _ _ (Finset.mem_univ i)]
  exact Nat.add_le_add_left hle _

theorem weight_eq_zero_iff (f : σ → ℕ) (threads : ι → σ) :
    weight f threads = 0 ↔ ∀ i, f (threads i) = 0 := by
  simp [weight]

/-- A positive sum has a thread that contributes to it. -/
theorem exists_of_weight_pos {f : σ → ℕ} {threads : ι → σ} (h : 0 < weight f threads) :
    ∃ i, 0 < f (threads i) := by
  by_contra hnone
  have hzero : weight f threads = 0 := by
    rw [weight_eq_zero_iff]
    intro i
    have hi : ¬ 0 < f (threads i) := fun hpos => hnone ⟨i, hpos⟩
    omega
  omega

/-- Where one sum exceeds another, some thread makes the difference. -/
theorem exists_lt_of_weight_lt {f g : σ → ℕ} {threads : ι → σ}
    (h : weight f threads < weight g threads) : ∃ i, f (threads i) < g (threads i) := by
  obtain ⟨i, -, hi⟩ := Finset.exists_lt_of_sum_lt h
  exact ⟨i, hi⟩

/-- A second contributing thread is found besides `i` when the sum exceeds its weight. -/
theorem exists_ne_of_lt_weight [DecidableEq ι] {f : σ → ℕ} {threads : ι → σ} {i : ι}
    (h : f (threads i) < weight f threads) : ∃ j, j ≠ i ∧ 0 < f (threads j) := by
  by_contra hnone
  have hrest : ∑ j ∈ Finset.univ.erase i, f (threads j) = 0 := by
    apply Finset.sum_eq_zero
    intro j hj
    have hj' : ¬ 0 < f (threads j) := fun hpos =>
      hnone ⟨j, Finset.ne_of_mem_erase hj, hpos⟩
    omega
  unfold weight at h
  rw [← Finset.add_sum_erase _ _ (Finset.mem_univ i), hrest] at h
  omega

/-- A sum to which one thread alone contributes. -/
theorem weight_eq_of_forall_ne {f : σ → ℕ} {threads : ι → σ} (i : ι)
    (h : ∀ j, j ≠ i → f (threads j) = 0) : weight f threads = f (threads i) :=
  Finset.sum_eq_single i (fun j _ hj => h j hj) fun hi => absurd (Finset.mem_univ i) hi

end PthreadBenchmark
