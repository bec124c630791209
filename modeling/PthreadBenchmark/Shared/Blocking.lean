import PthreadBenchmark.Shared.PthreadRules

/-! # Semaphores and barriers

Semaphores and barriers are shared variables. A thread that cannot pass one is modelled as
a thread that stays at its point, so that it tries again whenever it is scheduled. -/

namespace PthreadBenchmark

/-- An operation that is possible only while `ready` holds. -/
def Op.await {ι σ π μ κ : Type*} (ready : Prop) [Decidable ready] (s s' : σ) (p q : π) :
    Op ι σ π μ κ :=
  .run (if ready then s' else s) (if ready then q else p)

/-- A rule that holds for a step of a waiting thread if it holds where the thread may pass. -/
theorem Op.await_cases {ι σ π μ κ : Type*} {ready : Prop} [Decidable ready] {s s' : σ} {p q r : π}
    (h : (Op.await ready s s' p q : Op ι σ π μ κ).next? = some r) :
    (ready ∧ r = q ∧ (Op.await ready s s' p q : Op ι σ π μ κ).after s = s') ∨
      (r = p ∧ (Op.await ready s s' p q : Op ι σ π μ κ).after s = s) := by
  unfold Op.await at h ⊢
  split at h
  · next hready =>
      cases h
      exact .inl ⟨hready, rfl, by simp [Op.after, hready]⟩
  · next hready =>
      cases h
      exact .inr ⟨rfl, by simp [Op.after, hready]⟩

end PthreadBenchmark
