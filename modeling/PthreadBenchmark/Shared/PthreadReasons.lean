import PthreadBenchmark.Shared.PthreadRules

/-! # Reasons to sleep

A thread tests a condition and sleeps while it holds. Where another thread makes the
condition false, it has to broadcast; until it does, it owes the sleepers a broadcast. -/

namespace PthreadBenchmark

namespace Pthread

variable {ι σ π μ κ : Type*} {cond : κ} {reason : σ → π → Prop} {owes : π → Prop} {s s' : σ}
  {threads : ι → Status π μ κ} {t : Status π μ κ} {i : ι}

/-- What an operation must do so that a thread sleeps on `cond` only for a `reason`: a
thread that takes the reason away is at a point that `owes` a broadcast, and stays at such
points until it broadcasts. -/
def Minds [DecidableEq κ] (cond : κ) (reason : σ → π → Prop) (owes : π → Prop) (s : σ) (p : π) :
    Op ι σ π μ κ → Prop
  | .wait c _ q => (c = cond → reason s q) ∧ ¬ owes p
  | .broadcast c q => c = cond ∨ (owes p → owes q)
  | .run s' q => (∀ r, reason s r → reason s' r ∨ owes q) ∧ (owes p → owes q)
  | .lock _ q | .unlock _ q | .signal _ q | .join _ q => owes p → owes q
  | .halt => True

/-- A sleeper has a reason, or some thread owes a broadcast. -/
def Minded (cond : κ) (reason : σ → π → Prop) (owes : π → Prop) (s : σ)
    (threads : ι → Status π μ κ) : Prop :=
  ∀ i m q, threads i = .asleep cond m q → reason s q ∨ ∃ j, owes (point (threads j))

/-- A step of one thread that does not end asleep on `cond`. -/
theorem Minded.update [DecidableEq ι]
    (h : Minded cond reason owes s threads) (ht : ¬ AsleepOn cond t)
    (howes : owes (point (threads i)) → owes (point t))
    (hreason : ∀ r, reason s r → reason s' r ∨ owes (point t)) :
    Minded cond reason owes s' (Function.update threads i t) := by
  intro j m q hj
  have hasleep : AsleepOn cond (Function.update threads i t j) := by
    rw [hj]
    rfl
  have hji : j ≠ i := by
    intro heq
    subst heq
    rw [Function.update_self] at hasleep
    exact ht hasleep
  rw [Function.update_of_ne hji] at hj
  rcases h j m q hj with hr | ⟨k, hk⟩
  · apply (hreason q hr).imp_right
    intro hq
    exact ⟨i, by rwa [Function.update_self]⟩
  · right
    by_cases hki : k = i
    · subst hki
      exact ⟨k, by rw [Function.update_self]; exact howes hk⟩
    · exact ⟨k, by rwa [Function.update_of_ne hki]⟩

theorem Minded.wakeAll [DecidableEq κ] (c : κ)
    (h : Minded cond reason owes s threads) :
    Minded cond reason owes s fun i => wake c (threads i) := by
  intro i m q hi
  simp only [point_wake]
  exact h i m q (asleep_of_wake hi)

variable [DecidableEq ι] [DecidableEq μ] [DecidableEq κ]
  {code : σ → π → Op ι σ π μ κ} {c c' : Config ι σ π μ κ}

theorem Minded.of_move (hs : ∀ s p, Minds cond reason owes s p (code s p))
    (h : Minded cond reason owes c.shared c.threads) (hmove : Move code c c') :
    Minded cond reason owes c'.shared c'.threads := by
  have hminds : ∀ {p o}, code c.shared p = o → Minds cond reason owes c.shared p o :=
    fun op => op ▸ hs c.shared _
  cases hmove with
  | relock thread free => exact h.update id (by simp [thread, point]) fun r => .inl
  | spurious thread => exact h.update id (by simp [thread, point]) fun r => .inl
  | lock thread op free =>
      have hmind := hminds op
      exact h.update id (by simpa [thread, point, Minds] using hmind) fun r => .inl
  | unlock thread op own =>
      have hmind := hminds op
      exact h.update id (by simpa [thread, point, Minds] using hmind) fun r => .inl
  | join thread op halted =>
      have hmind := hminds op
      exact h.update id (by simpa [thread, point, Minds] using hmind) fun r => .inl
  | signalNone thread op awake =>
      have hmind := hminds op
      exact h.update id (by simpa [thread, point, Minds] using hmind) fun r => .inl
  | run thread op =>
      have hmind := hminds op
      exact h.update id (by simpa [thread, point] using hmind.2) hmind.1
  | @signal i j p c' m next q thread op sleeper =>
      have hmind := hminds op
      have hne : i ≠ j := by
        intro heq
        subst heq
        rw [thread] at sleeper
        cases sleeper
      have hwoken : Minded cond reason owes c.shared (Function.update c.threads j (.woken m q)) :=
        h.update id (by simp [sleeper, point]) fun r => .inl
      apply hwoken.update id _ fun r => .inl
      simpa [Function.update_of_ne hne, thread, point, Minds] using hmind
  | @broadcast i p c' next thread op =>
      have hmind := hminds op
      rcases hmind with rfl | hmind
      · intro j m q hj
        have hasleep : AsleepOn c' (Function.update (fun j => wake c' (c.threads j)) i
            (.running next) j) := by
          simp only at hj
          rw [hj]
          rfl
        have hwoken := asleepOn_of_update id hasleep
        exact absurd hwoken (not_asleepOn_wake c' (c.threads j))
      · apply (h.wakeAll c').update id _ fun r => .inl
        simpa [thread, wake, point] using hmind
  | @wait i p c' m next thread op own =>
      have hmind := hminds op
      by_cases hcond : c' = cond
      · intro j m' q hj
        simp only at hj ⊢
        by_cases hji : j = i
        · subst hji
          simp only [Function.update_self, Status.asleep.injEq] at hj
          exact .inl (hj.2.2 ▸ hmind.1 hcond)
        · rw [Function.update_of_ne hji] at hj
          rcases h j m' q hj with hr | ⟨k, hk⟩
          · exact .inl hr
          · have hki : k ≠ i := by
              intro heq
              subst heq
              rw [thread] at hk
              exact hmind.2 hk
            exact .inr ⟨k, by rwa [Function.update_of_ne hki]⟩
      · have hawake : ¬ AsleepOn cond (.asleep c' m next : Status π μ κ) := hcond
        apply h.update hawake _ fun r => .inl
        intro hp
        rw [thread] at hp
        exact absurd hp hmind.2

theorem minded_of_reachable [Fintype ι] (hs : ∀ s p, Minds cond reason owes s p (code s p))
    {shared : σ} {start : ι → π} (h : (program code shared start).Reachable c) :
    Minded cond reason owes c.shared c.threads := by
  apply h.invariant (P := fun c => Minded cond reason owes c.shared c.threads)
  · intro i m q hi
    cases hi
  · exact fun _ _ _ hinv hstep => hinv.of_move hs (move_of_step hstep)

end Pthread

end PthreadBenchmark
