import PthreadBenchmark.Shared.PthreadRules

/-! # Joins

A thread that has joined another one knows that it has halted, and it stays halted. -/

namespace PthreadBenchmark.Pthread

variable {ι σ π μ κ : Type*} [DecidableEq ι] [DecidableEq μ] [DecidableEq κ]
  {code : σ → π → Op ι σ π μ κ} {c c' : Config ι σ π μ κ} {shared : σ} {start : ι → π} {i : ι}

/-- The thread that a step leads to another point. -/
theorem Move.of_points_ne (h : Move code c c') (hne : points c' i ≠ points c i) :
    (code c.shared (points c i)).next? = some (points c' i) := by
  rcases h.project with ⟨hpoints, -⟩ | ⟨k, p, q, hk, hq, hpoints, -⟩
  · exact absurd (congrFun hpoints i) hne
  · obtain rfl : i = k := by
      by_contra hik
      exact hne (by rw [hpoints, Function.update_of_ne hik])
    rw [hpoints, Function.update_self, points_of_running hk]
    exact hq

/-- A thread can go past a join only when the other thread has halted. -/
theorem Move.halted_of_join (h : Move code c c') (hne : points c' i ≠ points c i) {j : ι} {q : π}
    (hjoin : code c.shared (points c i) = .join j q) : Halted code c.shared (c.threads j) := by
  have hmover : ∀ {k p}, c.threads k = .running p → (∀ l, l ≠ k → points c' l = points c l) →
      code c.shared p = .join j q := by
    intro k p thread hothers
    obtain rfl : i = k := by
      by_contra hik
      exact hne (hothers i hik)
    rwa [points_of_running thread] at hjoin
  have hupdate : ∀ {k t} l, l ≠ k → point (Function.update c.threads k t l) = points c l := by
    intro k t l hl
    rw [Function.update_of_ne hl]
    rfl
  cases h with
  | lock thread op | unlock thread op | wait thread op | signalNone thread op | run thread op =>
      have hop := hmover thread hupdate
      rw [op] at hop
      cases hop
  | join thread op halted =>
      have hop := hmover thread hupdate
      rw [op] at hop
      cases hop
      exact halted
  | @signal k l p cond m next r thread op sleeper =>
      have hop := hmover thread fun l' hl => by
        simp only [points, Function.update_of_ne hl]
        exact congrFun (points_update_same (by rw [sleeper]; rfl)) l'
      rw [op] at hop
      cases hop
  | broadcast thread op =>
      have hop := hmover thread fun l hl => by
        simp only [points, Function.update_of_ne hl, point_wake]
      rw [op] at hop
      cases hop
  | relock thread => exact absurd (congrFun (points_update_same (by rw [thread]; rfl)) i) hne
  | spurious thread => exact absurd (congrFun (points_update_same (by rw [thread]; rfl)) i) hne

/-- The rule for a thread that joins others in the order of `tid`: its points tell how many it has
joined, and these have halted. -/
theorem halts_of_joined [Fintype ι] {n : ℕ} (tid : Fin n → ι) (joined : π → ℕ) (i : ι)
    {halts : π → Prop} (hhalts : ∀ s p, isHalt (code s p) = true ↔ halts p)
    (hstart : joined (start i) = 0)
    (hjoined : ∀ c, (program code shared start).Reachable c → ∀ q,
      (code c.shared (points c i)).next? = some q → joined q ≤ joined (points c i) ∨
        ∃ (hlt : joined (points c i) < n) (r : π),
          code c.shared (points c i) = .join (tid ⟨joined (points c i), hlt⟩) r ∧
            joined q = joined (points c i) + 1)
    (h : (program code shared start).Reachable c) (w : Fin n) (hw : w < joined (points c i)) :
    halts (points c (tid w)) := by
  induction h with
  | init => exact absurd (hstart ▸ hw) (Nat.not_lt_zero w)
  | @step c c' a hc hs ih =>
      have hmove := move_of_step hs
      -- a halted thread stays where it is
      have hstay : halts (points c (tid w)) → halts (points c' (tid w)) := by
        intro hhalt
        by_cases hsame : points c' (tid w) = points c (tid w)
        · rwa [hsame]
        · have hnext := hmove.of_points_ne hsame
          have hop := (hhalts c.shared _).mpr hhalt
          cases hcode : code c.shared (points c (tid w)) <;> rw [hcode] at hop hnext <;> cases hop
          cases hnext
      apply hstay
      by_cases hsame : points c' i = points c i
      · rw [hsame] at hw
        exact ih hw
      · rcases hjoined c hc _ (hmove.of_points_ne hsame) with hle | ⟨hlt, r, hjoin, hsucc⟩
        · exact ih (hw.trans_le hle)
        · rw [hsucc] at hw
          rcases Nat.lt_succ_iff_lt_or_eq.mp hw with hold | hnew
          · exact ih hold
          · have htid : w = ⟨joined (points c i), hlt⟩ := Fin.ext hnew
            rw [← htid] at hjoin
            exact (hhalts c.shared _).mp (isHalt_of_halted (hmove.halted_of_join hsame hjoin))

end PthreadBenchmark.Pthread
