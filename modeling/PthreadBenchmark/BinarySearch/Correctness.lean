import PthreadBenchmark.BinarySearch.Model

/-! # The threads of `binary_search` find the target under every schedule

The flag only goes from zero to one, and only in a thread that has read the target. A
subtree is pruned only behind that write, so it misses nothing. -/

namespace PthreadBenchmark.BinarySearch

open Thread

variable {arr : ℤ → ℤ} {target low high low₀ high₀ : ℤ}

def Occurs (arr : ℤ → ℤ) (target low high : ℤ) : Prop :=
  ∃ i, low ≤ i ∧ i ≤ high ∧ arr i = target

/-- The flag and the cells of the range. -/
def cells (low high : ℤ) : Set Var := {x | ∀ i, x = .arr i → low ≤ i ∧ i ≤ high}

/-- The one write of the search. -/
def Finds (arr : ℤ → ℤ) (target low high : ℤ) (x : Var) (v : ℤ) : Prop :=
  x = .found ∧ v = 1 ∧ Occurs arr target low high

/-- A thread reads in its range, and sets the flag when it has read the target there. -/
theorem publishes_binarySearch (arr : ℤ → ℤ) (target low high : ℤ) (hlow : low₀ ≤ low)
    (hhigh : high ≤ high₀) :
    (binarySearch target low high).Publishes (memory arr) (cells low₀ high₀)
      (Finds arr target low₀ high₀) := by
  fun_induction binarySearch target low high with
  | case1 low high h => trivial
  | case2 low high h ihl ihr =>
      have hmid := mid_mem (not_lt.mp h)
      have hflag : Var.found ∈ cells low₀ high₀ := fun i hi => by cases hi
      have hrest : (Thread.read Var.found fun found =>
          if found = 0 then
            Thread.fork (binarySearch target low (mid low high - 1))
              (binarySearch target (mid low high + 1) high) Thread.done
          else Thread.done).Publishes (memory arr) (cells low₀ high₀)
            (Finds arr target low₀ high₀) := by
        refine ⟨hflag, fun found _ => ?_⟩
        beta_reduce
        by_cases hfound : found = 0
        · rw [if_pos hfound]
          exact ⟨ihl hlow (by omega), ihr (by omega) hhigh, trivial⟩
        · rw [if_neg hfound]
          trivial
      refine ⟨hflag, fun found _ => ?_⟩
      beta_reduce
      by_cases hfound : found ≠ 0
      · rw [if_pos hfound]
        trivial
      · rw [if_neg hfound]
        refine ⟨?_, fun v hv => ?_⟩
        · rintro i ⟨⟩
          omega
        · beta_reduce
          by_cases heq : v = target
          · rw [if_pos heq]
            refine ⟨⟨rfl, rfl, mid low high, by omega, by omega, ?_⟩, hrest⟩
            rcases hv with hv | hv
            · exact hv.symm.trans heq
            · cases hv.1
          · rw [if_neg heq]
            exact hrest

/-- With the flag down a thread whose range has the target cannot avoid to set it. -/
theorem writes_binarySearch (h : Occurs arr target low high) :
    (binarySearch target low high).Writes (memory arr) := by
  fun_induction binarySearch target low high with
  | case1 low high hlt =>
      obtain ⟨i, hi, hi', -⟩ := h
      omega
  | case2 low high hlt ihl ihr =>
      obtain ⟨i, hi, hi', harr⟩ := h
      have hflag : memory arr .found = 0 := rfl
      simp only [Writes, hflag, ne_eq, not_true, if_false]
      by_cases heq : memory arr (.arr (mid low high)) = target
      · rw [if_pos heq]
        trivial
      · rw [if_neg heq]
        rcases lt_trichotomy i (mid low high) with hlt' | rfl | hgt
        · exact .inl (ihl ⟨i, hi, by omega, harr⟩)
        · exact absurd harr heq
        · exact .inr (.inl (ihr ⟨i, by omega, hi', harr⟩))

/-- Under every schedule of the threads that `binary_search` creates: when the root is done
the flag tells whether the target occurs in the range, only cells of the range are read,
and the program never blocks and every run of it ends. -/
theorem binarySearch_correct (arr : ℤ → ℤ) (target low high : ℤ)
    (s : Thread Var ℤ × (Var → ℤ))
    (hs : (program (binarySearch target low high) (memory arr)).Reachable s) :
    (s.1 = .done → (s.2 .found = 1 ↔ ∃ i, low ≤ i ∧ i ≤ high ∧ arr i = target)) ∧
      (∀ p i, s.1.reading p = some (.arr i) → low ≤ i ∧ i ≤ high) ∧
      (s.1 ≠ .done → ∃ p, (program (binarySearch target low high) (memory arr)).Enabled s p) ∧
      Acc Next s.1 := by
  have hpub := (publishes_binarySearch arr target low high le_rfl le_rfl).of_reachable hs
  refine ⟨fun hdone => ⟨fun hfound => ?_, fun hoccurs => ?_⟩, fun p i hread => ?_,
    fun hne => ?_, acc_next s.1⟩
  · rcases hpub.cells .found with hzero | ⟨-, -, hoccurs⟩
    · rw [hfound] at hzero
      cases hzero
    · exact hoccurs
  · obtain ⟨x, rfl, hone, -⟩ := hpub.exists_of_done (writes_binarySearch hoccurs) hdone
    exact hone
  · exact hpub.publishes.reading_mem hread i rfl
  · obtain ⟨p, s', hstep⟩ := exists_step hne s.2
    exact ⟨p, Option.isSome_iff_exists.mpr ⟨s', hstep⟩⟩

/-- An array that is not sorted, with the target at its end. -/
theorem binarySearch_correct_three :
    ∃ s, (program (binarySearch 5 0 2) (memory fun i => 7 - i)).Reachable s ∧ s.1 = .done ∧
      s.2 .found = 1 := by
  obtain ⟨s, hs, hdone⟩ := exists_finished
    (System.Reachable.init (S := program (binarySearch 5 0 2) (memory fun i => 7 - i)))
  exact ⟨s, hs, hdone, ((binarySearch_correct _ 5 0 2 s hs).1 hdone).mpr
    ⟨2, by decide, by decide, rfl⟩⟩

end PthreadBenchmark.BinarySearch
