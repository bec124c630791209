import PthreadBenchmark.ArraySum.Invariant

/-! # What the threads of `010_mutex_array_sum.c` leave behind -/

namespace PthreadBenchmark.ArraySum

open Pthread

variable {n : ℕ} {sizes : ℕ → ℕ} {arr : List ℤ} {s : Shared} {q : Point n} {p : ℕ → Params}
  {c : Config (Tid n) Shared (Point n) Mutex Empty}

/-! ## Joins -/

/-- The number of threads that `main` has joined. -/
def joined : Point n → ℕ
  | .main (.join i) => i
  | .main .returned => n
  | _ => 0

def Halts : Point n → Prop
  | .worker _ .exited | .main .returned | .fault => True
  | _ => False

theorem isHalt_iff (s : Shared) (p : Point n) :
    isHalt (code sizes arr s p) = true ↔ Halts p := by
  cases p with
  | fault => exact iff_of_true rfl trivial
  | main pc =>
      cases pc with
      | split | create | join =>
          refine iff_of_false ?_ id
          simp only [code, main]
          split <;> exact Bool.false_ne_true
      | returned => exact iff_of_true rfl trivial
  | worker w pc =>
      cases pc with
      | loop =>
          refine iff_of_false ?_ id
          simp only [code, func]
          split <;> exact Bool.false_ne_true
      | exited => exact iff_of_true rfl trivial
      | _ => exact iff_of_false Bool.false_ne_true id

theorem joined_of_next {pc : MainPc} (hq : (main sizes s pc : Step n).next? = some q) :
    joined q ≤ joined (.main pc : Point n) ∨
      ∃ (hlt : joined (.main pc : Point n) < n) (r : Point n),
        main sizes s pc = .join (some ⟨joined (.main pc : Point n), hlt⟩) r ∧
          joined q = joined (.main pc : Point n) + 1 := by
  cases pc with
  | split | create =>
      simp only [main] at hq
      split at hq <;> cases hq <;> exact .inl le_rfl
  | join i =>
      by_cases hlt : i < n
      · simp only [main, dif_pos hlt] at hq ⊢
        cases hq
        exact .inr ⟨hlt, _, rfl, rfl⟩
      · simp only [main, dif_neg hlt] at hq
        cases hq
        exact .inl (not_lt.mp hlt)
  | returned => cases hq

/-- When `main` has returned, all threads have ended. -/
theorem exited_of_returned (hsplit : offset sizes n = arr.length)
    (h : (program n sizes arr p).Reachable c) (hreturned : points c none = .main .returned)
    (w : Fin n) : points c (some w) = .worker w .exited := by
  have hhalts : Halts (points c (some w)) := by
    apply halts_of_joined some joined none isHalt_iff rfl ?_ h w
    · rw [hreturned]
      exact w.isLt
    · intro b hb q hq
      have hmain := (summing_of_reachable hsplit hb).main
      cases hp : points b none with
      | main pc =>
          rw [hp] at hq
          exact joined_of_next hq
      | worker | fault =>
          rw [hp] at hmain
          exact hmain.elim
  have hworker := (summing_of_reachable hsplit h).workers w
  cases hp : points c (some w) with
  | main | fault =>
      rw [hp] at hworker
      exact hworker.elim
  | worker w' pc =>
      rw [hp] at hworker hhalts
      obtain ⟨rfl, -⟩ := hworker
      cases pc with
      | exited => rfl
      | _ => exact hhalts.elim

/-! ## Results -/

/-- What `main` is to print. -/
structure Right (arr : List ℤ) (s : Shared) : Prop where
  sum : s.sum = arr.sum
  max : s.max ∈ arr ∧ ∀ v ∈ arr, v ≤ s.max
  min : s.min ∈ arr ∧ ∀ v ∈ arr, s.min ≤ v

/-- What `main` does print. -/
structure Result (arr : List ℤ) (s : Shared) : Prop where
  sum : s.sum = arr.sum
  max : (s.max = 0 ∨ s.max ∈ arr) ∧ 0 ≤ s.max ∧ ∀ v ∈ arr, v ≤ s.max
  min : (s.min = 0 ∨ s.min ∈ arr) ∧ s.min ≤ 0 ∧ ∀ v ∈ arr, s.min ≤ v

theorem result_of_returned (hsplit : offset sizes n = arr.length)
    (h : (program n sizes arr p).Reachable c) (hreturned : points c none = .main .returned) :
    Result arr c.shared := by
  have hsumming := summing_of_reachable hsplit h
  have hexited := exited_of_returned hsplit h hreturned
  have hbounds : ∀ v ∈ arr, v ≤ c.shared.max ∧ c.shared.min ≤ v := by
    intro v hv
    obtain ⟨i, h0, hi, hv⟩ := exists_index_of_mem hv
    rw [← hsplit] at hi
    obtain ⟨w, hlo, hhi⟩ := exists_block h0 hi
    have hworker := hsumming.workers w
    rw [hexited w] at hworker
    obtain ⟨-, -, hmax, hmin⟩ := hworker
    exact ⟨hmax i v hlo hhi hv, hmin i v hlo hhi hv⟩
  refine ⟨?_, ⟨hsumming.max.1, hsumming.max.2, fun v hv => (hbounds v hv).1⟩,
    ⟨hsumming.min.1, hsumming.min.2, fun v hv => (hbounds v hv).2⟩⟩
  have howed : ∑ t, owed sizes arr (points c t) = 0 := by
    rw [Fintype.sum_option, hreturned]
    simp [hexited, owed, WorkerPc.Owes]
  have hsum := hsumming.sum
  rw [howed, add_zero, sum_blockSum, hsplit, sumBefore_length] at hsum
  exact hsum

theorem Result.right_iff (h : Result arr s) :
    Right arr s ↔ (∃ v ∈ arr, 0 ≤ v) ∧ ∃ v ∈ arr, v ≤ 0 := by
  obtain ⟨hsum, ⟨hmax, hmax0, hmaxall⟩, ⟨hmin, hmin0, hminall⟩⟩ := h
  constructor
  · intro hright
    exact ⟨⟨s.max, hright.max.1, hmax0⟩, ⟨s.min, hright.min.1, hmin0⟩⟩
  · rintro ⟨⟨u, hu, hu0⟩, ⟨v, hv, hv0⟩⟩
    refine ⟨hsum, ⟨?_, hmaxall⟩, ⟨?_, hminall⟩⟩
    · rcases hmax with hzero | hmem
      · have hle := hmaxall u hu
        have heq : s.max = u := by omega
        rwa [heq]
      · exact hmem
    · rcases hmin with hzero | hmem
      · have hle := hminall v hv
        have heq : s.min = v := by omega
        rwa [heq]
      · exact hmem

/-- For any array, any split of it into consecutive blocks and any interleaving: once `main` has
joined all threads, its results are right exactly if the array has an element that is not negative
and one that is not positive. -/
theorem array_sum_right_iff (n : ℕ) (sizes : ℕ → ℕ) (arr : List ℤ) (p : ℕ → Params)
    (hsplit : offset sizes n = arr.length) (c : Config (Tid n) Shared (Point n) Mutex Empty)
    (hc : (program n sizes arr p).Reachable c) (hreturned : points c none = .main .returned) :
    Right arr c.shared ↔ (∃ v ∈ arr, 0 ≤ v) ∧ ∃ v ∈ arr, v ≤ 0 :=
  (result_of_returned hsplit hc hreturned).right_iff

/-- Two threads go over one element each, `i` with `k` steps and then `j` with `l` steps. -/
def twoThreads (arr : List ℤ) (i j : Fin 2) (k l : ℕ) :
    Option (Config (Tid 2) Shared (Point 2) Mutex Empty) :=
  (program 2 (fun _ => 1) arr fun _ => ⟨0, 0⟩).exec
    (program 2 (fun _ => 1) arr fun _ => ⟨0, 0⟩).init
    (List.replicate 6 (Action.run none none) ++ List.replicate k (Action.run (some i) none) ++
      List.replicate l (Action.run (some j) none) ++ List.replicate 3 (Action.run none none))

theorem array_sum_right_two : ∃ c, twoThreads [3, -1] 0 1 14 14 = some c ∧
    (Right [3, -1] c.shared ↔ (∃ v ∈ [3, -1], 0 ≤ v) ∧ ∃ v ∈ [3, -1], v ≤ 0) := by
  have hrun : (twoThreads [3, -1] 0 1 14 14).map (fun c => points c none) =
      some (.main .returned) := by
    decide +kernel
  obtain ⟨c, hc, hreturned⟩ := Option.map_eq_some_iff.mp hrun
  exact ⟨c, hc, array_sum_right_iff 2 (fun _ => 1) [3, -1] (fun _ => ⟨0, 0⟩) (by decide) c
    (System.Reachable.init.exec hc) hreturned⟩

/-- All elements are positive, and the smallest one is printed as zero. -/
theorem array_sum_wrong_two : ∃ c,
    (program 2 (fun _ => 1) [3, 1] fun _ => ⟨0, 0⟩).Reachable c ∧
      points c none = .main .returned ∧ c.shared.min = 0 ∧ ¬ Right [3, 1] c.shared := by
  have hrun : (twoThreads [3, 1] 0 1 14 13).map (fun c => (points c none, c.shared.min)) =
      some (.main .returned, 0) := by
    decide +kernel
  obtain ⟨c, hc, heq⟩ := Option.map_eq_some_iff.mp hrun
  obtain ⟨hreturned, hmin⟩ := Prod.mk.inj heq
  refine ⟨c, System.Reachable.init.exec hc, hreturned, hmin, fun hright => ?_⟩
  have hmem := hright.min.1
  rw [hmin] at hmem
  simp at hmem

end PthreadBenchmark.ArraySum
