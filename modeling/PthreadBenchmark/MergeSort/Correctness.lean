import PthreadBenchmark.MergeSort.Model
import PthreadBenchmark.Shared.Segment
import Mathlib.Data.List.Sort
import Mathlib.Order.Interval.Set.Basic

/-! # The threads of `merge_sort` sort under every schedule

`merge` takes no lock. It needs none: the two children of a thread work on the two halves
of its range, and the parent merges after both have been joined. -/

namespace PthreadBenchmark.MergeSort

open Thread

variable {S : Set ℕ} {m : ℕ → ℤ} {low mid high : ℕ}

/-! ## What the loops compute -/

theorem run_copyLoop (base n i : ℕ) (dst : ℕ → ℤ) (k : (ℕ → ℤ) → Thread ℕ ℤ) (m : ℕ → ℤ) :
    (copyLoop base n i dst k).run m = (k (store dst i (segment m (base + i) (n - i)))).run m := by
  fun_induction copyLoop base n i dst k with
  | case1 i dst hi ih =>
      rw [run, ih, show n - i = n - (i + 1) + 1 by omega, segment_succ, store, Nat.add_assoc]
  | case2 i dst hi => rw [Nat.sub_eq_zero_of_le (by omega), segment_zero, store]

theorem run_tailLoop (src : ℕ → ℤ) (n i k : ℕ) (next : ℕ → Thread ℕ ℤ) (m : ℕ → ℤ) :
    (tailLoop src n i k next).run m =
      (next (k + (n - i))).run (store m k (segment src i (n - i))) := by
  fun_induction tailLoop src n i k next generalizing m with
  | case1 i k hi ih =>
      rw [run, ih, show n - i = n - (i + 1) + 1 by omega, segment_succ, store,
        show k + 1 + (n - (i + 1)) = k + (n - (i + 1) + 1) by omega]
  | case2 i k hi => rw [Nat.sub_eq_zero_of_le (by omega), segment_zero, store, Nat.add_zero]

theorem run_mergeLoop (left right : ℕ → ℤ) (n1 n2 i j k : ℕ) (m : ℕ → ℤ) :
    (mergeLoop left right n1 n2 i j k).run m =
      store m k (List.merge (segment left i (n1 - i)) (segment right j (n2 - j))) := by
  fun_induction mergeLoop left right n1 n2 i j k generalizing m with
  | case1 i j k hij hle ih =>
      rw [run, ih, show n1 - i = n1 - (i + 1) + 1 by omega,
        show n2 - j = n2 - (j + 1) + 1 by omega, segment_succ, segment_succ]
      rw [List.cons_merge_cons, if_pos (by simpa using hle), store]
  | case2 i j k hij hle ih =>
      rw [run, ih, show n1 - i = n1 - (i + 1) + 1 by omega,
        show n2 - j = n2 - (j + 1) + 1 by omega, segment_succ, segment_succ]
      rw [List.cons_merge_cons, if_neg (by simpa using hle), store]
  | case3 i j k hij =>
      rw [run_tailLoop, run_tailLoop, run]
      by_cases hi : i < n1
      · rw [Nat.sub_eq_zero_of_le (show n2 ≤ j by omega)]
        simp [store]
      · rw [Nat.sub_eq_zero_of_le (show n1 ≤ i by omega)]
        simp [store]

theorem run_merge (m : ℕ → ℤ) :
    (merge low mid high).run m = store m low
      (List.merge (segment m low (mid - low + 1)) (segment m (mid + 1) (high - mid))) := by
  have hlen : ∀ base n, segment (store (fun _ => 0) 0 (segment m base n)) 0 n =
      segment m base n := by
    intro base n
    simpa using segment_store (fun _ => 0) 0 (segment m base n)
  rw [merge, run_copyLoop, run_copyLoop, run_mergeLoop]
  simp only [Nat.sub_zero, Nat.add_zero, hlen]

/-! ## Footprints -/

theorem within_copyLoop {base n i : ℕ} {dst : ℕ → ℤ} {k : (ℕ → ℤ) → Thread ℕ ℤ}
    (hread : ∀ j, i ≤ j → j < n → base + j ∈ S) (hk : ∀ dst, (k dst).Within S) :
    (copyLoop base n i dst k).Within S := by
  fun_induction copyLoop base n i dst k with
  | case1 i dst hi ih =>
      exact ⟨hread i le_rfl hi, fun v => ih v fun j hj => hread j (by omega)⟩
  | case2 i dst hi => exact hk dst

theorem within_tailLoop {src : ℕ → ℤ} {n i k : ℕ} {next : ℕ → Thread ℕ ℤ}
    (hwrite : ∀ j, i ≤ j → j < n → k + (j - i) ∈ S) (hnext : (next (k + (n - i))).Within S) :
    (tailLoop src n i k next).Within S := by
  fun_induction tailLoop src n i k next with
  | case1 i k hi ih =>
      refine ⟨by simpa using hwrite i le_rfl hi, ih (fun j hj hn => ?_) ?_⟩
      · have hmem := hwrite j (by omega) hn
        rwa [show k + (j - i) = k + 1 + (j - (i + 1)) by omega] at hmem
      · rwa [show k + (n - i) = k + 1 + (n - (i + 1)) by omega] at hnext
  | case2 i k hi => rwa [Nat.sub_eq_zero_of_le (by omega)] at hnext

/-- The merge loops write as many cells as there are elements left. -/
theorem within_mergeLoop {left right : ℕ → ℤ} {n1 n2 i j k : ℕ}
    (hwrite : ∀ c, k ≤ c → c < k + ((n1 - i) + (n2 - j)) → c ∈ S) :
    (mergeLoop left right n1 n2 i j k).Within S := by
  fun_induction mergeLoop left right n1 n2 i j k with
  | case1 i j k hij hle ih =>
      exact ⟨hwrite k le_rfl (by omega), ih fun c hc hlt => hwrite c (by omega) (by omega)⟩
  | case2 i j k hij hle ih =>
      exact ⟨hwrite k le_rfl (by omega), ih fun c hc hlt => hwrite c (by omega) (by omega)⟩
  | case3 i j k hij =>
      apply within_tailLoop (fun c hc hn => hwrite _ (by omega) (by omega))
      exact within_tailLoop (fun c hc hn => hwrite _ (by omega) (by omega)) trivial

theorem within_merge (hlow : low ≤ mid) (hhigh : mid < high) :
    (merge low mid high).Within (Set.Icc low high) := by
  refine within_copyLoop (fun j _ hj => ⟨by omega, by omega⟩) fun left => ?_
  refine within_copyLoop (fun j _ hj => ⟨by omega, by omega⟩) fun right => ?_
  exact within_mergeLoop fun c hc hlt => ⟨hc, by omega⟩

/-- A thread stays in its range, and its children split the range. -/
theorem within_mergeSort (low high : ℕ) : (mergeSort low high).Within (Set.Icc low high) := by
  fun_induction mergeSort low high with
  | case1 low high hlt mid ihl ihr =>
      have hmid : low ≤ mid ∧ mid < high := by omega
      refine ⟨Set.Icc low mid, Set.Icc (mid + 1) high, ?_, ?_, ?_, ihl, ihr,
        within_merge hmid.1 hmid.2⟩
      · exact Set.Icc_subset_Icc le_rfl hmid.2.le
      · exact Set.Icc_subset_Icc (by omega) le_rfl
      · rw [Set.disjoint_left]
        rintro i ⟨-, hi⟩ ⟨hi', -⟩
        omega
  | case2 low high hlt => trivial

/-! ## The sequential run sorts -/

/-- `m'` is `m` with the range sorted. -/
structure SortsRange (m m' : ℕ → ℤ) (low high : ℕ) : Prop where
  perm : (segment m' low (high + 1 - low)).Perm (segment m low (high + 1 - low))
  sorted : (segment m' low (high + 1 - low)).Pairwise (· ≤ ·)
  frame : ∀ i, i < low ∨ high < i → m' i = m i

/-- Merging two sorted halves sorts the range. -/
theorem sortsRange_merge {m₁ m₂ : ℕ → ℤ} (hlow : low ≤ mid) (hhigh : mid < high)
    (hl : SortsRange m m₁ low mid) (hr : SortsRange m₁ m₂ (mid + 1) high) :
    SortsRange m ((merge low mid high).run m₂) low high := by
  have hleft : segment m₂ low (mid - low + 1) = segment m₁ low (mid + 1 - low) := by
    rw [show mid - low + 1 = mid + 1 - low by omega]
    exact segment_congr fun i h1 h2 => hr.frame i (by omega)
  have hright : segment m₁ (mid + 1) (high - mid) = segment m (mid + 1) (high - mid) :=
    segment_congr fun i h1 h2 => hl.frame i (by omega)
  have hsplit : segment m low (high + 1 - low) =
      segment m low (mid + 1 - low) ++ segment m (mid + 1) (high - mid) := by
    rw [show high + 1 - low = (mid + 1 - low) + (high - mid) by omega, segment_add,
      show low + (mid + 1 - low) = mid + 1 by omega]
  have hrperm := hr.perm
  have hrsorted := hr.sorted
  rw [show high + 1 - (mid + 1) = high - mid by omega] at hrperm hrsorted
  have hmerged := segment_store m₂ low
    (List.merge (segment m₁ low (mid + 1 - low)) (segment m₂ (mid + 1) (high - mid)))
  have hlength : (List.merge (segment m₁ low (mid + 1 - low))
      (segment m₂ (mid + 1) (high - mid))).length = high + 1 - low := by
    rw [List.length_merge, segment_length, segment_length]
    omega
  rw [hlength] at hmerged
  rw [run_merge, hleft]
  refine ⟨?_, ?_, ?_⟩
  · rw [hmerged, hsplit]
    exact (List.merge_perm_append ..).trans (hl.perm.append (hright ▸ hrperm))
  · rw [hmerged]
    exact hl.sorted.merge hrsorted
  · intro i hi
    rw [store_of_not_mem _ _ (by omega), hr.frame i (by omega), hl.frame i (by omega)]

theorem sortsRange_run (low high : ℕ) (hle : low ≤ high) (m : ℕ → ℤ) :
    SortsRange m ((mergeSort low high).run m) low high := by
  fun_induction mergeSort low high generalizing m with
  | case1 low high hlt mid ihl ihr =>
      have hmid : low ≤ mid ∧ mid < high := by omega
      exact sortsRange_merge hmid.1 hmid.2 (ihl (by omega) m) (ihr (by omega) _)
  | case2 low high hlt =>
      obtain rfl : low = high := by omega
      exact ⟨.refl _, by simp [segment], fun _ _ => rfl⟩

/-- Under every schedule of the threads that `merge_sort` creates: the program never
blocks and every run of it ends, and when it has ended the range is sorted and the rest of the
array is as it was. -/
theorem mergeSort_correct (arr : ℕ → ℤ) (low high : ℕ) (hle : low ≤ high)
    (s : Thread ℕ ℤ × (ℕ → ℤ)) (hs : (program (mergeSort low high) arr).Reachable s) :
    (s.1 = .done → SortsRange arr s.2 low high) ∧
      (s.1 ≠ .done → ∃ p, (program (mergeSort low high) arr).Enabled s p) ∧ Acc Next s.1 := by
  refine ⟨fun hdone => ?_, fun hne => ?_, acc_next s.1⟩
  · rw [(within_mergeSort low high).run_eq_of_reachable hs hdone]
    exact sortsRange_run low high hle arr
  · obtain ⟨p, s', hstep⟩ := exists_step hne s.2
    exact ⟨p, Option.isSome_iff_exists.mpr ⟨s', hstep⟩⟩

/-- Four cells in the middle of an array. -/
theorem mergeSort_correct_four :
    ∃ s, (program (mergeSort 1 4) fun i => 10 - i).Reachable s ∧ s.1 = .done ∧
      SortsRange (fun i => 10 - i) s.2 1 4 := by
  obtain ⟨s, hs, hdone⟩ :=
    exists_finished (System.Reachable.init (S := program (mergeSort 1 4) fun i => 10 - (i : ℤ)))
  exact ⟨s, hs, hdone, (mergeSort_correct _ 1 4 (by decide) s hs).1 hdone⟩

end PthreadBenchmark.MergeSort
