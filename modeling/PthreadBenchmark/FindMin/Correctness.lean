import PthreadBenchmark.FindMin.Invariant
import PthreadBenchmark.Shared.PthreadHistory

/-! # The search finds the minimum, and each element is examined by one thread -/

namespace PthreadBenchmark.FindMin

open Pthread

variable {n : ℕ} {list : List ℤ} {q : Point n} {w : Fin n} {history : List (Fin n × ℤ)}

/-- The program, with the list of all reads of elements as its history. -/
def recordedProgram (n : ℕ) (list : List ℤ) :
    System (Config (Tid n) (Recorded Shared (Fin n × ℤ)) (Point n) Mutex Empty) (Action (Tid n)) :=
  Pthread.program (recorded examined? (code list)) ⟨zero, []⟩ start

theorem examined_run : EventsRun examined? (code list : Shared → Point n → Step n) := by
  intro s p e he
  unfold examined? at he
  split at he
  · exact ⟨_, _, rfl⟩
  · split at he
    · next hloop =>
        simp only [code, findMin, if_pos hloop]
        exact ⟨_, _, rfl⟩
    · cases he
  · cases he

/-- The thread has gone past the element. -/
def Past (i : ℤ) : Point n → Prop
  | .worker _ (.loop counter _) => i < counter
  | .worker _ (.test _) | .worker _ (.store _) | .worker _ .unlock | .worker _ .exited => True
  | _ => False

structure Examining (list : List ℤ) (history : List (Fin n × ℤ)) (ps : Tid n → Point n) : Prop where
  own : ∀ (w : Fin n) (i : ℤ), (w, i) ∈ history → InBlock (blockSize list n) w i
  done : ∀ (w : Fin n) (i : ℤ), InBlock (blockSize list n) w i → Past i (ps (some w)) →
    (w, i) ∈ history

variable {s : Shared} {ps : Tid n → Point n}

/-- The thread `w` reads an element of its block or none. -/
theorem Examining.work {new : List (Fin n × ℤ)} (h : Examining list history ps)
    (hown : ∀ (w' : Fin n) (i : ℤ), (w', i) ∈ new → InBlock (blockSize list n) w' i)
    (hdone : ∀ i, InBlock (blockSize list n) w i → Past i q →
      Past i (ps (some w)) ∨ (w, i) ∈ new) :
    Examining list (history ++ new) (Function.update ps (some w) q) where
  own w' i hmem := (List.mem_append.mp hmem).elim (h.own w' i) (hown w' i)
  done w' i hblock hpast := by
    rw [List.mem_append]
    by_cases hw : some w' = some w
    · cases hw
      rw [Function.update_self] at hpast
      exact (hdone i hblock hpast).imp_left (h.done _ i hblock)
    · rw [Function.update_of_ne hw] at hpast
      exact .inl (h.done w' i hblock hpast)

theorem Examining.stepWorker (hreducing : Reducing list s ps) (h : Examining list history ps)
    {pc : WorkerPc} (hp : ps (some w) = .worker w pc)
    (hq : (findMin list s w pc : Step n).next? = some q) :
    Examining list (history ++ (examined? s (.worker w pc)).toList)
      (Function.update ps (some w) q) := by
  obtain ⟨-, hstarted, hfine⟩ : _ ∧ _ ∧ pc.Fine list s w := hp ▸ hreducing.workers w
  cases pc with
  | start =>
      refine h.work (by simp [examined?]) ?_
      intro i _ hpast
      simp only [findMin] at hq
      rcases Op.await_cases hq with ⟨-, rfl, -⟩ | ⟨rfl, -⟩
      · exact hpast.elim
      · exact hpast.elim
  | first =>
      have hready := hreducing.started (hstarted.resolve_left (by simp))
      have hpos := hready.blockSize_pos w
      have hlast := add_one_mul (w : ℤ) (blockSize list n)
      cases hq
      refine h.work ?_ ?_
      · intro w' i hmem
        simp only [examined?, Option.toList_some, List.mem_singleton, Prod.mk.injEq] at hmem
        obtain ⟨rfl, rfl⟩ := hmem
        rw [hready.firstIndex]
        exact ⟨le_rfl, by omega⟩
      · intro i hblock hpast
        split at hpast
        · rw [hready.firstIndex] at hpast
          exact absurd hpast hblock.1.not_gt
        · exact hpast.elim
  | loop counter myMin =>
      have hready := hreducing.started (hstarted.resolve_left (by simp))
      obtain ⟨⟨hlo, hhi⟩, -⟩ := hfine
      have hbound : myId w * s.partialListSize = (w + 1) * blockSize list n := by
        rw [hready.size, myId]
      by_cases hloop : counter ≤ myId w * s.partialListSize - 1
      · simp only [findMin, if_pos hloop] at hq
        simp only [examined?, if_pos hloop, Option.toList_some]
        cases hq
        refine h.work ?_ ?_
        · intro w' i hmem
          rw [List.mem_singleton, Prod.mk.injEq] at hmem
          obtain ⟨rfl, rfl⟩ := hmem
          exact ⟨hlo, by omega⟩
        · intro i _ hpast
          rw [hp, List.mem_singleton, Prod.mk.injEq]
          split at hpast
          · have hle : i ≤ counter := Int.lt_add_one_iff.mp hpast
            rcases hle.lt_or_eq with hlt | heq
            · exact .inl hlt
            · exact .inr ⟨rfl, heq⟩
          · exact hpast.elim
      · simp only [findMin, if_neg hloop] at hq
        simp only [examined?, if_neg hloop, Option.toList_none]
        cases hq
        refine h.work (by simp) ?_
        intro i hblock _
        rw [hp]
        have hlt := hblock.2
        exact .inl (show i < counter by omega)
  | test | store | unlock =>
      refine h.work (by simp [examined?]) ?_
      intro i _ _
      rw [hp]
      exact .inl trivial
  | exited => cases hq

theorem examining_of_reachable (hrange : ∀ v ∈ list, InIntRange v)
    {c : Config (Tid n) (Recorded Shared (Fin n × ℤ)) (Point n) Mutex Empty}
    (h : (recordedProgram n list).Reachable c) :
    Examining list c.shared.history (points c) := by
  refine history_invariant (P := fun _ history ps => Examining list history ps) examined_run h ?_ ?_
  · exact ⟨fun w i hmem => absurd hmem List.not_mem_nil, fun w i _ hpast => hpast.elim⟩
  · intro b hb history t q hexamining hq
    have hreducing := reducing_of_reachable hrange hb
    cases t with
    | none =>
        obtain ⟨pc, hp⟩ := hreducing.exists_main hq
        rw [hp]
        refine ⟨fun w i hmem => ?_, fun w i hblock hpast => ?_⟩
        · simp only [examined?, Option.toList_none, List.append_nil] at hmem
          exact hexamining.own w i hmem
        · rw [Function.update_of_ne (by simp)] at hpast
          exact List.mem_append_left _ (hexamining.done w i hblock hpast)
    | some w =>
        obtain ⟨pc, hp⟩ := hreducing.exists_worker w
        rw [hp] at hq ⊢
        exact hexamining.stepWorker hreducing hp hq

/-- Once `main` has joined all threads, `minimum_value` is the minimum of the list, and each index
of the list has been examined by exactly one of the threads. -/
theorem find_min_correct (n : ℕ) (list : List ℤ) (hrange : ∀ v ∈ list, InIntRange v)
    (c : Config (Tid n) (Recorded Shared (Fin n × ℤ)) (Point n) Mutex Empty)
    (hc : (recordedProgram n list).Reachable c) (hreturned : points c none = .main .returned) :
    (c.shared.base.minimumValue ∈ list ∧ ∀ v ∈ list, c.shared.base.minimumValue ≤ v) ∧
    ∀ i : ℤ, 0 ≤ i → i < list.length → ∃! w : Fin n, (w, i) ∈ c.shared.history := by
  have hbase := reachable_base hc
  have hpoints : points (c.map Recorded.base fun p => p) = points c := points_map c
  have hreturned' : points (c.map Recorded.base fun p => p) none = .main .returned := by
    rwa [hpoints]
  have hexamining := examining_of_reachable hrange hc
  refine ⟨minimum_of_returned hrange hbase hreturned', fun i h0 hi => ?_⟩
  obtain ⟨w, hblock⟩ := exists_block hrange hbase hreturned' h0 hi
  have hexited := exited_of_returned hrange hbase hreturned' w
  rw [hpoints] at hexited
  refine ⟨w, hexamining.done w i hblock (by rw [hexited]; trivial), fun w' hw' => ?_⟩
  exact Fin.ext (by exact_mod_cast (hexamining.own _ _ hw').unique hblock)

/-- Two threads search a list of two elements one after the other. -/
def twoThreads (i j : Fin 2) :
    Option (Config (Tid 2) (Recorded Shared (Fin 2 × ℤ)) (Point 2) Mutex Empty) :=
  (recordedProgram 2 [5, 3]).exec (recordedProgram 2 [5, 3]).init
    (List.replicate 6 (Action.run none none) ++ List.replicate 6 (Action.run (some i) none) ++
      List.replicate 7 (Action.run (some j) none) ++ List.replicate 3 (Action.run none none))

theorem find_min_correct_two : ∃ c, twoThreads 0 1 = some c ∧
    (c.shared.base.minimumValue ∈ [5, 3] ∧ ∀ v ∈ [5, 3], c.shared.base.minimumValue ≤ v) ∧
    ∀ i : ℤ, 0 ≤ i → i < 2 → ∃! w : Fin 2, (w, i) ∈ c.shared.history := by
  have hrun : (twoThreads 0 1).map (fun c => points c none) = some (.main .returned) := by
    decide +kernel
  obtain ⟨c, hc, hreturned⟩ := Option.map_eq_some_iff.mp hrun
  have hrange : ∀ v ∈ [5, 3], InIntRange v := by simp [InIntRange]
  exact ⟨c, hc, find_min_correct 2 [5, 3] hrange c (System.Reachable.init.exec hc) hreturned⟩

end PthreadBenchmark.FindMin
