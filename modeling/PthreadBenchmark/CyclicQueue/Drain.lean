import Mathlib.Data.List.Induction
import PthreadBenchmark.CyclicQueue.Refinement

/-! # Emptying the queue into a vector

`queue_dequeueall` sizes its vector by `queue_size` and stops at the first NULL. Both
agree with the number of elements, so the vector is filled exactly. -/

namespace PthreadBenchmark.CyclicQueue

variable {α : Type*} {q : QueueCycl α} {l : List α}

/-- The vector holds the elements of `l`, the first at index zero. -/
structure Holds (v : VectorT α) (l : List α) : Prop where
  tail_eq : v.tail = l.length
  le_size : l.length ≤ v.size
  cells : ∀ k < l.length, v.buf k = l[k]?

theorem holds_vectorInit (size : ℕ) : Holds (vectorInit size : VectorT α) [] :=
  ⟨rfl, Nat.zero_le _, by simp⟩

theorem Holds.pushBack {v : VectorT α} (h : Holds v l) (hroom : l.length < v.size) (x : α) :
    vectorPushBack v (some x) = (1, (vectorPushBack v (some x)).2) ∧
      Holds (vectorPushBack v (some x)).2 (l ++ [x]) ∧
      (vectorPushBack v (some x)).2.size = v.size := by
  have hne : v.tail ≠ v.size := by
    rw [h.tail_eq]
    omega
  rw [vectorPushBack, if_neg hne]
  refine ⟨rfl, ⟨?_, ?_, ?_⟩, rfl⟩
  · simp [h.tail_eq]
  · simp
    omega
  · intro k hk
    simp only [List.length_append, List.length_singleton] at hk
    simp only [h.tail_eq]
    by_cases hlast : k = l.length
    · rw [hlast, Function.update_self, List.getElem?_concat_length]
    · rw [Function.update_of_ne hlast, h.cells k (by omega),
        List.getElem?_append_left (by omega)]

theorem Holds.popBack_nil {v : VectorT α} (h : Holds v []) : vectorPopBack v = (none, v) := by
  rw [vectorPopBack, if_pos (by simpa using h.tail_eq)]

/-- The vector gives its newest element first. -/
theorem Holds.popBack_concat {v : VectorT α} {x : α} (h : Holds v (l ++ [x])) :
    (vectorPopBack v).1 = some x ∧ Holds (vectorPopBack v).2 l := by
  have htail : v.tail = l.length + 1 := by simpa using h.tail_eq
  have hsize := h.le_size
  simp only [List.length_append, List.length_singleton] at hsize
  rw [vectorPopBack, if_neg (by omega)]
  refine ⟨?_, by simp [htail], by simp only; omega, ?_⟩
  · simp only [htail, Nat.add_sub_cancel]
    rw [h.cells _ (by simp), List.getElem?_concat_length]
  · intro k hk
    rw [h.cells k (by simp; omega), List.getElem?_append_left hk]

/-- The loop moves what is left of the queue behind what the vector already holds. -/
theorem drainLoop_spec {done : List α} {v : VectorT α} (hq : Represents q l)
    (hv : Holds v done) (hsize : v.size = done.length + l.length) (fuel : ℕ)
    (hfuel : l.length < fuel) :
    ∃ v' q', drainLoop fuel q v = .returned v' q' ∧ Holds v' (done ++ l) ∧
      v'.size = v.size ∧ Represents q' [] ∧ q'.maxSize = q.maxSize := by
  induction l generalizing q v done fuel with
  | nil =>
      cases fuel with
      | zero => omega
      | succ fuel =>
          refine ⟨v, q, ?_, by simpa using hv, rfl, hq, rfl⟩
          simp [drainLoop, hq.dequeue_nil]
  | cons x l ih =>
      cases fuel with
      | zero => omega
      | succ fuel =>
          obtain ⟨hfirst, hrep, hmax⟩ := hq.dequeue_cons
          simp only [List.length_cons] at hsize hfuel
          obtain ⟨hone, hpush, hpsize⟩ := hv.pushBack (by omega) x
          obtain ⟨v', q', hloop, hv', hsize', hq', hmax'⟩ := ih hrep hpush
            (by simp only [List.length_append, List.length_singleton]; omega) fuel (by omega)
          refine ⟨v', q', ?_, by simpa using hv', hsize'.trans hpsize, hq', hmax'.trans hmax⟩
          have hpair : queueDequeue q = (some x, (queueDequeue q).2) := Prod.ext hfirst rfl
          rw [drainLoop, hpair]
          simp only
          rw [hone]
          exact hloop

/-- `queue_dequeueall` returns the elements, oldest first, and leaves an empty queue. -/
theorem Represents.dequeueall (h : Represents q l) :
    ∃ v q', queueDequeueall q = .returned v q' ∧ Holds v l ∧ v.size = queueSize q ∧
      Represents q' [] ∧ q'.maxSize = q.maxSize := by
  have hlen := h.length_lt
  exact drainLoop_spec h (holds_vectorInit (queueSize q))
    (by simp [vectorInit, h.queueSize_eq]) (q.maxSize + 1) (by omega)

/-! ## Every reachable queue -/

/-- The states of a queue between its calls, with the data that were accepted and not yet
given out, oldest first. -/
inductive Reached (maxSize : ℕ) : QueueCycl α → List α → Prop
  | init : Reached maxSize (queueInit maxSize) []
  | enqueue {q : QueueCycl α} {l : List α} (x : α) : Reached maxSize q l →
      Reached maxSize (queueEnqueue q (some x)).2
        (if (queueEnqueue q (some x)).1 = 1 then l ++ [x] else l)
  | dequeue {q : QueueCycl α} {l : List α} : Reached maxSize q l →
      Reached maxSize (queueDequeue q).2 l.tail
  | dequeueall {q : QueueCycl α} {l : List α} {v : VectorT α} {q' : QueueCycl α} :
      Reached maxSize q l → queueDequeueall q = .returned v q' → Reached maxSize q' []

theorem Reached.represents {maxSize : ℕ} (hmax : 0 < maxSize) (h : Reached maxSize q l) :
    Represents q l := by
  induction h with
  | init => exact represents_queueInit hmax
  | @enqueue q l x _ ih =>
      by_cases hfull : l.length = q.maxSize - 1
      · rw [ih.enqueue_full hfull]
        exact ih
      · obtain ⟨hone, hrep⟩ := ih.enqueue hfull x
        rw [if_pos hone]
        exact hrep
  | @dequeue q l _ ih =>
      cases l with
      | nil =>
          rw [ih.dequeue_nil]
          exact ih
      | cons x l => exact ih.dequeue_cons.2.1
  | dequeueall _ hdrain ih =>
      obtain ⟨v, q', hreturned, -, -, hempty, -⟩ := ih.dequeueall
      cases hreturned.symm.trans hdrain
      exact hempty

/-- What `n` calls of `vector_pop_back` in a row return. -/
def popBacks : ℕ → VectorT α → List (Option α)
  | 0, _ => []
  | n + 1, v => (vectorPopBack v).1 :: popBacks n (vectorPopBack v).2

theorem Holds.popBacks_nil {v : VectorT α} (h : Holds v []) (n : ℕ) :
    popBacks n v = List.replicate n none := by
  induction n with
  | zero => rfl
  | succ n ih => rw [popBacks, h.popBack_nil, ih, List.replicate_succ]

/-- The elements come out newest first, and NULL from then on. -/
theorem Holds.popBacks {v : VectorT α} (h : Holds v l) (n : ℕ) :
    popBacks (l.length + n) v = l.reverse.map some ++ List.replicate n none := by
  induction l using List.reverseRecOn generalizing v with
  | nil => simpa using h.popBacks_nil n
  | append_singleton l x ih =>
      obtain ⟨hfirst, hrest⟩ := h.popBack_concat
      rw [List.length_append, List.length_singleton,
        show l.length + 1 + n = l.length + n + 1 by omega, CyclicQueue.popBacks, hfirst,
        ih hrest]
      simp

/-- In every reachable state that is not empty `queue_dequeueall` returns: it does not
take its error branch, the queue is empty, and the vector holds the elements of the
queue, which `vector_pop_back` gives out once each. -/
theorem dequeueall_of_reached {maxSize : ℕ} (hmax : 0 < maxSize) (h : Reached maxSize q l)
    (hne : queueIsEmpty q = false) :
    l ≠ [] ∧ queueSize q = l.length ∧
      (∀ k < l.length, q.cyclicBuf ((q.front + k) % q.maxSize) = l[k]?) ∧
      ∃ v q', queueDequeueall q = .returned v q' ∧ queueIsEmpty q' = true ∧
        v.size = queueSize q ∧ v.tail = l.length ∧ (∀ k < l.length, v.buf k = l[k]?) ∧
        ∀ n, popBacks (l.length + n) v = l.reverse.map some ++ List.replicate n none := by
  have hrep := h.represents hmax
  obtain ⟨v, q', hreturned, hholds, hsize, hempty, -⟩ := hrep.dequeueall
  refine ⟨?_, hrep.queueSize_eq, fun k hk => hrep.cell hk, v, q', hreturned,
    hempty.queueIsEmpty_iff.mpr rfl, hsize, hholds.tail_eq, hholds.cells, hholds.popBacks⟩
  rintro rfl
  rw [hrep.queueIsEmpty_iff.mpr rfl] at hne
  cases hne

/-- Two cells: after an enqueue, a dequeue and an enqueue the window is at the end. -/
theorem dequeueall_of_reached_wrapped :
    ∃ v q', queueDequeueall (queueEnqueue (queueDequeue
      (queueEnqueue (queueInit 2) (some 7)).2).2 (some 8)).2 = .returned v q' ∧
        popBacks 2 v = [some 8, none] := by
  obtain ⟨-, -, -, v, q', hreturned, -, -, -, -, hpops⟩ :=
    dequeueall_of_reached (Nat.succ_pos 1)
      (Reached.enqueue 8 (Reached.dequeue (Reached.enqueue 7 Reached.init))) rfl
  exact ⟨v, q', hreturned, hpops 1⟩

end PthreadBenchmark.CyclicQueue
