import PthreadBenchmark.CyclicQueue.Model
import PthreadBenchmark.Shared.Ring

/-! # The cyclic queue refines a bounded list

One cell stays free to tell a full queue from an empty one, so a buffer of `maxSize`
cells holds at most `maxSize - 1` elements. -/

namespace PthreadBenchmark.CyclicQueue

variable {α : Type*} {q : QueueCycl α} {l : List α}

/-! ## Representation -/

/-- The queue holds the elements of `l`, oldest first, in the window from `front` to
`tail`, and NULL in every other cell. -/
structure Represents (q : QueueCycl α) (l : List α) : Prop where
  front_lt : q.front < q.maxSize
  length_lt : l.length < q.maxSize
  tail_eq : q.tail = (q.front + l.length) % q.maxSize
  live : window q.cyclicBuf q.maxSize q.front l.length = l.map some
  dead : ∀ i < q.maxSize, (∀ k < l.length, (q.front + k) % q.maxSize ≠ i) →
    q.cyclicBuf i = none

theorem represents_queueInit {maxSize : ℕ} (h : 0 < maxSize) :
    Represents (queueInit maxSize : QueueCycl α) [] :=
  ⟨h, h, by simp [queueInit], by simp, fun _ _ _ => rfl⟩

theorem Represents.tail_lt (h : Represents q l) : q.tail < q.maxSize := by
  rw [h.tail_eq]
  exact Nat.mod_lt _ (Nat.zero_lt_of_lt h.front_lt)

theorem Represents.queueSize_eq (h : Represents q l) : queueSize q = l.length :=
  ((add_mod_eq_iff h.front_lt h.length_lt).mp h.tail_eq).2.symm

theorem Represents.queueIsEmpty_iff (h : Represents q l) : queueIsEmpty q = true ↔ l = [] := by
  have hlen := (add_mod_eq_iff h.front_lt h.length_lt).mp h.tail_eq
  have hlt := h.front_lt
  simp only [queueIsEmpty, decide_eq_true_eq, ← List.length_eq_zero_iff]
  constructor
  · intro heq
    simpa [heq] using hlen.2
  · intro hzero
    rw [h.tail_eq, hzero, Nat.add_zero, Nat.mod_eq_of_lt hlt]

theorem Represents.queueIsFull_iff (h : Represents q l) :
    queueIsFull q = true ↔ l.length = q.maxSize - 1 := by
  have hlt := h.front_lt
  have hlen := h.length_lt
  simp only [queueIsFull, decide_eq_true_eq]
  rw [h.tail_eq, Nat.mod_add_mod]
  constructor
  · intro heq
    by_contra hne
    have hdistinct : (q.front + 0) % q.maxSize ≠ (q.front + (l.length + 1)) % q.maxSize :=
      add_mod_ne_add_mod (Nat.succ_pos l.length) (by omega)
    apply hdistinct
    rw [Nat.add_zero, Nat.mod_eq_of_lt hlt]
    exact heq.symm
  · intro heq
    rw [show q.front + l.length + 1 = q.front + q.maxSize by omega, Nat.add_mod_right,
      Nat.mod_eq_of_lt hlt]

/-- The cell of each element, counted from the front. -/
theorem Represents.cell (h : Represents q l) {k : ℕ} (hk : k < l.length) :
    q.cyclicBuf ((q.front + k) % q.maxSize) = l[k]? := by
  have hcell := congrArg (fun cells => cells[k]?) h.live
  simp only [getElem?_window _ _ _ hk, List.getElem?_map, List.getElem?_eq_getElem hk,
    Option.map_some, Option.some.injEq] at hcell
  rw [hcell, List.getElem?_eq_getElem hk]

/-! ## The operations -/

/-- A full queue refuses the element and stays as it is. -/
theorem Represents.enqueue_full (h : Represents q l) (hfull : l.length = q.maxSize - 1)
    (data : Option α) : queueEnqueue q data = (0, q) := by
  rw [queueEnqueue, if_pos (h.queueIsFull_iff.mpr hfull)]

/-- Any other queue appends it. -/
theorem Represents.enqueue (h : Represents q l) (hroom : l.length ≠ q.maxSize - 1) (x : α) :
    (queueEnqueue q (some x)).1 = 1 ∧ Represents (queueEnqueue q (some x)).2 (l ++ [x]) := by
  have hnot : ¬ queueIsFull q = true := fun hfull => hroom (h.queueIsFull_iff.mp hfull)
  have hlen := h.length_lt
  rw [queueEnqueue, if_neg hnot]
  refine ⟨rfl, h.front_lt, ?_, ?_, ?_, ?_⟩
  · simp only [List.length_append, List.length_singleton]
    omega
  · simp only [List.length_append, List.length_singleton]
    rw [h.tail_eq, Nat.mod_add_mod, Nat.add_assoc]
  · simp only [List.length_append, List.length_singleton]
    rw [window_succ, h.tail_eq, window_update_end _ _ _ hlen, h.live, Function.update_self,
      List.map_append, List.map_singleton]
  · intro i hi hout
    simp only [List.length_append, List.length_singleton] at hout
    have hne : i ≠ q.tail := by
      rw [h.tail_eq]
      exact (hout l.length (by omega)).symm
    apply (Function.update_of_ne hne _ _).trans
    exact h.dead i hi fun k hk => hout k (by omega)

theorem Represents.dequeue_nil (h : Represents q ([] : List α)) :
    queueDequeue q = (none, q) := by
  rw [queueDequeue, if_pos (h.queueIsEmpty_iff.mpr rfl)]

/-- A nonempty queue gives its oldest element away and clears its cell. -/
theorem Represents.dequeue_cons {x : α} (h : Represents q (x :: l)) :
    (queueDequeue q).1 = some x ∧ Represents (queueDequeue q).2 l ∧
      (queueDequeue q).2.maxSize = q.maxSize := by
  have hnot : ¬ queueIsEmpty q = true := fun hempty => by
    simpa using h.queueIsEmpty_iff.mp hempty
  have hlt := h.front_lt
  have hlen : l.length + 1 < q.maxSize := h.length_lt
  have hcells := h.live
  rw [List.length_cons, window_succ_eq_cons _ _ hlt, List.map_cons, List.cons.injEq] at hcells
  rw [queueDequeue, if_neg hnot]
  refine ⟨hcells.1, ⟨Nat.mod_lt _ (by omega), by simp only; omega, ?_, ?_, ?_⟩, rfl⟩
  · simp only
    rw [h.tail_eq, Nat.mod_add_mod, List.length_cons]
    congr 1
    omega
  · simp only
    rw [window_update_front _ _ hlt (by omega)]
    exact hcells.2
  · intro i hi hout
    simp only at hi hout ⊢
    by_cases hfront : i = q.front
    · rw [hfront, Function.update_self]
    · rw [Function.update_of_ne hfront]
      refine h.dead i hi fun k hk => ?_
      cases k with
      | zero =>
          rw [Nat.add_zero, Nat.mod_eq_of_lt hlt]
          exact fun heq => hfront heq.symm
      | succ k =>
          have hk' := hout k (by simpa using hk)
          rwa [Nat.mod_add_mod, show q.front + 1 + k = q.front + (k + 1) by omega] at hk'

/-! ## Sequences of calls -/

/-- A call with its argument; the data of an enqueue are not NULL. -/
inductive Call (α : Type*) where
  | enqueue (x : α)
  | dequeue

/-- What a call returns. -/
inductive Result (α : Type*) where
  | int (n : ℕ)
  | ptr (data : Option α)

def Call.run (q : QueueCycl α) : Call α → Result α × QueueCycl α
  | .enqueue x => ((queueEnqueue q (some x)).map .int id)
  | .dequeue => ((queueDequeue q).map .ptr id)

/-- The bounded list a queue of capacity `cap` stands for. -/
def Call.spec (cap : ℕ) (l : List α) : Call α → Result α × List α
  | .enqueue x => if l.length = cap then (.int 0, l) else (.int 1, l ++ [x])
  | .dequeue => (.ptr l.head?, l.tail)

def runCalls {σ : Type*} (run : σ → Call α → Result α × σ) : σ → List (Call α) → List (Result α) × σ
  | s, [] => ([], s)
  | s, c :: cs =>
    let r := run s c
    let rest := runCalls run r.2 cs
    (r.1 :: rest.1, rest.2)

/-- One call returns what the bounded list returns and keeps the representation. -/
theorem Represents.call (h : Represents q l) (c : Call α) :
    (c.run q).1 = (c.spec (q.maxSize - 1) l).1 ∧
      Represents (c.run q).2 (c.spec (q.maxSize - 1) l).2 ∧
      (c.run q).2.maxSize = q.maxSize := by
  cases c with
  | enqueue x =>
      by_cases hfull : l.length = q.maxSize - 1
      · simp [Call.run, Call.spec, h.enqueue_full hfull, hfull, h]
      · obtain ⟨hone, hrep⟩ := h.enqueue hfull x
        have hsize : (queueEnqueue q (some x)).2.maxSize = q.maxSize := by
          unfold queueEnqueue
          split <;> rfl
        simp [Call.run, Call.spec, hfull, hone, hrep, hsize]
  | dequeue =>
      cases l with
      | nil => simp [Call.run, Call.spec, h.dequeue_nil, h]
      | cons x l =>
          obtain ⟨hfirst, hrep, hsize⟩ := h.dequeue_cons
          simp [Call.run, Call.spec, hfirst, hrep, hsize]

/-- Sequences of calls: the queue and the bounded list answer alike throughout. -/
theorem Represents.runCalls (h : Represents q l) (cs : List (Call α)) :
    let real := CyclicQueue.runCalls Call.run q cs
    let spec := CyclicQueue.runCalls (Call.spec (q.maxSize - 1)) l cs
    real.1 = spec.1 ∧ Represents real.2 spec.2 ∧ real.2.maxSize = q.maxSize := by
  induction cs generalizing q l with
  | nil => exact ⟨rfl, h, rfl⟩
  | cons c cs ih =>
      obtain ⟨hresult, hrep, hsize⟩ := h.call c
      obtain ⟨hrest, hrep', hsize'⟩ := ih hrep
      simp only [hsize] at hrest hrep' hsize'
      exact ⟨by simp only [CyclicQueue.runCalls, hresult, hrest], hrep', hsize'⟩

/-- After any sequence of calls on a new queue with at least two cells, the answers are
those of a list bounded by `maxSize - 1`, both indices are in range, the three queries
agree with the list, every cell outside the window is NULL, and the next call appends or
refuses, removes or returns NULL, exactly as the list does. -/
theorem queue_refines (maxSize : ℕ) (hmax : 2 ≤ maxSize) (cs : List (Call α)) :
    let q := (runCalls Call.run (queueInit maxSize) cs).2
    let l := (runCalls (Call.spec (maxSize - 1)) [] cs).2
    (runCalls Call.run (queueInit maxSize) cs).1 =
        (runCalls (Call.spec (maxSize - 1)) [] cs).1 ∧
      (0 ≤ q.front ∧ q.front < maxSize ∧ 0 ≤ q.tail ∧ q.tail < maxSize) ∧
      queueSize q = l.length ∧
      (queueIsFull q = true ↔ l.length = maxSize - 1) ∧
      (queueIsEmpty q = true ↔ l = []) ∧
      (∀ k < l.length, q.cyclicBuf ((q.front + k) % maxSize) = l[k]?) ∧
      (∀ i < maxSize, (∀ k < l.length, (q.front + k) % maxSize ≠ i) → q.cyclicBuf i = none) ∧
      (∀ x, ((queueEnqueue q (some x)).1 = 0 ↔ l.length = maxSize - 1) ∧
        (l.length = maxSize - 1 → (queueEnqueue q (some x)).2 = q) ∧
        (l.length ≠ maxSize - 1 → Represents (queueEnqueue q (some x)).2 (l ++ [x]))) ∧
      ((queueDequeue q).1 = none ↔ l = []) ∧
      (queueDequeue q).1 = l.head? ∧ Represents (queueDequeue q).2 l.tail := by
  obtain ⟨hresults, h, hsize⟩ :=
    (represents_queueInit (α := α) (show 0 < maxSize by omega)).runCalls cs
  simp only [show (queueInit maxSize : QueueCycl α).maxSize = maxSize from rfl] at hresults h hsize
  intro q l
  change Represents q l at h
  change q.maxSize = maxSize at hsize
  obtain ⟨hfirst, hrep, -⟩ := h.call .dequeue
  simp only [Call.run, Call.spec, Prod.map_fst, Prod.map_snd, id_eq, Result.ptr.injEq]
    at hfirst hrep
  refine ⟨hresults, ⟨Nat.zero_le _, hsize ▸ h.front_lt, Nat.zero_le _, hsize ▸ h.tail_lt⟩,
    h.queueSize_eq, hsize ▸ h.queueIsFull_iff, h.queueIsEmpty_iff, ?_, hsize ▸ h.dead, ?_, ?_,
    hfirst, hrep⟩
  · intro k hk
    rw [← hsize]
    exact h.cell hk
  · intro x
    refine ⟨⟨?_, fun hfull => ?_⟩, fun hfull => ?_, fun hroom => ?_⟩
    · intro hzero
      by_contra hroom
      have := (h.enqueue (hsize ▸ hroom) x).1
      omega
    · rw [h.enqueue_full (hsize ▸ hfull)]
    · rw [h.enqueue_full (hsize ▸ hfull)]
    · exact (h.enqueue (hsize ▸ hroom) x).2
  · rw [hfirst, List.head?_eq_none_iff]

/-- Three cells hold two elements; after a dequeue the window wraps. -/
theorem queue_refines_three :
    (runCalls Call.run (queueInit 3)
      [.enqueue 1, .enqueue 2, .enqueue 3, .dequeue, .enqueue 4]).1 =
      [.int 1, .int 1, .int 0, .ptr (some 1), .int 1] :=
  (queue_refines 3 (by decide) [.enqueue 1, .enqueue 2, .enqueue 3, .dequeue, .enqueue 4]).1

end PthreadBenchmark.CyclicQueue
