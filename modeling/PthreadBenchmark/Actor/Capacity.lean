import PthreadBenchmark.Actor.Accounting
import PthreadBenchmark.Shared.Threads
import Mathlib.Algebra.BigOperators.Fin

/-! # Senders whose messages fit into the queue

`actor_send_to` ignores a refusal of `queue_enqueue`, so the counts of `actor_runner`
depend on the room in the queue. This module shows that they are right when the messages of
all sender threads fit at once. -/

namespace PthreadBenchmark.Actor

open CyclicQueue

variable {n bufSize : ℕ} {s s' : State (Option (Fin n))} {pre rem post l : List Msg}

/-! ## The program is an actor with a polite `main` -/

theorem step_of_programStep {a : Action (Option (Fin n))} (h : programStep s a = some s') :
    step s a = some s' := by
  unfold programStep at h
  split at h
  · split at h
    · exact h
    · cases h
  · exact h

theorem inv_of_program (h : (program bufSize n).Reachable s) : Inv bufSize s :=
  h.invariant (inv_initial _) fun _ _ _ hinv hs => hinv.of_step (step_of_programStep hs)

/-- Runner steps touch neither the senders nor what has been accepted. -/
theorem runnerStep_frame (hs : runnerStep s = some s') :
    s'.senders = s.senders ∧ s'.accepted = s.accepted ∧ s'.allocated = s.allocated := by
  unfold runnerStep at hs
  cases hr : s.runner with
  | atLock =>
      simp only [hr] at hs
      split at hs
      · cases hs
        exact ⟨rfl, rfl, rfl⟩
      · split at hs <;> cases hs <;> exact ⟨rfl, rfl, rfl⟩
  | asleep => simp [hr] at hs
  | batch v exitFlag =>
      simp only [hr] at hs
      split at hs <;> cases hs
      · exact ⟨rfl, rfl, rfl⟩
      · unfold process
        split
        · exact ⟨rfl, rfl, rfl⟩
        · split <;> exact ⟨rfl, rfl, rfl⟩
  | leftLoop => simp [hr] at hs
  | crashed v => simp [hr] at hs

/-- A step of the program sends one message, or leaves senders and history alone. -/
theorem programStep_cases {a : Action (Option (Fin n))} (h : programStep s a = some s') :
    (∃ i data rest, s.senders i = data :: rest ∧
        (i = none → ∀ j, s.senders (some j) = []) ∧
        s' = actorSendTo { s with senders := Function.update s.senders i rest } data) ∨
      (s'.senders = s.senders ∧ s'.accepted = s.accepted ∧ s'.allocated = s.allocated) := by
  cases a with
  | send i =>
      left
      have hmain : i = none → ∀ j, s.senders (some j) = [] := by
        intro heq
        subst heq
        by_contra hbusy
        simp [programStep, hbusy] at h
      have hsend : sendStep s i = some s' := step_of_programStep h
      unfold sendStep at hsend
      cases hi : s.senders i with
      | nil => simp [hi] at hsend
      | cons data rest =>
          simp only [hi, Option.some.injEq] at hsend
          exact ⟨i, data, rest, hi, hmain, hsend.symm⟩
  | runner => exact .inr (runnerStep_frame (step_of_programStep h))
  | wakeup =>
      right
      cases hr : s.runner <;>
        simp only [programStep, step, hr, Option.some.injEq, reduceCtorEq] at h
      subst h
      exact ⟨rfl, rfl, rfl⟩

/-- Whether a message is accepted depends on the length of the queue alone. -/
theorem Split.actorSendTo_accepted (h : Split bufSize s pre rem post l)
    (senders : Option (Fin n) → List ℤ) (data : ℤ) :
    (Actor.actorSendTo { s with senders := senders } data).accepted =
      if l.length = bufSize then s.accepted else s.accepted ++ [⟨s.allocated, data⟩] := by
  have hmax := h.maxSize
  by_cases hfull : l.length = bufSize
  · have hq := h.queue.enqueue_full (by omega) (some (⟨s.allocated, data⟩ : Msg))
    simp [Actor.actorSendTo, hq, hfull]
  · obtain ⟨hone, -⟩ := h.queue.enqueue (by omega) (⟨s.allocated, data⟩ : Msg)
    simp [Actor.actorSendTo, hone, hfull]

theorem Split.queue_length_le (h : Split bufSize s pre rem post l) :
    l.length ≤ s.accepted.length := by
  rw [h.accepted, List.length_append]
  exact Nat.le_add_left _ _

/-! ## Messages still to be sent -/

def State.threads (s : State (Option (Fin n))) : Fin n → List ℤ := fun i => s.senders (some i)

/-- The number of messages the sender threads have not sent yet. -/
def State.unsent (s : State (Option (Fin n))) : ℕ := weight List.length s.threads

theorem unsent_eq_zero_iff : s.unsent = 0 ↔ ∀ i, s.senders (some i) = [] := by
  simp [State.unsent, weight_eq_zero_iff, State.threads]

theorem threads_update_some (i : Fin n) (rest : List ℤ) :
    (fun j => Function.update s.senders (some i) rest (some j)) =
      Function.update s.threads i rest :=
  Function.update_comp_eq_of_injective s.senders (Option.some_injective _) i rest

/-- What a thread still has to send after a step, it had to send before. -/
theorem mem_senders_of_update {i j : Fin n} {data v : ℤ} {rest : List ℤ}
    (hi : s.senders (some i) = data :: rest)
    (hv : v ∈ Function.update s.senders (some i) rest (some j)) : v ∈ s.senders (some j) := by
  by_cases hj : j = i
  · subst j
    rw [Function.update_self] at hv
    rw [hi]
    exact List.mem_cons_of_mem _ hv
  · rwa [Function.update_of_ne (by simpa using hj)] at hv

/-- A sender's step moves one message out of any sum over the unsent ones. -/
theorem weight_threads_send (f : List ℤ → ℕ) {i : Fin n} {data : ℤ} {rest : List ℤ}
    (hi : s.senders (some i) = data :: rest) :
    weight f (fun j => Function.update s.senders (some i) rest (some j)) + f (data :: rest) =
      weight f s.threads + f rest := by
  rw [threads_update_some, ← hi]
  exact weight_update f s.threads i rest

/-! ## The tally -/

/-- What `main` has done: it sends the last message, an exit message, after the others. -/
inductive Phase (bufSize n : ℕ) (s : State (Option (Fin n))) : Prop where
  | sending (main : s.senders none = [-1]) (total : s.accepted.length + s.unsent = 50 * n)
      (allocated : s.allocated = s.accepted.length) (regular : ∀ m ∈ s.accepted, m.val ≠ -1)
  | refused (main : s.senders none = []) (threads : s.unsent = 0) (full : 50 * n = bufSize)
      (regular : ∀ m ∈ s.accepted, m.val ≠ -1)
  | sent (main : s.senders none = []) (threads : s.unsent = 0) (A : List Msg) (m : Msg)
      (exit : m.val = -1) (accepted : s.accepted = A ++ [m]) (regular : ∀ m ∈ A, m.val ≠ -1)
      (allocated : s.allocated = s.accepted.length)

/-- Every value is on its way to the queue or accepted, `nSenders` times in all. -/
structure Tally (bufSize n : ℕ) (s : State (Option (Fin n))) : Prop where
  inRange : ∀ i, ∀ v ∈ s.senders (some i), 0 ≤ v ∧ v < 50
  balance : ∀ v : ℤ, 0 ≤ v → v < 50 →
    s.accepted.countP (fun m => m.val = v) + weight (List.count v) s.threads = n
  phase : Phase bufSize n s

theorem count_messages {v : ℤ} (h0 : 0 ≤ v) (h50 : v < 50) :
    ((List.range 50).map fun k : ℕ => (k : ℤ)).count v = 1 := by
  obtain ⟨k, rfl⟩ := Int.eq_ofNat_of_zero_le h0
  have hnodup : ((List.range 50).map fun k : ℕ => (k : ℤ)).Nodup :=
    List.nodup_range.map fun _ _ h => by simpa using h
  refine List.count_eq_one_of_mem hnodup (List.mem_map.mpr ⟨k, ?_, rfl⟩)
  rw [List.mem_range]
  omega

theorem tally_initial (bufSize n : ℕ) : Tally bufSize n (initial bufSize (messagesOf n)) := by
  refine ⟨?_, ?_, .sending rfl ?_ rfl (by simp [initial])⟩
  · intro i v hv
    obtain ⟨k, hk, rfl⟩ := List.mem_map.mp hv
    have := List.mem_range.mp hk
    exact ⟨by omega, by omega⟩
  · intro v h0 h50
    simp [initial, State.threads, messagesOf, weight, count_messages h0 h50]
  · simp [initial, State.unsent, State.threads, messagesOf, weight, Nat.mul_comm]

theorem Tally.congr (h : Tally bufSize n s) (hsenders : s'.senders = s.senders)
    (haccepted : s'.accepted = s.accepted) (hallocated : s'.allocated = s.allocated) :
    Tally bufSize n s' := by
  have hthreads : s'.threads = s.threads := by
    funext i
    exact congrFun hsenders (some i)
  have hunsent : s'.unsent = s.unsent := congrArg (weight List.length) hthreads
  refine ⟨hsenders ▸ h.inRange, ?_, ?_⟩
  · rw [haccepted, hthreads]
    exact h.balance
  · cases h.phase with
    | sending main total allocated regular =>
        exact .sending (hsenders ▸ main) (by rw [haccepted, hunsent, total])
          (by rw [haccepted, hallocated, allocated]) (haccepted ▸ regular)
    | refused main threads full regular =>
        exact .refused (hsenders ▸ main) (hunsent ▸ threads) full (haccepted ▸ regular)
    | sent main threads A m exit accepted regular allocated =>
        exact .sent (hsenders ▸ main) (hunsent ▸ threads) A m exit (haccepted ▸ accepted) regular
          (by rw [haccepted, hallocated, allocated])

/-- While a sender thread still has a message, the queue is not full. -/
theorem Tally.send_thread (h : Tally bufSize n s) (hfit : 50 * n ≤ bufSize)
    (hsplit : Split bufSize s pre rem post l) {i : Fin n} {data : ℤ} {rest : List ℤ}
    (hi : s.senders (some i) = data :: rest) :
    Tally bufSize n
      (actorSendTo { s with senders := Function.update s.senders (some i) rest } data) := by
  have hunsent := weight_threads_send List.length hi
  have hbusy : s.unsent ≠ 0 := by
    intro hzero
    have := unsent_eq_zero_iff.mp hzero i
    simp [hi] at this
  have hdata := h.inRange i data (by simp [hi])
  cases h.phase with
  | refused main threads full regular => exact absurd threads hbusy
  | sent main threads A m exit accepted regular allocated => exact absurd threads hbusy
  | sending main total allocated regular =>
      have hroom : ¬ l.length = bufSize := by
        have := hsplit.queue_length_le
        omega
      have haccepted := hsplit.actorSendTo_accepted (Function.update s.senders (some i) rest) data
      rw [if_neg hroom] at haccepted
      refine ⟨?_, ?_, .sending ?_ ?_ ?_ ?_⟩
      · intro j v hv
        exact h.inRange j v (mem_senders_of_update hi hv)
      · intro v h0 h50
        have hbalance := h.balance v h0 h50
        have hcount := weight_threads_send (List.count v) hi
        rw [haccepted, List.countP_append, List.countP_singleton]
        simp only [List.count_cons, beq_iff_eq, decide_eq_true_eq] at hcount ⊢
        change _ + weight (List.count v)
          (fun j => Function.update s.senders (some i) rest (some j)) = n
        omega
      · simpa [actorSendTo] using main
      · rw [haccepted, List.length_append, List.length_singleton]
        change _ + weight List.length
          (fun j => Function.update s.senders (some i) rest (some j)) = _
        simp only [List.length_cons] at hunsent
        change _ = s.unsent + _ at hunsent
        omega
      · rw [haccepted, List.length_append, List.length_singleton, ← allocated]
        rfl
      · intro m hm
        rw [haccepted] at hm
        rcases List.mem_append.mp hm with hm | hm
        · exact regular m hm
        · obtain rfl := List.mem_singleton.mp hm
          simp only
          omega

/-- `main` sends when nothing else is left to be sent. -/
theorem Tally.send_main (h : Tally bufSize n s) (hfit : 50 * n ≤ bufSize)
    (hsplit : Split bufSize s pre rem post l) {data : ℤ} {rest : List ℤ}
    (hmain : s.senders none = data :: rest) (hdone : ∀ j, s.senders (some j) = []) :
    Tally bufSize n
      (actorSendTo { s with senders := Function.update s.senders none rest } data) := by
  have haccepted := hsplit.actorSendTo_accepted (Function.update s.senders none rest) data
  have hthreads : (actorSendTo { s with senders := Function.update s.senders none rest }
      data).threads = s.threads := by
    funext i
    simp [State.threads, actorSendTo]
  have hunsent : (actorSendTo { s with senders := Function.update s.senders none rest }
      data).unsent = 0 := by
    rw [State.unsent, hthreads]
    exact unsent_eq_zero_iff.mpr hdone
  cases h.phase with
  | refused main threads full regular => simp [main] at hmain
  | sent main threads A m exit accepted regular allocated => simp [main] at hmain
  | sending main total allocated regular =>
      rw [main, List.cons.injEq] at hmain
      obtain ⟨rfl, rfl⟩ := hmain
      have hle := hsplit.queue_length_le
      refine ⟨fun i v hv => h.inRange i v (by simpa [actorSendTo] using hv), ?_, ?_⟩
      · intro v h0 h50
        have hbalance := h.balance v h0 h50
        have hcount :
            (actorSendTo { s with
              senders := Function.update s.senders none [] } (-1)).accepted.countP
              (fun m => m.val = v) = s.accepted.countP fun m => m.val = v := by
          rw [haccepted]
          split
          · rfl
          · simp [show ¬ -1 = v by omega]
        rw [hcount, hthreads]
        exact hbalance
      · by_cases hfull : l.length = bufSize
        · rw [if_pos hfull] at haccepted
          refine .refused (by simp [actorSendTo]) hunsent (by omega) ?_
          rw [haccepted]
          exact regular
        · rw [if_neg hfull] at haccepted
          refine .sent (by simp [actorSendTo]) hunsent s.accepted ⟨s.allocated, -1⟩ rfl haccepted
            regular ?_
          rw [haccepted, List.length_append, List.length_singleton, ← allocated]
          rfl

theorem tally_of_program (hfit : 50 * n ≤ bufSize) (h : (program bufSize n).Reachable s) :
    Tally bufSize n s := by
  refine (h.invariant (P := fun s => Inv bufSize s ∧ Tally bufSize n s)
    ⟨inv_initial _, tally_initial bufSize n⟩ ?_).2
  rintro s a s' ⟨hinv, htally⟩ hs
  refine ⟨hinv.of_step (step_of_programStep hs), ?_⟩
  obtain ⟨pre, rem, post, l, hsplit⟩ := hinv
  rcases programStep_cases hs with ⟨i, data, rest, hi, hmain, rfl⟩ | ⟨h1, h2, h3⟩
  · cases i with
    | none => exact htally.send_main hfit hsplit hi (hmain rfl)
    | some i => exact htally.send_thread hfit hsplit hi
  · exact htally.congr h1 h2 h3

/-- With room for the exit message too, every message has been accepted. -/
theorem Tally.accepted_eq (h : Tally bufSize n s) (hroom : 50 * n < bufSize) :
    s.accepted.length = s.allocated := by
  cases h.phase with
  | sending main total allocated regular => exact allocated.symm
  | refused main threads full regular => omega
  | sent main threads A m exit accepted regular allocated => exact allocated.symm

/-- The exit message is the last one accepted, so when the runner has seen it the queue is
empty and everything has been counted. -/
theorem Tally.buf_eq (h : Tally bufSize n s) (hsplit : Split bufSize s pre rem post l)
    (hr : s.runner = .leftLoop) {v : ℤ} (h0 : 0 ≤ v) (h50 : v < 50) : s.buf v = n := by
  have hrun := hsplit.runner
  rw [hr] at hrun
  obtain ⟨rfl, e, he, hval⟩ := hrun
  have hmem : e ∈ s.accepted := by
    rw [hsplit.accepted]
    simp [he]
  have hbalance := h.balance v h0 h50
  rw [hsplit.buf v h0 h50, hsplit.processed.countP_eq]
  cases h.phase with
  | sending main total allocated regular => exact absurd hval (regular e hmem)
  | refused main threads full regular => exact absurd hval (regular e hmem)
  | sent main threads A m exit accepted regular allocated =>
      have hnil : l = [] := by
        rcases List.eq_nil_or_concat' l with rfl | ⟨l, x, rfl⟩
        · rfl
        · have hA : A = pre ++ post ++ l := by
            have hboth := accepted.symm.trans hsplit.accepted
            simp only [List.append_nil, ← List.append_assoc] at hboth
            exact (List.append_inj' hboth rfl).1
          exact absurd hval (regular e (by simp [hA, he]))
      have hthreads : weight (List.count v) s.threads = 0 := by
        rw [weight_eq_zero_iff]
        intro i
        rw [State.threads, unsent_eq_zero_iff.mp threads i, List.count_nil]
      rw [hthreads, hsplit.accepted, hnil] at hbalance
      simpa using hbalance

end PthreadBenchmark.Actor
