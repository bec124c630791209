import PthreadBenchmark.Actor.Capacity

/-! # Senders that overrun the queue

A runner that is not scheduled before the sender threads have finished finds as many
messages as fit into the queue. The program then goes on to its self-check, and with the
previous module this settles for which numbers of senders the counts are right. -/

namespace PthreadBenchmark.Actor

open CyclicQueue

variable {n bufSize : ℕ} {s s' : State (Option (Fin n))} {pre rem post l : List Msg}

/-! ## The senders run ahead -/

/-- A state in which the runner has not moved yet and `main` has not sent. -/
structure Filling (bufSize n : ℕ) (s : State (Option (Fin n))) : Prop where
  reachable : (program bufSize n).Reachable s
  runner : s.runner = .atLock
  processed : s.processed = []
  main : s.senders none = [-1]
  accepted : s.accepted.length = min bufSize s.allocated
  total : s.allocated + s.unsent = 50 * n
  regular : ∀ m ∈ s.accepted, 0 ≤ m.val ∧ m.val < 50
  senders : ∀ i, ∀ v ∈ s.senders (some i), 0 ≤ v ∧ v < 50

theorem filling_initial (bufSize n : ℕ) : Filling bufSize n (initial bufSize (messagesOf n)) where
  reachable := .init
  runner := rfl
  processed := rfl
  main := rfl
  accepted := by simp [initial]
  total := by simp [initial, State.unsent, State.threads, messagesOf, weight, Nat.mul_comm]
  regular := by simp [initial]
  senders := (tally_initial bufSize n).inRange

theorem Filling.split (h : Filling bufSize n s) : Split bufSize s [] [] [] s.accepted := by
  obtain ⟨pre, rem, post, l, hsplit⟩ := inv_of_program h.reachable
  have hrun := hsplit.runner
  rw [h.runner] at hrun
  obtain ⟨rfl, rfl⟩ := hrun
  have hpre : pre = [] := by
    have hperm := hsplit.processed
    rw [h.processed] at hperm
    simpa using hperm.symm.eq_nil
  subst hpre
  have hl : s.accepted = l := by simpa using hsplit.accepted
  rwa [hl]

/-- One more message, which the queue takes while it has room. -/
theorem Filling.send (h : Filling bufSize n s) {i : Fin n} {data : ℤ} {rest : List ℤ}
    (hi : s.senders (some i) = data :: rest) :
    ∃ s', Filling bufSize n s' ∧ s'.unsent < s.unsent := by
  have hunsent := weight_threads_send List.length hi
  have haccepted := h.split.actorSendTo_accepted (Function.update s.senders (some i) rest) data
  have hdata := h.senders i data (by simp [hi])
  have hlength := h.accepted
  have htotal := h.total
  simp only [List.length_cons] at hunsent
  refine ⟨actorSendTo { s with senders := Function.update s.senders (some i) rest } data,
    ⟨h.reachable.step (.send (some i)) (by simp [program, programStep, step, sendStep, hi]), ?_,
      h.processed, by simpa [actorSendTo] using h.main, ?_, ?_, ?_, ?_⟩, ?_⟩
  · simp [actorSendTo, h.runner, signal]
  · rw [haccepted]
    change _ = min bufSize (s.allocated + 1)
    split
    · omega
    · rw [List.length_append, List.length_singleton]
      omega
  · change s.allocated + 1 +
      weight List.length (fun j => Function.update s.senders (some i) rest (some j)) = _
    unfold State.unsent at htotal
    omega
  · intro m hm
    rw [haccepted] at hm
    split at hm
    · exact h.regular m hm
    · rcases List.mem_append.mp hm with hm | hm
      · exact h.regular m hm
      · obtain rfl := List.mem_singleton.mp hm
        exact hdata
  · intro j v hv
    exact h.senders j v (mem_senders_of_update hi hv)
  · change weight List.length (fun j => Function.update s.senders (some i) rest (some j)) <
      weight List.length s.threads
    omega

/-- The sender threads can finish before the runner moves. -/
theorem Filling.finish (h : Filling bufSize n s) : ∃ s', Filling bufSize n s' ∧ s'.unsent = 0 := by
  induction hk : s.unsent using Nat.strong_induction_on generalizing s with
  | _ k ih =>
      by_cases hzero : s.unsent = 0
      · exact ⟨s, h, hzero⟩
      · obtain ⟨i, hi⟩ := exists_of_weight_pos (Nat.pos_of_ne_zero hzero)
        cases hsend : s.senders (some i) with
        | nil => simp [State.threads, hsend] at hi
        | cons data rest =>
            obtain ⟨s', hs', hlt⟩ := h.send hsend
            exact ih _ (hk ▸ hlt) hs' rfl

/-! ## The runner takes a batch -/

/-- A batch without foreign values is processed to its end. -/
theorem Split.popAll {v : VectorT Msg} {exitFlag : Bool} (h : Split bufSize s pre rem post l)
    (hreach : (program bufSize n).Reachable s) (hr : s.runner = .batch v exitFlag)
    (hrange : ∀ m ∈ rem, m.val = -1 ∨ 0 ≤ m.val ∧ m.val < 50) :
    ∃ s' v' exitFlag', (program bufSize n).Reachable s' ∧
      Split bufSize s' pre [] (rem ++ post) l ∧ s'.runner = .batch v' exitFlag' ∧
      s'.senders = s.senders ∧ s'.accepted = s.accepted ∧ s'.allocated = s.allocated := by
  induction rem using List.reverseRecOn generalizing s post v exitFlag with
  | nil => exact ⟨s, v, exitFlag, hreach, h, hr, rfl, rfl, rfl⟩
  | append_singleton rem data ih =>
      have hrun := h.runner
      rw [hr] at hrun
      obtain ⟨hlast, hv⟩ := hrun.1.popBack_concat
      have hpop : vectorPopBack v = (some data, (vectorPopBack v).2) := Prod.ext hlast rfl
      have hs : runnerStep s = some (Actor.process s (vectorPopBack v).2 exitFlag data) := by
        rw [runnerStep, hr]
        simp only
        rw [hpop]
      have hbatch : ∃ exitFlag', (Actor.process s (vectorPopBack v).2 exitFlag data).runner =
          .batch (vectorPopBack v).2 exitFlag' := by
        unfold Actor.process
        rcases hrange data (by simp) with hexit | hin
        · exact ⟨true, by simp [hexit]⟩
        · refine ⟨exitFlag, ?_⟩
          simp only [show ¬ data.val = -1 by omega, hin, and_self, if_true, if_false]
      obtain ⟨exitFlag', hbatch⟩ := hbatch
      obtain ⟨h1, h2, h3⟩ := runnerStep_frame hs
      obtain ⟨s', v', exitFlag'', hreach', hsplit', hr', h1', h2', h3'⟩ :=
        ih (h.process hr hv) (hreach.step .runner hs) hbatch
          fun m hm => hrange m (List.mem_append_left _ hm)
      exact ⟨s', v', exitFlag'', hreach', by simpa using hsplit', hr', h1'.trans h1, h2'.trans h2,
        h3'.trans h3⟩

/-- A whole round of the runner, from the lock to the test of the exit flag. -/
theorem Split.round (h : Split bufSize s pre [] [] l) (hreach : (program bufSize n).Reachable s)
    (hr : s.runner = .atLock) (hne : l ≠ [])
    (hrange : ∀ m ∈ l, m.val = -1 ∨ 0 ≤ m.val ∧ m.val < 50) :
    ∃ s', (program bufSize n).Reachable s' ∧ Represents s'.queue [] ∧
      s'.runner = (if ∃ m ∈ l, m.val = -1 then .leftLoop else .atLock) ∧
      s'.senders = s.senders ∧ s'.accepted = s.accepted ∧ s'.allocated = s.allocated := by
  obtain ⟨v, q, hdrain, hsplit⟩ := h.drain hr
  have hbusy : ¬ queueIsEmpty s.queue = true := fun hempty =>
    hne (h.queue.queueIsEmpty_iff.mp hempty)
  have htake : runnerStep s = some { s with queue := q, runner := .batch v false } := by
    rw [runnerStep, hr]
    simp only [hbusy, hdrain]
    rfl
  obtain ⟨s', v', exitFlag, hreach', hsplit', hr', h1, h2, h3⟩ :=
    hsplit.popAll (hreach.step .runner htake) rfl hrange
  rw [List.append_nil] at hsplit'
  have hrun := hsplit'.runner
  rw [hr'] at hrun
  have hlast : runnerStep s' =
      some { s' with runner := if exitFlag then .leftLoop else .atLock } := by
    rw [runnerStep, hr']
    simp only [hrun.1.popBack_nil]
  refine ⟨_, hreach'.step .runner hlast, hsplit'.queue, ?_, h1, h2, h3⟩
  simp only [← hrun.2]

/-! ## The two ways to lose a message -/

/-- `main` can always send once the sender threads are done. -/
theorem Filling.send_main (h : Filling bufSize n s) (hdone : s.unsent = 0) :
    (program bufSize n).Reachable
      (actorSendTo { s with senders := Function.update s.senders none [] } (-1)) := by
  apply h.reachable.step (.send none)
  simp [program, programStep, sendStep, h.main, unsent_eq_zero_iff.mp hdone]

/-- With every message of the program sent before the first batch, the queue must have room
for all of them. -/
theorem room_of_all_accepted
    (h : ∀ s, (program bufSize n).Reachable s → s.accepted.length = s.allocated) :
    50 * n < bufSize := by
  obtain ⟨s, hs, hdone⟩ := (filling_initial bufSize n).finish
  have hall := h _ (hs.send_main hdone)
  have haccepted := hs.split.actorSendTo_accepted (Function.update s.senders none []) (-1)
  have htotal := hs.total
  have hlength := hs.accepted
  rw [haccepted] at hall
  change _ = s.allocated + 1 at hall
  split at hall
  · omega
  · rw [List.length_append, List.length_singleton] at hall
    omega

/-- A message is counted under one value at most, and an exit message under none. -/
theorem sum_countP_le (ms : List Msg) (k : ℕ) :
    ∑ i ∈ Finset.range k, ms.countP (fun m => m.val = (i : ℤ)) ≤
      ms.countP fun m => m.val ≠ -1 := by
  induction ms with
  | nil => simp
  | cons m ms ih =>
      have hone : ∑ i ∈ Finset.range k, (if m.val = (i : ℤ) then 1 else 0) ≤
          if m.val ≠ -1 then 1 else 0 := by
        by_cases hexit : m.val = -1
        · have hnone : ∀ i : ℕ, ¬ -1 = (i : ℤ) := fun i => by omega
          simp [hexit, hnone]
        · rw [if_pos hexit, Finset.sum_boole]
          simp only [Nat.cast_id, Finset.card_le_one_iff, Finset.mem_filter]
          intro i j hi hj
          exact Int.ofNat_inj.mp (hi.2.symm.trans hj.2)
      simp only [List.countP_cons, decide_eq_true_eq, Finset.sum_add_distrib]
      omega

/-- After an emptied queue the exit message of `main` arrives, and the runner leaves. -/
theorem Split.leave (h : Split bufSize s pre [] [] []) (hreach : (program bufSize n).Reachable s)
    (hr : s.runner = .atLock) (hmain : s.senders none = [-1]) (hdone : s.unsent = 0)
    (hpos : 1 ≤ bufSize) :
    ∃ s', (program bufSize n).Reachable s' ∧ s'.runner = .leftLoop ∧
      ∃ m : Msg, m.val = -1 ∧ s'.accepted = s.accepted ++ [m] := by
  have hsend : (program bufSize n).Reachable
      (Actor.actorSendTo { s with senders := Function.update s.senders none [] } (-1)) := by
    apply hreach.step (.send none)
    simp [program, programStep, sendStep, hmain, unsent_eq_zero_iff.mp hdone]
  have haccepted := h.actorSendTo_accepted (Function.update s.senders none []) (-1)
  have hempty : ¬ ([] : List Msg).length = bufSize := by
    rw [List.length_nil]
    omega
  rw [if_neg hempty] at haccepted
  have h' : Split bufSize { s with senders := Function.update s.senders none [] } pre [] [] [] :=
    ⟨h.queue, h.maxSize, h.accepted, h.processed, h.fresh, h.nodup, h.buf, h.inRange, h.noExit,
      h.runner⟩
  have hsplit := h'.actorSendTo (-1)
  rw [if_neg hempty] at hsplit
  obtain ⟨s', hreach', -, hr', -, hacc', -⟩ := hsplit.round hsend
    (by simp [Actor.actorSendTo, hr, signal]) (by simp) (by simp)
  exact ⟨s', hreach', by simpa using hr', ⟨s.allocated, -1⟩, rfl, hacc'.trans haccepted⟩

/-- With the runner late and then quick, the self-check finds at most as many messages as
fit into the queue. -/
theorem fit_of_selfCheck (hpos : 1 ≤ bufSize)
    (h : ∀ s, (program bufSize n).Reachable s → s.runner = .leftLoop →
      ∀ i : ℕ, i < 50 → s.buf i = n) : 50 * n ≤ bufSize := by
  by_contra hbig
  obtain ⟨s, hs, hdone⟩ := (filling_initial bufSize n).finish
  have htotal := hs.total
  have hlength := hs.accepted
  have hne : s.accepted ≠ [] := by
    rw [← List.length_pos_iff]
    omega
  obtain ⟨s₁, hreach₁, hempty₁, hr₁, hsend₁, hacc₁, halloc₁⟩ :=
    hs.split.round hs.reachable hs.runner hne fun m hm => .inr (hs.regular m hm)
  rw [if_neg (by rintro ⟨m, hm, hexit⟩; have := hs.regular m hm; omega)] at hr₁
  -- the runner waits again, so `main` finds an empty queue for its exit message
  obtain ⟨pre, rem, post, l, hsplit₁⟩ := inv_of_program hreach₁
  have hrun₁ := hsplit₁.runner
  rw [hr₁] at hrun₁
  obtain ⟨rfl, rfl⟩ := hrun₁
  obtain rfl : l = [] := by
    rw [← List.length_eq_zero_iff, ← hsplit₁.queue.queueSize_eq, hempty₁.queueSize_eq]
    rfl
  obtain ⟨s₂, hreach₂, hr₂, m, hexit, hacc₂⟩ := hsplit₁.leave hreach₁ hr₁
    (by rw [hsend₁, hs.main])
    (unsent_eq_zero_iff.mpr fun i => by rw [hsend₁, unsent_eq_zero_iff.mp hdone i]) hpos
  obtain ⟨pre₂, rem₂, post₂, l₂, hsplit₂⟩ := inv_of_program hreach₂
  have hsum : ∑ i ∈ Finset.range 50, s₂.processed.countP (fun m => m.val = (i : ℤ)) = 50 * n := by
    rw [Finset.sum_congr rfl fun i hi => ?_, Finset.sum_const, Finset.card_range, smul_eq_mul]
    have hi := Finset.mem_range.mp hi
    rw [← hsplit₂.buf i (by omega) (by omega), h s₂ hreach₂ hr₂ i hi]
  have hle := sum_countP_le s₂.processed 50
  have hsub : s₂.processed.countP (fun m => m.val ≠ -1) ≤
      s₂.accepted.countP fun m => m.val ≠ -1 := by
    rw [hsplit₂.processed.countP_eq, hsplit₂.accepted]
    simp only [List.countP_append]
    omega
  have hregular : s₂.accepted.countP (fun m => m.val ≠ -1) ≤ s.accepted.length := by
    rw [hacc₂, hacc₁, List.countP_append]
    simpa [hexit] using List.countP_le_length
  omega

/-! ## Result -/

theorem selfCheck_eq_nil_iff (buf : ℤ → ℕ) :
    selfCheck n buf = [] ↔ ∀ i : ℕ, i < 50 → buf i = n := by
  simp [selfCheck]

/-- For every number of senders: the self-check passes in every run exactly when the
messages of all senders fit into the queue, and no message is ever dropped exactly when
the exit message of `main` fits in as well. -/
theorem selfCheck_iff (n : ℕ) :
    ((∀ s, (program queueBufSize n).Reachable s →
        (s.runner = .leftLoop →
          (∀ i : ℕ, i < 50 → s.buf i = n) ∧ selfCheck n s.buf = []) ∧
          s.accepted.length = s.allocated) ↔ n < 2000) ∧
      ((∀ s, (program queueBufSize n).Reachable s →
        s.runner = .leftLoop → selfCheck n s.buf = []) ↔ n ≤ 2000) := by
  have hcheck : n ≤ 2000 → ∀ s, (program queueBufSize n).Reachable s →
      s.runner = .leftLoop → ∀ i : ℕ, i < 50 → s.buf i = n := by
    intro hn s hs hr i hi
    obtain ⟨pre, rem, post, l, hsplit⟩ := inv_of_program hs
    have hfit : 50 * n ≤ queueBufSize := by
      unfold queueBufSize
      omega
    exact (tally_of_program hfit hs).buf_eq hsplit hr (by omega) (by omega)
  simp only [selfCheck_eq_nil_iff, and_self]
  refine ⟨⟨?_, ?_⟩, ⟨?_, hcheck⟩⟩
  · intro h
    have hroom := room_of_all_accepted fun s hs => (h s hs).2
    unfold queueBufSize at hroom
    omega
  · intro hn s hs
    refine ⟨hcheck (by omega) s hs, ?_⟩
    have hroom : 50 * n < queueBufSize := by
      unfold queueBufSize
      omega
    exact (tally_of_program hroom.le hs).accepted_eq hroom
  · intro h
    have hfit := fit_of_selfCheck (by decide) h
    unfold queueBufSize at hfit
    omega

/-- 2001 senders can send 100050 messages before the runner takes the first of them. -/
theorem selfCheck_fails : ∃ s, (program queueBufSize 2001).Reachable s ∧ s.runner = .leftLoop ∧
    ∃ i : ℕ, i < 50 ∧ s.buf i ≠ 2001 := by
  by_contra hnone
  have hfit : 50 * 2001 ≤ queueBufSize := fit_of_selfCheck (by decide) ?_
  · simp [queueBufSize] at hfit
  · intro s hs hr i hi
    by_contra hne
    exact hnone ⟨s, hs, hr, i, hi, hne⟩

end PthreadBenchmark.Actor
