import PthreadBenchmark.Actor.Model
import PthreadBenchmark.CyclicQueue.Drain
import Mathlib.Data.List.TakeWhile

/-! # No accepted message is lost on its way through the actor

A batch is consumed from its newest message on, so the part of `accepted` that has been
processed is not a prefix: it is what lies before the rest of the current batch and what
lies behind it. -/

namespace PthreadBenchmark.Actor

open CyclicQueue

variable {ι : Type*} {s : State ι} {bufSize : ℕ} {pre rem post l : List Msg}

/-! ## The split of the accepted messages -/

/-- What the runner's program point says about the current batch `rem ++ post`. -/
def RunnerInv (r : Runner) (rem post : List Msg) : Prop :=
  match r with
  | .atLock | .asleep => rem = [] ∧ post = []
  | .batch v exitFlag => Holds v rem ∧ (exitFlag = true ↔ ∃ m ∈ post, m.val = -1)
  | .leftLoop => rem = [] ∧ ∃ m ∈ post, m.val = -1
  | .crashed v => Holds v rem

/-- `pre` are the earlier batches, `rem` what is left of the current one, `post` what has
been processed of it and `l` the queue. -/
structure Split (bufSize : ℕ) (s : State ι) (pre rem post l : List Msg) : Prop where
  queue : Represents s.queue l
  maxSize : s.queue.maxSize = bufSize + 1
  accepted : s.accepted = pre ++ rem ++ post ++ l
  processed : s.processed.Perm (pre ++ post)
  fresh : ∀ m ∈ s.accepted, m.id < s.allocated
  nodup : s.accepted.Nodup
  buf : ∀ v : ℤ, 0 ≤ v → v < 50 → s.buf v = s.processed.countP fun m => m.val = v
  inRange : (∀ v, s.runner ≠ .crashed v) → ∀ m ∈ s.processed, m.val = -1 ∨ 0 ≤ m.val ∧ m.val < 50
  noExit : ∀ m ∈ pre, m.val ≠ -1
  runner : RunnerInv s.runner rem post

def Inv (bufSize : ℕ) (s : State ι) : Prop := ∃ pre rem post l, Split bufSize s pre rem post l

theorem inv_initial (messages : ι → List ℤ) : Inv bufSize (initial bufSize messages) :=
  ⟨[], [], [], [], represents_queueInit (Nat.succ_pos _), rfl, rfl, .refl _, by simp [initial],
    by simp [initial], by simp [initial], by simp [initial], by simp, rfl, rfl⟩

/-! ## Steps -/

theorem runnerInv_signal {r : Runner} (h : RunnerInv r rem post) :
    RunnerInv (signal r) rem post := by
  cases r <;> exact h

theorem signal_ne_crashed {r : Runner} (h : ∀ v, signal r ≠ .crashed v) (v : VectorT Msg) :
    r ≠ .crashed v := by
  intro heq
  subst heq
  exact h v rfl

/-- A send appends to the queue, or changes nothing but the allocation count. -/
theorem Split.actorSendTo (h : Split bufSize s pre rem post l) (data : ℤ) :
    Split bufSize (actorSendTo s data) pre rem post
      (if l.length = bufSize then l else l ++ [⟨s.allocated, data⟩]) := by
  have hmax := h.maxSize
  have hsize : (queueEnqueue s.queue (some (⟨s.allocated, data⟩ : Msg))).2.maxSize =
      bufSize + 1 := by
    rw [← hmax]
    unfold queueEnqueue
    split <;> rfl
  by_cases hfull : l.length = bufSize
  · have hq := h.queue.enqueue_full (by omega) (some (⟨s.allocated, data⟩ : Msg))
    simp only [Actor.actorSendTo, hq, hfull, if_true]
    exact ⟨h.queue, hmax, h.accepted, h.processed, fun m hm => Nat.lt_succ_of_lt (h.fresh m hm),
      h.nodup, h.buf, fun hr => h.inRange (signal_ne_crashed hr), h.noExit,
      runnerInv_signal h.runner⟩
  · obtain ⟨hone, hrep⟩ := h.queue.enqueue (by omega) (⟨s.allocated, data⟩ : Msg)
    simp only [Actor.actorSendTo, hone, hfull, if_true, if_false]
    refine ⟨hrep, hsize, ?_, h.processed, ?_, ?_, h.buf,
      fun hr => h.inRange (signal_ne_crashed hr), h.noExit, runnerInv_signal h.runner⟩
    · simp [h.accepted]
    · intro m hm
      rcases List.mem_append.mp hm with hm | hm
      · exact Nat.lt_succ_of_lt (h.fresh m hm)
      · obtain rfl := List.mem_singleton.mp hm
        exact Nat.lt_succ_self _
    · rw [List.nodup_append]
      refine ⟨h.nodup, by simp, ?_⟩
      intro a ha b hb hab
      obtain rfl := List.mem_singleton.mp hb
      exact absurd (h.fresh a ha) (by simp [hab])

/-- Processing moves the newest message of the batch to the processed ones. -/
theorem Split.process {v v' : VectorT Msg} {exitFlag : Bool} {data : Msg}
    (h : Split bufSize s pre (rem ++ [data]) post l) (hr : s.runner = .batch v exitFlag)
    (hv : Holds v' rem) :
    Split bufSize (process s v' exitFlag data) pre rem (data :: post) l := by
  have hacc : s.accepted = pre ++ rem ++ (data :: post) ++ l := by simp [h.accepted]
  have hproc : (s.processed ++ [data]).Perm (pre ++ data :: post) :=
    (h.processed.append_right [data]).trans (by
      simpa using (List.perm_append_singleton data post).append_left pre)
  have hflag : exitFlag = true ↔ ∃ m ∈ post, m.val = -1 := by
    have hrun := h.runner
    rw [hr] at hrun
    exact hrun.2
  have hrange := h.inRange (by simp [hr])
  unfold Actor.process
  by_cases hexit : data.val = -1
  · simp only [hexit, if_true]
    refine ⟨h.queue, h.maxSize, hacc, hproc, h.fresh, h.nodup, ?_, ?_, h.noExit, hv,
      by simp [hexit]⟩
    · intro w h0 h50
      simp [h.buf w h0 h50, hexit, show ¬ -1 = w by omega]
    · intro _ m hm
      rcases List.mem_append.mp hm with hm | hm
      · exact hrange m hm
      · obtain rfl := List.mem_singleton.mp hm
        exact .inl hexit
  · by_cases hin : 0 ≤ data.val ∧ data.val < 50
    · simp only [hexit, hin, if_false, and_self, if_true]
      refine ⟨h.queue, h.maxSize, hacc, hproc, h.fresh, h.nodup, ?_, ?_, h.noExit, hv, ?_⟩
      · intro w h0 h50
        by_cases hw : data.val = w
        · subst hw
          simp [h.buf _ h0 h50]
        · simp [Function.update_of_ne (Ne.symm hw), h.buf w h0 h50, hw]
      · intro _ m hm
        rcases List.mem_append.mp hm with hm | hm
        · exact hrange m hm
        · obtain rfl := List.mem_singleton.mp hm
          exact .inr hin
      · simp [hflag, hexit]
    · simp only [hexit, hin, if_false]
      refine ⟨h.queue, h.maxSize, hacc, hproc, h.fresh, h.nodup, ?_, ?_, h.noExit, hv⟩
      · intro w h0 h50
        have hw : data.val ≠ w := fun hw => hin ⟨by omega, by omega⟩
        simp [h.buf w h0 h50, hw]
      · intro hcrash
        exact absurd rfl (hcrash v')

/-- Taking a batch empties the queue into the vector. -/
theorem Split.drain (h : Split bufSize s pre rem post l) (hr : s.runner = .atLock) :
    ∃ v q, queueDequeueall s.queue = .returned v q ∧
      Split bufSize { s with queue := q, runner := .batch v false } pre l [] [] := by
  obtain ⟨v, q, hdrain, hv, -, hq, hsize⟩ := h.queue.dequeueall
  have hrun := h.runner
  rw [hr] at hrun
  obtain ⟨rfl, rfl⟩ := hrun
  refine ⟨v, q, hdrain, hq, hsize.trans h.maxSize, by simpa using h.accepted, h.processed,
    h.fresh, h.nodup, h.buf, fun _ => h.inRange (by simp [hr]), h.noExit, hv, by simp⟩

/-- The end of a batch: with an exit message the runner leaves, else the batch joins the
earlier ones. -/
theorem Split.endBatch {v : VectorT Msg} {exitFlag : Bool}
    (h : Split bufSize s pre [] post l) (hr : s.runner = .batch v exitFlag) :
    Inv bufSize { s with runner := if exitFlag then .leftLoop else .atLock } := by
  have hrun := h.runner
  rw [hr] at hrun
  have hrange := h.inRange (by simp [hr])
  cases exitFlag with
  | true =>
      exact ⟨pre, [], post, l, h.queue, h.maxSize, h.accepted, h.processed, h.fresh, h.nodup,
        h.buf, fun _ => hrange, h.noExit, rfl, hrun.2.mp rfl⟩
  | false =>
      refine ⟨pre ++ post, [], [], l, h.queue, h.maxSize, ?_, ?_, h.fresh, h.nodup, h.buf,
        fun _ => hrange, ?_, rfl, rfl⟩
      · simpa using h.accepted
      · simpa using h.processed
      · intro m hm
        rcases List.mem_append.mp hm with hm | hm
        · exact h.noExit m hm
        · exact fun hexit => Bool.noConfusion (hrun.2.mpr ⟨m, hm, hexit⟩)

theorem Inv.of_runnerStep {s' : State ι} (h : Inv bufSize s) (hs : runnerStep s = some s') :
    Inv bufSize s' := by
  obtain ⟨pre, rem, post, l, h⟩ := h
  unfold runnerStep at hs
  cases hr : s.runner with
  | atLock =>
      simp only [hr] at hs
      split at hs
      · cases hs
        have hrun := h.runner
        rw [hr] at hrun
        exact ⟨pre, rem, post, l, h.queue, h.maxSize, h.accepted, h.processed, h.fresh, h.nodup,
          h.buf, fun _ => h.inRange (by simp [hr]), h.noExit, hrun⟩
      · obtain ⟨v, q, hdrain, hsplit⟩ := h.drain hr
        simp only [hdrain, Option.some.injEq] at hs
        subst hs
        exact ⟨pre, l, [], [], hsplit⟩
  | asleep => simp [hr] at hs
  | batch v exitFlag =>
      simp only [hr] at hs
      have hrun := h.runner
      rw [hr] at hrun
      rcases List.eq_nil_or_concat' rem with rfl | ⟨rem, data, rfl⟩
      · simp only [hrun.1.popBack_nil, Option.some.injEq] at hs
        subst hs
        exact h.endBatch hr
      · obtain ⟨hlast, hv⟩ := hrun.1.popBack_concat
        have hpop : vectorPopBack v = (some data, (vectorPopBack v).2) := Prod.ext hlast rfl
        rw [hpop] at hs
        simp only [Option.some.injEq] at hs
        subst hs
        exact ⟨pre, rem, data :: post, l, h.process hr hv⟩
  | leftLoop => simp [hr] at hs
  | crashed v => simp [hr] at hs

theorem Inv.of_sendStep [DecidableEq ι] {s' : State ι} {i : ι} (h : Inv bufSize s)
    (hs : sendStep s i = some s') : Inv bufSize s' := by
  obtain ⟨pre, rem, post, l, h⟩ := h
  unfold sendStep at hs
  cases hsend : s.senders i with
  | nil => simp [hsend] at hs
  | cons data rest =>
      simp only [hsend, Option.some.injEq] at hs
      subst hs
      have h' : Split bufSize { s with senders := Function.update s.senders i rest }
          pre rem post l :=
        ⟨h.queue, h.maxSize, h.accepted, h.processed, h.fresh, h.nodup, h.buf, h.inRange,
          h.noExit, h.runner⟩
      exact ⟨pre, rem, post, _, h'.actorSendTo data⟩

theorem Inv.of_step [DecidableEq ι] {s' : State ι} {a : Action ι} (h : Inv bufSize s)
    (hs : step s a = some s') : Inv bufSize s' := by
  cases a with
  | send i => exact h.of_sendStep hs
  | runner => exact h.of_runnerStep hs
  | wakeup =>
      obtain ⟨pre, rem, post, l, h⟩ := h
      cases hr : s.runner <;> simp only [step, hr, Option.some.injEq, reduceCtorEq] at hs
      subst hs
      have hrun := h.runner
      rw [hr] at hrun
      exact ⟨pre, rem, post, l, h.queue, h.maxSize, h.accepted, h.processed, h.fresh, h.nodup,
        h.buf, fun _ => h.inRange (by simp [hr]), h.noExit, hrun⟩

theorem inv_of_reachable [DecidableEq ι] {messages : ι → List ℤ}
    (h : (actors bufSize messages).Reachable s) : Inv bufSize s :=
  h.invariant (inv_initial messages) fun _ _ _ hinv hs => hinv.of_step hs

/-! ## Results -/

theorem vectorContents_of_holds {v : VectorT Msg} (h : Holds v l) : vectorContents v = l := by
  have hcells : (List.range v.tail).map v.buf = l.map some := by
    rw [h.tail_eq]
    apply List.ext_getElem?
    intro k
    by_cases hk : k < l.length
    · simp [hk, h.cells k hk]
    · simp [hk]
  rw [vectorContents, hcells]
  simp

theorem queueContents_of_represents (h : Represents s.queue l) : s.queueContents = l := by
  simp [State.queueContents, h.queueSize_eq, h.live]

/-- The program's own vector holds exactly the rest of the batch. -/
theorem Split.vectorContents_eq (h : Split bufSize s pre rem post l) :
    s.vectorContents = rem := by
  have hrun := h.runner
  cases hr : s.runner <;> simp only [hr, RunnerInv, State.vectorContents] at hrun ⊢
  case atLock => exact hrun.1.symm
  case asleep => exact hrun.1.symm
  case batch => exact vectorContents_of_holds hrun.1
  case leftLoop => exact hrun.1.symm
  case crashed => exact vectorContents_of_holds hrun

/-- An element that fails the test ends `takeWhile` before any appended list. -/
theorem takeWhile_append_of_mem {α : Type*} {p : α → Bool} {xs : List α} (ys : List α) {x : α}
    (hx : x ∈ xs) (hp : p x = false) : (xs ++ ys).takeWhile p = xs.takeWhile p := by
  rw [List.takeWhile_append, if_neg]
  intro hlength
  have hall := (List.takeWhile_prefix p).eq_of_length hlength
  rw [← hall] at hx
  have := List.mem_takeWhile_imp hx
  simp [hp] at this

/-- Once the runner has left, what was accepted before the first exit message is
processed: the exit message stands in the last batch and the queue lies behind it. -/
theorem Split.takeWhile_subset (h : Split bufSize s pre rem post l) (hr : s.runner = .leftLoop) :
    ∀ m ∈ s.accepted.takeWhile (fun m => m.val ≠ -1), m ∈ s.processed := by
  have hrun := h.runner
  rw [hr] at hrun
  obtain ⟨rfl, exit, hexit, hval⟩ := hrun
  have hbound : s.accepted.takeWhile (fun m => m.val ≠ -1) =
      (pre ++ post).takeWhile (fun m => m.val ≠ -1) := by
    rw [h.accepted, List.append_nil]
    exact takeWhile_append_of_mem l (List.mem_append_right pre hexit) (by simp [hval])
  intro m hm
  rw [hbound] at hm
  exact h.processed.mem_iff.mpr ((List.takeWhile_prefix _).subset hm)

/-- For any senders, messages and interleaving: the accepted messages, which are pairwise
different allocations, are those in the queue, in the current vector and already
processed; and when the runner has left its loop, each message accepted before the first
`-1` has been processed exactly once, `buf` counting the processed messages by value. -/
theorem actor_accounting [DecidableEq ι] (bufSize : ℕ) (messages : ι → List ℤ) (s : State ι)
    (h : (actors bufSize messages).Reachable s) :
    (s.accepted.Nodup ∧
      s.accepted.Perm (s.queueContents ++ s.vectorContents ++ s.processed)) ∧
    (s.runner = .leftLoop →
      (∀ m ∈ s.accepted.takeWhile (fun m => m.val ≠ -1),
        s.processed.count m = 1 ∧ 0 ≤ m.val ∧ m.val < 50) ∧
      ∀ v : ℤ, 0 ≤ v → v < 50 → s.buf v = s.processed.countP fun m => m.val = v) := by
  obtain ⟨pre, rem, post, l, hsplit⟩ := inv_of_reachable h
  have hperm : s.accepted.Perm (s.queueContents ++ s.vectorContents ++ s.processed) := by
    rw [hsplit.accepted, hsplit.vectorContents_eq, queueContents_of_represents hsplit.queue,
      List.perm_iff_count]
    intro m
    have hcount := hsplit.processed.count_eq m
    simp only [List.count_append] at hcount ⊢
    omega
  refine ⟨⟨hsplit.nodup, hperm⟩, ?_⟩
  intro hr
  refine ⟨?_, hsplit.buf⟩
  intro m hm
  have hmem := hsplit.takeWhile_subset hr m hm
  have hnodup : s.processed.Nodup :=
    (List.nodup_append.mp (hperm.nodup_iff.mp hsplit.nodup)).2.1
  have hexit : m.val ≠ -1 := by simpa using List.mem_takeWhile_imp hm
  refine ⟨List.count_eq_one_of_mem hnodup hmem, ?_⟩
  exact (hsplit.inRange (by simp [hr]) m hmem).resolve_left hexit

/-- One sender of three messages; the exit message is met before the older one. -/
def runOfOne : Option (State (Fin 1)) :=
  (actors 4 fun _ => [3, -1, 5]).exec (initial 4 fun _ => [3, -1, 5])
    [.send 0, .send 0, .runner, .send 0, .runner, .runner, .runner]

theorem actor_accounting_one : ∃ s, runOfOne = some s ∧ s.runner = .leftLoop ∧
    (∀ m ∈ s.accepted.takeWhile (fun m => m.val ≠ -1),
      s.processed.count m = 1 ∧ 0 ≤ m.val ∧ m.val < 50) ∧ s.buf 3 = 1 ∧ s.buf 5 = 0 := by
  have hrun : runOfOne.isSome = true := by decide
  have hleft : (runOfOne.get hrun).runner = .leftLoop := rfl
  have hreach := System.Reachable.init.exec (Option.some_get hrun).symm
  exact ⟨runOfOne.get hrun, (Option.some_get hrun).symm, hleft,
    ((actor_accounting 4 _ _ hreach).2 hleft).1, rfl, rfl⟩

end PthreadBenchmark.Actor
