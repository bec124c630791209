import PthreadBenchmark.Pool.Correctness
import PthreadBenchmark.Shared.PthreadRest

/-! # The pool never shuts down

A worker leaves on the task `(-1, -1)` only, and `main` never submits one. -/

namespace PthreadBenchmark.Pool

open Pthread

variable {bufferSize nThreads : ℕ} {tasks : List Task} {s s' : Shared} {p q : Point}
  {c : Config (Option (Fin nThreads)) Shared Point Mutex Cond}

/-- What `main` generates: both fields are remainders modulo 100. -/
def Task.Generated (t : Task) : Prop := 0 ≤ t.a ∧ t.a < 100 ∧ 0 ≤ t.b ∧ t.b < 100

theorem Task.Generated.not_last {t : Task} (h : t.Generated) : ¬ (t.a = -1 ∧ t.b = -1) := by
  rintro ⟨ha, -⟩
  have hnonneg := h.1
  omega

/-! ## Workers stay -/

/-- The tasks that a thread has in hand or has still to submit are generated ones, so that it has
not left. -/
def Stays : Point → Prop
  | .getUnlock task | .getSignal task | .startThread task => task.Generated
  | .submitLock tasks | .submitUnlock tasks | .submitSignal tasks => ∀ t ∈ tasks, t.Generated
  | .submitTest task rest => task.Generated ∧ ∀ t ∈ rest, t.Generated
  | .exited => False
  | .getLock | .getTest _ | .joining _ => True

structure Staying (bufferSize : ℕ) (s : Shared) (ps : Option (Fin nThreads) → Point) : Prop where
  fifo : Fifo bufferSize s
  stored : ∀ t ∈ s.stored, t.Generated
  stays : ∀ i, Stays (ps i)

theorem Fifo.head_stored (h : Fifo bufferSize s) (hne : s.taskCount ≠ 0) :
    s.taskQueue 0 ∈ s.stored := by
  rw [h.stored, pending_eq_cons hne]
  simp

theorem Staying.step {ps : Option (Fin nThreads) → Point} {i : Option (Fin nThreads)}
    (h : Staying bufferSize s ps) (hq : (code bufferSize nThreads s (ps i)).next? = some q) :
    Staying bufferSize ((code bufferSize nThreads s (ps i)).after s) (Function.update ps i q) := by
  have hstays := h.stays i
  have hupdate : ∀ {q}, Stays q → ∀ j, Stays (Function.update ps i q j) := by
    intro q hstays
    exact (Function.forall_update_iff ps fun _ p => Stays p).mpr ⟨hstays, fun j _ => h.stays j⟩
  cases hp : ps i with
  | startThread task =>
      rw [hp] at hq hstays
      simp only [code, if_neg hstays.not_last, Op.next?, Option.some.injEq] at hq ⊢
      subst hq
      exact ⟨⟨h.fifo.stored, h.fifo.taskCount_le⟩, h.stored, hupdate trivial⟩
  | getTest woken =>
      rw [hp] at hq
      simp only [code] at hq ⊢
      split at hq
      · next hempty =>
          cases hq
          rw [if_pos hempty]
          exact ⟨h.fifo, h.stored, hupdate trivial⟩
      · next hne =>
          cases hq
          rw [if_neg hne]
          exact ⟨h.fifo.getTask hne, h.stored, hupdate (h.stored _ (h.fifo.head_stored hne))⟩
  | submitTest task rest =>
      rw [hp] at hq hstays
      simp only [code] at hq ⊢
      split at hq
      · next hfull =>
          cases hq
          rw [if_pos hfull]
          exact ⟨h.fifo, h.stored, hupdate hstays⟩
      · next hne =>
          cases hq
          rw [if_neg hne]
          refine ⟨h.fifo.submitTask hne task, fun t ht => ?_, hupdate hstays.2⟩
          rcases List.mem_append.mp ht with ht | ht
          · exact h.stored t ht
          · rw [List.mem_singleton.mp ht]
            exact hstays.1
  | submitLock tasks =>
      rw [hp] at hq hstays
      cases tasks with
      | nil =>
          cases hq
          exact ⟨h.fifo, h.stored, hupdate trivial⟩
      | cons task rest =>
          cases hq
          exact ⟨h.fifo, h.stored, hupdate (List.forall_mem_cons.mp hstays)⟩
  | joining k =>
      rw [hp] at hq
      simp only [code] at hq ⊢
      split at hq
      · next hlt =>
          cases hq
          rw [dif_pos hlt]
          exact ⟨h.fifo, h.stored, hupdate trivial⟩
      · cases hq
  | exited =>
      rw [hp] at hstays
      exact hstays.elim
  | getLock | getUnlock task | getSignal task | submitUnlock rest | submitSignal rest =>
      rw [hp] at hq hstays
      cases hq
      exact ⟨h.fifo, h.stored, hupdate hstays⟩

theorem staying_of_reachable (htasks : ∀ t ∈ tasks, t.Generated)
    (h : (program bufferSize nThreads tasks).Reachable c) :
    Staying bufferSize c.shared (points c) := by
  apply points_invariant (P := Staying bufferSize) h
  · refine ⟨⟨rfl, Nat.zero_le _⟩, fun t ht => (List.not_mem_nil ht).elim, fun i => ?_⟩
    cases i with
    | none => exact htasks
    | some i => exact trivial
  · exact fun s ps i q hs hq => hs.step hq

/-! ## The pool comes to rest -/

/-- How far a thread is from sleeping or joining, with 13 steps for each task to be submitted and 7
for each one in the queue. -/
def restSteps (nThreads : ℕ) : Point → ℕ
  | .getLock => 2
  | .getTest _ => 1
  | .getUnlock _ => 7
  | .getSignal _ => 6
  | .startThread _ => 3
  | .exited => 0
  | .submitLock tasks => 13 * tasks.length + nThreads + 1
  | .submitTest _ rest => 13 * rest.length + nThreads + 13
  | .submitUnlock rest => 13 * rest.length + nThreads + 5
  | .submitSignal rest => 13 * rest.length + nThreads + 4
  | .joining i => nThreads - i

theorem lowers_code (c : Config (Option (Fin nThreads)) Shared Point Mutex Cond) (p : Point) :
    Lowers (restSteps nThreads) (fun p => restSteps nThreads p - 1) (fun s => 7 * s.taskCount) c p
      (code bufferSize nThreads c.shared p) := by
  cases p with
  | getTest woken =>
      simp only [code]
      split
      · simp [Lowers, restSteps]
      · next hne =>
          simp only [Lowers, getTask, restSteps]
          omega
  | startThread task =>
      simp only [code, Lowers]
      split <;> simp [restSteps]
  | submitLock tasks =>
      cases tasks with
      | nil =>
          simp only [code, Lowers, restSteps, List.length_nil]
          omega
      | cons task rest =>
          simp only [code, Lowers, restSteps, List.length_cons]
          omega
  | submitTest task rest =>
      simp only [code]
      split
      · simp [Lowers, restSteps]
      · simp only [Lowers, submitTask, restSteps]
        omega
  | joining i =>
      simp only [code]
      split
      · simp only [Lowers, restSteps]
        omega
      · trivial
  | exited => trivial
  | getSignal | submitSignal =>
      refine ⟨?_, fun j m x _ => ?_⟩ <;> simp only [restSteps] <;> omega
  | getLock | getUnlock | submitUnlock =>
      simp only [code, Lowers, restSteps]
      omega

/-! ## Results -/

/-- All workers have left `startThread`, and `main` has joined them. -/
def ShutDown (c : Config (Option (Fin nThreads)) Shared Point Mutex Cond) : Prop :=
  (∀ i, points c (some i) = .exited) ∧ points c none = .joining nThreads

/-- For any capacity, any number of workers and any tasks that `main` can generate, no run shuts the
pool down, and from every reachable state the threads can go on until none can without a further
notification. -/
theorem pool_never_shuts_down (bufferSize nThreads : ℕ) (hworkers : 1 ≤ nThreads)
    (tasks : List Task) (htasks : ∀ t ∈ tasks, t.Generated) :
    (∀ c, (program bufferSize nThreads tasks).Reachable c → ¬ ShutDown c) ∧
    ∃ c, (program bufferSize nThreads tasks).Reachable c ∧
      Stuck (code bufferSize nThreads) c ∧ ¬ ShutDown c := by
  have hstays : ∀ c, (program bufferSize nThreads tasks).Reachable c → ¬ ShutDown c := by
    intro c hc hdown
    have hworker := (staying_of_reachable htasks hc).stays (some ⟨0, hworkers⟩)
    rw [hdown.1] at hworker
    exact hworker
  refine ⟨hstays, ?_⟩
  obtain ⟨ls, c, hexec, hstuck⟩ := exists_stuck (fun s : Shared => 7 * s.taskCount)
    (fun c _ _ p _ => lowers_code c p)
    (System.Reachable.init (S := program bufferSize nThreads tasks))
  have hreach := System.Reachable.init.exec hexec
  exact ⟨c, hreach, hstuck, hstays c hreach⟩

theorem pool_never_shuts_down_one :
    ∃ c, (program 256 1 [⟨1, 2⟩]).Reachable c ∧ Stuck (code 256 1) c ∧ ¬ ShutDown c :=
  (pool_never_shuts_down 256 1 le_rfl [⟨1, 2⟩] (by simp [Task.Generated])).2

/-- One worker, which executes its only task and sleeps. -/
def oneTask (i : Fin 1) : Option (Config (Option (Fin 1)) Shared Point Mutex Cond) :=
  (program 256 1 [⟨1, 2⟩]).exec (program 256 1 [⟨1, 2⟩]).init
    (List.replicate 5 (Action.run none none) ++ List.replicate 7 (Action.run (some i) none))

/-- With one worker and one task, the worker waits for a task and `main` for the worker. -/
theorem pool_shutdown_fails : ∃ c, (program 256 1 [⟨1, 2⟩]).Reachable c ∧
    Stuck (code 256 1) c ∧ ¬ ShutDown c ∧ AsleepOn .condEmpty (c.threads (some 0)) ∧
      points c none = .joining 0 := by
  have hrun : (oneTask 0).isSome = true := by decide
  have hmain : points ((oneTask 0).get hrun) none = .joining 0 := rfl
  refine ⟨(oneTask 0).get hrun, System.Reachable.init.exec (Option.some_get hrun).symm, ?_,
    fun h => ?_, rfl, hmain⟩
  · intro i target
    cases i with
    | none => rfl
    | some i =>
        rw [Subsingleton.elim i 0]
        rfl
  · cases hmain.symm.trans h.2

end PthreadBenchmark.Pool
