import PthreadBenchmark.Pool.Model
import PthreadBenchmark.Shared.PthreadRules
import PthreadBenchmark.Shared.Segment

/-! # The queue of the pool is first in, first out, and no wakeup is lost -/

namespace PthreadBenchmark.Pool

open Pthread

variable {bufferSize nThreads : ℕ} {tasks : List Task}
  {c : Config (Option (Fin nThreads)) Shared Point Mutex Cond}

/-! ## Moves -/

/-- What the operation at a point does to the point and to the shared variables. -/
inductive Edge (bufferSize : ℕ) (s : Shared) : Point → Point → Shared → Prop where
  | getLock : Edge bufferSize s .getLock (.getTest false) s
  | getWait (woken : Bool) : Edge bufferSize s (.getTest woken) (.getTest true) s
  | get (woken : Bool) (h : s.taskCount ≠ 0) :
      Edge bufferSize s (.getTest woken) (.getUnlock (s.taskQueue 0)) (getTask s)
  | getUnlock (task : Task) : Edge bufferSize s (.getUnlock task) (.getSignal task) s
  | getSignal (task : Task) : Edge bufferSize s (.getSignal task) (.startThread task) s
  | startThread (task : Task) (p : Point) (h : p = .exited ∨ p = .getLock) :
      Edge bufferSize s (.startThread task) p { s with returned := s.returned ++ [task] }
  | submitEnd : Edge bufferSize s (.submitLock []) (.joining 0) s
  | submitLock (task : Task) (rest : List Task) :
      Edge bufferSize s (.submitLock (task :: rest)) (.submitTest task rest) s
  | submitWait (task : Task) (rest : List Task) :
      Edge bufferSize s (.submitTest task rest) (.submitTest task rest) s
  | submit (task : Task) (rest : List Task) (h : s.taskCount ≠ bufferSize) :
      Edge bufferSize s (.submitTest task rest) (.submitUnlock rest) (submitTask s task)
  | submitUnlock (rest : List Task) : Edge bufferSize s (.submitUnlock rest) (.submitSignal rest) s
  | submitSignal (rest : List Task) : Edge bufferSize s (.submitSignal rest) (.submitLock rest) s
  | joining (i : ℕ) : Edge bufferSize s (.joining i) (.joining (i + 1)) s

theorem edge_of_next {s : Shared} {p q : Point}
    (h : (code bufferSize nThreads s p).next? = some q) :
    Edge bufferSize s p q ((code bufferSize nThreads s p).after s) := by
  cases p with
  | getLock => cases h; exact .getLock
  | getTest woken =>
      simp only [code] at h ⊢
      split at h
      · next hempty =>
          cases h
          rw [if_pos hempty]
          exact .getWait woken
      · next hempty =>
          cases h
          rw [if_neg hempty]
          exact .get woken hempty
  | getUnlock task => cases h; exact .getUnlock task
  | getSignal task => cases h; exact .getSignal task
  | startThread task =>
      cases h
      refine .startThread task _ ?_
      split
      · exact .inl rfl
      · exact .inr rfl
  | exited => cases h
  | submitLock tasks =>
      cases tasks with
      | nil => cases h; exact .submitEnd
      | cons task rest => cases h; exact .submitLock task rest
  | submitTest task rest =>
      simp only [code] at h ⊢
      split at h
      · next hfull =>
          cases h
          rw [if_pos hfull]
          exact .submitWait task rest
      · next hfull =>
          cases h
          rw [if_neg hfull]
          exact .submit task rest hfull
  | submitUnlock rest => cases h; exact .submitUnlock rest
  | submitSignal rest => cases h; exact .submitSignal rest
  | joining i =>
      simp only [code] at h ⊢
      split at h
      · next hlt =>
          cases h
          rw [dif_pos hlt]
          exact .joining i
      · cases h

/-! ## The queue -/

/-- The pending tasks, oldest first. -/
def Shared.pending (s : Shared) : List Task := segment s.taskQueue 0 s.taskCount

theorem shiftLoop_of_lt (n : ℕ) (q : ℕ → Task) {i j : ℕ} (h : j < i) :
    shiftLoop n i q j = q j := by
  induction n generalizing i q with
  | zero => rfl
  | succ n ih => rw [shiftLoop, ih _ (by omega), Function.update_of_ne (by omega)]

/-- The loop moves every element one place forward. -/
theorem segment_shiftLoop (n i : ℕ) (q : ℕ → Task) :
    segment (shiftLoop n i q) i n = segment q (i + 1) n := by
  induction n generalizing i q with
  | zero => rfl
  | succ n ih =>
      rw [segment_succ, segment_succ, shiftLoop, ih, shiftLoop_of_lt _ _ (by omega),
        Function.update_self]
      congr 1
      exact segment_congr fun j h1 _ => Function.update_of_ne (by omega) _ _

theorem pending_eq_cons {s : Shared} (h : s.taskCount ≠ 0) :
    s.pending = s.taskQueue 0 :: (getTask s).pending := by
  obtain ⟨n, hn⟩ := Nat.exists_eq_succ_of_ne_zero h
  rw [Shared.pending, Shared.pending, hn, segment_succ]
  simp only [getTask, hn, Nat.succ_sub_one]
  rw [segment_shiftLoop]

theorem pending_submitTask (s : Shared) (task : Task) :
    (submitTask s task).pending = s.pending ++ [task] := by
  rw [Shared.pending, Shared.pending]
  simp only [submitTask]
  rw [segment_add]
  congr 1
  · exact segment_congr fun j _ h => Function.update_of_ne (by omega) _ _
  · simp [segment]

/-- What was stored has been taken, oldest first, or is still in the queue. -/
structure Fifo (bufferSize : ℕ) (s : Shared) : Prop where
  stored : s.stored = s.taken ++ s.pending
  taskCount_le : s.taskCount ≤ bufferSize

theorem Fifo.getTask {s : Shared} (h : Fifo bufferSize s) (hne : s.taskCount ≠ 0) :
    Fifo bufferSize (getTask s) := by
  refine ⟨?_, (Nat.sub_le _ _).trans h.taskCount_le⟩
  change s.stored = s.taken ++ [s.taskQueue 0] ++ (Pool.getTask s).pending
  rw [h.stored, pending_eq_cons hne, List.append_assoc]
  rfl

theorem Fifo.submitTask {s : Shared} (h : Fifo bufferSize s) (hne : s.taskCount ≠ bufferSize)
    (task : Task) : Fifo bufferSize (submitTask s task) := by
  refine ⟨?_, Nat.lt_of_le_of_ne h.taskCount_le hne⟩
  rw [pending_submitTask, ← List.append_assoc]
  exact congrArg (· ++ [task]) h.stored

theorem fifo_of_reachable (h : (program bufferSize nThreads tasks).Reachable c) :
    Fifo bufferSize c.shared := by
  refine points_invariant (P := fun s _ => Fifo bufferSize s) h ⟨rfl, Nat.zero_le _⟩ ?_
  intro s ps i q hs hq
  have hedge := edge_of_next hq
  generalize (code bufferSize nThreads s (ps i)).after s = s' at hedge
  generalize ps i = p at hedge
  cases hedge with
  | get woken hne => exact hs.getTask hne
  | submit task rest hne => exact hs.submitTask hne task
  | startThread task p hp => exact ⟨hs.stored, hs.taskCount_le⟩
  | _ => exact hs

/-! ## Tasks on their way -/

/-- The tasks `main` has still to store. -/
def unsent : Point → List Task
  | .submitLock tasks => tasks
  | .submitTest task rest => task :: rest
  | .submitUnlock rest | .submitSignal rest => rest
  | _ => []

def Point.isMain : Point → Bool
  | .submitLock _ | .submitTest _ _ | .submitUnlock _ | .submitSignal _ | .joining _ => true
  | _ => false

theorem Edge.isMain_eq {s s' : Shared} {p q : Point} (h : Edge bufferSize s p q s') :
    q.isMain = p.isMain := by
  cases h with
  | startThread task p hp => rcases hp with rfl | rfl <;> rfl
  | _ => rfl

/-- Tasks are stored in the order in which `main` submits them. -/
theorem stored_of_reachable (h : (program bufferSize nThreads tasks).Reachable c) :
    c.shared.stored ++ unsent (points c none) = tasks := by
  refine (points_invariant (P := fun s ps => s.stored ++ unsent (ps none) = tasks ∧
    ∀ i, (ps i).isMain = i.isNone) h ⟨rfl, fun i => by cases i <;> rfl⟩ ?_).1
  rintro s ps i q ⟨hstored, hmain⟩ hq
  have hedge := edge_of_next hq
  refine ⟨?_, fun j => ?_⟩
  · cases i with
    | none =>
        rw [Function.update_self]
        generalize (code bufferSize nThreads s (ps none)).after s = s' at hedge
        generalize hp : ps none = p at hedge hstored
        have hisMain := hmain none
        rw [hp] at hisMain
        cases hedge with
        | submit task rest hne => simpa [submitTask, unsent] using hstored
        | startThread task p hp => simp [Point.isMain] at hisMain
        | _ => exact hstored
    | some i =>
        rw [Function.update_of_ne (by simp)]
        generalize (code bufferSize nThreads s (ps (some i))).after s = s' at hedge
        have hisMain := hmain (some i)
        generalize ps (some i) = p at hedge hisMain
        cases hedge with
        | submit task rest hne => simp [Point.isMain] at hisMain
        | _ => exact hstored
  · by_cases hj : j = i
    · subst j
      rw [Function.update_self, hedge.isMain_eq, hmain]
    · rw [Function.update_of_ne hj, hmain]

/-- How often a worker between its removal and its return has the task in hand. -/
def inHand (task : Task) : Point → ℕ
  | .getUnlock t | .getSignal t | .startThread t => if t = task then 1 else 0
  | _ => 0

/-- A task that has been taken has been returned or is in the hands of a worker. -/
theorem taken_of_reachable (h : (program bufferSize nThreads tasks).Reachable c) (task : Task) :
    c.shared.taken.count task =
      c.shared.returned.count task + weight (inHand task) (points c) := by
  refine balance_invariant (A := fun s => s.taken.count task)
    (B := fun s => s.returned.count task) h ?_ ?_
  · rw [(weight_eq_zero_iff _ _).mpr fun i => by cases i <;> rfl]
    rfl
  · intro s p q hq
    have hedge := edge_of_next hq
    generalize (code bufferSize nThreads s p).after s = s' at hedge
    cases hedge with
    | get woken hne => simp [getTask, inHand, List.count_singleton, Nat.add_right_comm]
    | startThread task p hp =>
        rcases hp with rfl | rfl <;>
          simp [inHand, List.count_singleton, Nat.add_assoc]
    | _ => rfl

/-! ## Wakeups -/

/-- `main` has stored a task and has still to signal. -/
def ToSignal (t : Status Point Mutex Cond) : Prop :=
  ∃ rest, point t = .submitUnlock rest ∨ point t = .submitSignal rest

/-- A worker has been woken and has still to test the queue again. -/
def ToRecheck (t : Status Point Mutex Cond) : Prop :=
  (∀ cond, ¬ AsleepOn cond t) ∧ point t = .getTest true

/-- The points of `ToSignal` and `ToRecheck`. -/
def wakeupCredit : Point → ℕ
  | .submitUnlock _ | .submitSignal _ | .getTest true => 1
  | _ => 0

/-- A stored task is followed by a signal, and workers sleep on an empty queue only. -/
theorem pays_condEmpty (s : Shared) (p : Point) :
    Pays .condEmpty (fun s => s.taskCount) wakeupCredit s p (code bufferSize nThreads s p) := by
  cases p with
  | getTest woken =>
      simp only [code]
      split
      · exact ⟨‹_›, le_rfl⟩
      · cases woken <;> simp only [Pays, getTask, wakeupCredit] <;> omega
  | startThread task =>
      simp only [code, Pays]
      split <;> exact le_rfl
  | submitLock tasks => cases tasks <;> exact le_rfl
  | submitTest task rest =>
      simp only [code]
      split
      · exact rfl
      · exact le_rfl
  | joining i =>
      simp only [code]
      split
      · exact le_rfl
      · trivial
  | exited => trivial
  | getLock | getUnlock | getSignal | submitUnlock | submitSignal => exact le_rfl

theorem toSignal_or_toRecheck {t : Status Point Mutex Cond} (h : 0 < credit wakeupCredit t) :
    ToSignal t ∨ ToRecheck t := by
  have hpoint : 0 < wakeupCredit (point t) ∧ ∀ cond, ¬ AsleepOn cond t := by
    cases t with
    | running p => exact ⟨h, fun _ => id⟩
    | woken m p => exact ⟨h, fun _ => id⟩
    | asleep c m p => exact absurd h (Nat.lt_irrefl 0)
  obtain ⟨hpos, hawake⟩ := hpoint
  unfold wakeupCredit at hpos
  split at hpos
  · exact .inl ⟨_, .inl ‹_›⟩
  · exact .inl ⟨_, .inr ‹_›⟩
  · exact .inr ⟨hawake, ‹_›⟩
  · exact absurd hpos (Nat.lt_irrefl 0)

/-- While a worker sleeps beside a pending task, a signal or a woken worker is on its
way. -/
theorem wakeup_of_reachable (h : (program bufferSize nThreads tasks).Reachable c)
    (hpending : 0 < c.shared.taskCount) (hasleep : ∃ i, AsleepOn .condEmpty (c.threads i)) :
    (∃ i, ToSignal (c.threads i)) ∨ ∃ i, ToRecheck (c.threads i) := by
  obtain ⟨i, hi⟩ := hasleep
  have hneed := (covered_of_reachable pays_condEmpty h).need_le hi
  obtain ⟨j, hj⟩ := exists_of_weight_pos (lt_of_lt_of_le hpending hneed)
  rcases toSignal_or_toRecheck hj with hsignal | hrecheck
  · exact .inl ⟨j, hsignal⟩
  · exact .inr ⟨j, hrecheck⟩

/-! ## Results -/

/-- For any capacity, workers, tasks and interleaving: `main`'s tasks are stored in their
order and removed in the order in which they were stored, the queue holding those in
between; what has been removed and not yet returned is in the hands of a worker, so that no
task is returned twice or altered; and no worker sleeps beside a pending task while nobody
is about to wake or to look. -/
theorem pool_correct (bufferSize nThreads : ℕ) (tasks : List Task)
    (c : Config (Option (Fin nThreads)) Shared Point Mutex Cond)
    (h : (program bufferSize nThreads tasks).Reachable c) :
    (c.shared.stored <+: tasks ∧
      c.shared.stored = c.shared.taken ++ segment c.shared.taskQueue 0 c.shared.taskCount) ∧
    (∀ task, c.shared.returned.count task ≤ c.shared.taken.count task ∧
      c.shared.taken.count task = c.shared.returned.count task + weight (inHand task) (points c)) ∧
    (0 ≤ c.shared.taskCount ∧ c.shared.taskCount ≤ bufferSize) ∧
    ¬ (0 < c.shared.taskCount ∧ (∃ i, AsleepOn .condEmpty (c.threads i)) ∧
      (∀ i, ¬ ToSignal (c.threads i)) ∧ ∀ i, ¬ ToRecheck (c.threads i)) := by
  have hfifo := fifo_of_reachable h
  refine ⟨⟨⟨_, stored_of_reachable h⟩, hfifo.stored⟩, fun task => ?_,
    ⟨Nat.zero_le _, hfifo.taskCount_le⟩, ?_⟩
  · have hbalance := taken_of_reachable h task
    exact ⟨by omega, hbalance⟩
  · rintro ⟨hpending, hasleep, hsignal, hrecheck⟩
    rcases wakeup_of_reachable h hpending hasleep with ⟨i, hi⟩ | ⟨i, hi⟩
    · exact hsignal i hi
    · exact hrecheck i hi

/-- Two workers, two tasks: worker `j` returns before worker `i`. -/
def overtaking (i j : Fin 2) : Option (Config (Option (Fin 2)) Shared Point Mutex Cond) :=
  (program 256 2 [⟨1, 2⟩, ⟨3, 4⟩]).exec (program 256 2 [⟨1, 2⟩, ⟨3, 4⟩]).init
    ((List.replicate 8 (Action.run none none)) ++ (List.replicate 3 (Action.run (some i) none)) ++
      (List.replicate 5 (Action.run (some j) none)) ++
      (List.replicate 2 (Action.run (some i) none)))

theorem pool_correct_overtaking : ∃ c, overtaking 0 1 = some c ∧
    c.shared.stored = c.shared.taken ++ segment c.shared.taskQueue 0 c.shared.taskCount ∧
    c.shared.taken = [⟨1, 2⟩, ⟨3, 4⟩] := by
  have hrun : (overtaking 0 1).isSome = true := by decide
  exact ⟨(overtaking 0 1).get hrun, (Option.some_get hrun).symm,
    (pool_correct 256 2 _ _
      (System.Reachable.init.exec (Option.some_get hrun).symm)).1.2, rfl⟩

/-- Tasks are not returned in the order in which they were stored. -/
theorem returned_not_in_order : ∃ c, (program 256 2 [⟨1, 2⟩, ⟨3, 4⟩]).Reachable c ∧
    c.shared.stored = [⟨1, 2⟩, ⟨3, 4⟩] ∧ c.shared.returned = [⟨3, 4⟩, ⟨1, 2⟩] := by
  have hrun : (overtaking 0 1).isSome = true := by decide
  exact ⟨(overtaking 0 1).get hrun, System.Reachable.init.exec (Option.some_get hrun).symm,
    rfl, rfl⟩

end PthreadBenchmark.Pool
