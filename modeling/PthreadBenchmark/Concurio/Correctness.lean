import PthreadBenchmark.Concurio.Invariant
import PthreadBenchmark.Shared.PthreadProgress
import PthreadBenchmark.Shared.PthreadReasons

/-! # The workers keep in step and come to an end -/

namespace PthreadBenchmark.Concurio

open Pthread

variable {workers trials : ℕ} {s : Shared workers} {p q : Point workers} {i : Fin workers}
  {c : Config (Fin workers) (Shared workers) (Point workers) Mutex Cond}

/-! ## The mutex and the sleepers -/

def inside (p : Point workers) (_ : Mutex) : Prop :=
  match p.pc with
  | .register | .registerUnlock | .waitTest _ | .waitUnlock _ | .publish _ | .publishBroadcast _
  | .publishUnlock _ | .finish | .finishUnlock => True
  | _ => False

theorem flat : Flat inside (@workerRun workers trials) where
  tracks s p := by
    obtain ⟨id, pc⟩ := p
    cases pc with
    | registerUnlock =>
        intro m
        by_cases hzero : id.val = 0 <;> simp [inside, hzero]
    | start =>
        intro m
        by_cases hwait : s.workersAlive < workers <;> simp [inside, hwait]
    | loop t =>
        by_cases hzero : id.val = 0
        · simp only [workerRun, if_pos hzero]
          intro m
          by_cases hexit : trials ≤ t ∧ s.workersAlive = 1 <;> simp [inside, hexit]
        · simp only [workerRun, if_neg hzero]
          intro m
          by_cases hexit : trials ≤ t <;> simp [inside, hexit]
    | record t =>
        intro m
        by_cases hzero : id.val = 0 <;> simp [inside, hzero]
    | waitTest t =>
        simp only [workerRun]
        split
        · exact ⟨trivial, fun _ => Iff.rfl⟩
        · exact fun _ => Iff.rfl
    | registerLock | waitLock | waitUnlock | publishLock | publishUnlock | finishLock
      | finishUnlock =>
        intro m
        simp [inside]
    | register | write | publish | publishBroadcast | finish => exact fun _ => Iff.rfl
    | finished => trivial
  proper s p := by
    obtain ⟨id, pc⟩ := p
    cases pc with
    | loop | waitTest =>
        simp only [workerRun]
        split <;> trivial
    | _ => trivial
  unique := by
    intro p m m' _ _
    cases m
    cases m'
    rfl
  flows := by
    intro s p m hin
    obtain ⟨id, pc⟩ := p
    cases pc with
    | waitTest =>
        simp only [workerRun]
        split <;> trivial
    | registerLock | start | loop | waitLock | write | record | publishLock | finishLock
      | finished => exact hin.elim
    | _ => trivial

/-- A follower sleeps until its trial has been published. -/
def unpublished (s : Shared workers) (p : Point workers) : Prop :=
  ∃ t : ℕ, p.pc = .waitTest t ∧ s.workerSyncT < t

def owes (p : Point workers) : Prop :=
  ∃ t, p.pc = .publishBroadcast t

theorem minds (s : Shared workers) (p : Point workers) :
    Minds .workerSyncCond unpublished owes s p (workerRun trials s p) := by
  obtain ⟨id, pc⟩ := p
  have hother : (∀ t, pc ≠ .publishBroadcast t) → ∀ q : Point workers, owes ⟨id, pc⟩ → owes q := by
    intro hne q howes
    obtain ⟨t, ht⟩ := howes
    exact absurd ht (hne t)
  cases pc with
  | publish t => exact ⟨fun _ _ => .inr ⟨t, rfl⟩, hother (by simp) _⟩
  | publishBroadcast t => exact .inl rfl
  | waitTest t =>
      simp only [workerRun]
      split
      · next hwait => exact ⟨fun _ => ⟨t, rfl, hwait⟩, by simp [owes]⟩
      · exact ⟨fun _ => .inl, hother (by simp) _⟩
  | loop t =>
      simp only [workerRun]
      split <;> exact ⟨fun _ => .inl, hother (by simp) _⟩
  | register | start | write | record | finish => exact ⟨fun _ => .inl, hother (by simp) _⟩
  | registerLock | registerUnlock | waitLock | waitUnlock | publishLock | publishUnlock
    | finishLock | finishUnlock => exact hother (by simp) _
  | finished => trivial

/-- Threads wait in the loop of a follower only. -/
theorem waits (s : Shared workers) (p : Point workers) (cond : Cond) (m : Mutex) (q : Point workers)
    (h : workerRun trials s p = .wait cond m q) : ∃ t, q.pc = .waitTest t := by
  obtain ⟨id, pc⟩ := p
  cases pc with
  | waitTest t =>
      simp only [workerRun] at h
      split at h
      · cases h
        exact ⟨t, rfl⟩
      · cases h
  | loop t =>
      simp only [workerRun] at h
      split at h <;> cases h
  | _ => cases h

/-! ## What is left to do -/

/-- The cost of a trial, with the wakeups of its broadcast. -/
def trialCost (workers : ℕ) : ℕ := 2 * workers + 20

/-- A bound for the steps that a worker has left while it does not spin. -/
def pointRank (trials : ℕ) (p : Point workers) : ℕ :=
  match p.pc with
  | .registerLock => trials * trialCost workers + 9
  | .register => trials * trialCost workers + 8
  | .registerUnlock => trials * trialCost workers + 7
  | .start => trials * trialCost workers + 6
  | .loop t => (trials - t) * trialCost workers + 5
  | .waitLock t => (trials - (t + 1)) * trialCost workers + 2 * workers + 20
  | .waitTest t => (trials - (t + 1)) * trialCost workers + 2 * workers + 19
  | .waitUnlock t => (trials - (t + 1)) * trialCost workers + 2 * workers + 17
  | .write t => (trials - (t + 1)) * trialCost workers + 2 * workers + 16
  | .record t => (trials - (t + 1)) * trialCost workers + 2 * workers + 15
  | .publishLock t => (trials - (t + 1)) * trialCost workers + 2 * workers + 14
  | .publish t => (trials - (t + 1)) * trialCost workers + 2 * workers + 13
  | .publishBroadcast t => (trials - (t + 1)) * trialCost workers + 2 * workers + 12
  | .publishUnlock t => (trials - (t + 1)) * trialCost workers + 9
  | .finishLock => 3
  | .finish => 2
  | .finishUnlock => 1
  | .finished => 0

def rank (trials : ℕ) : Status (Point workers) Mutex Cond → ℕ
  | .running p => pointRank trials p
  | .asleep _ _ p => pointRank trials p - 1
  | .woken _ p => pointRank trials p + 1

theorem rank_wake (cond : Cond) (t : Status (Point workers) Mutex Cond) :
    rank trials (wake cond t) ≤ rank trials t + 2 := by
  cases t with
  | running p => exact Nat.le_add_right ..
  | woken m p => exact Nat.le_add_right ..
  | asleep c m p =>
      simp only [wake]
      split <;> simp only [rank] <;> omega

/-- A trial that is left costs. -/
theorem sub_mul_trialCost (workers : ℕ) {t : ℕ} (h : t < trials) :
    (trials - t) * trialCost workers =
      (trials - (t + 1)) * trialCost workers + (2 * workers + 20) := by
  have hsub : trials - t = trials - (t + 1) + 1 := by omega
  rw [hsub, Nat.succ_mul]
  rfl

/-- The worker is done, or does not go on before the others do. -/
def Spins (trials : ℕ) (s : Shared workers) (p : Point workers) : Prop :=
  match p.pc with
  | .start => s.workersAlive < workers
  | .loop t => p.id.val = 0 ∧ trials ≤ t ∧ s.workersAlive ≠ 1
  | .finished => True
  | _ => False

/-- Any other worker comes nearer to its end. -/
theorem descends (howned : Owned inside c) (hi : c.threads i = .running p)
    (hspins : ¬ Spins trials c.shared p)
    (hready : inside p .workerSyncLock ∨ c.owner .workerSyncLock = none) :
    Descends (rank trials) 2 c i p (workerRun trials c.shared p) := by
  have hown : inside p .workerSyncLock → c.owner .workerSyncLock = some i :=
    fun hin => howned.owner_of_inside hi hin
  obtain ⟨id, pc⟩ := p
  cases pc with
  | finished => exact absurd trivial hspins
  | registerLock | waitLock | publishLock | finishLock =>
      have hfree := hready.resolve_left fun hin => hin
      exact ⟨hfree, Nat.lt_succ_self _⟩
  | register | write | publish | finish => exact Nat.lt_succ_self _
  | waitUnlock | finishUnlock => exact ⟨hown trivial, Nat.lt_succ_self _⟩
  | publishUnlock t => exact ⟨hown trivial, by simp [rank, pointRank]⟩
  | registerUnlock =>
      refine ⟨hown trivial, ?_⟩
      split <;> simp [rank, pointRank]
  | start =>
      have hgo : ¬ c.shared.workersAlive < workers := hspins
      simp [workerRun, Descends, hgo, rank, pointRank]
  | loop t =>
      have hgo : ¬ (id.val = 0 ∧ trials ≤ t ∧ c.shared.workersAlive ≠ 1) := hspins
      by_cases hzero : id.val = 0
      · simp only [workerRun, if_pos hzero, Descends]
        by_cases hexit : trials ≤ t ∧ c.shared.workersAlive = 1
        · simp only [if_pos hexit, rank, pointRank]
          omega
        · have hlt : t < trials := by omega
          have hcost := sub_mul_trialCost workers hlt
          simp only [if_neg hexit, rank, pointRank]
          omega
      · simp only [workerRun, if_neg hzero, Descends]
        by_cases hexit : trials ≤ t
        · simp only [if_pos hexit, rank, pointRank]
          omega
        · have hcost := sub_mul_trialCost workers (Nat.lt_of_not_le hexit)
          simp only [if_neg hexit, rank, pointRank]
          omega
  | waitTest t =>
      simp only [workerRun]
      split
      · exact ⟨hown trivial, Nat.lt_succ_self _⟩
      · simp only [Descends, rank, pointRank]
        omega
  | record t =>
      simp only [workerRun, Descends]
      split <;> simp only [rank, pointRank] <;> omega
  | publishBroadcast t =>
      simp only [workerRun, Descends, rank, pointRank, Fintype.card_fin]
      omega

/-! ## Some worker can go on -/

def Finished (c : Config (Fin workers) (Shared workers) (Point workers) Mutex Cond)
    (i : Fin workers) : Prop :=
  ∃ p, c.threads i = .running p ∧ p.pc = .finished

/-- What is known of the worker `i` where no worker can go on without spinning. -/
inductive Idle (trials : ℕ) (s : Shared workers) (p : Point workers) : Prop where
  | spins (h : Spins trials s p)
  | asleep {t : ℕ} (pc : p.pc = .waitTest t) (wait : s.workerSyncT < t)

/-- Where the mutex is free, some worker can go on, or each one spins or sleeps for a reason. -/
theorem idle_of_no_descent (h : (program workers trials).Reachable c)
    (hfree : c.owner .workerSyncLock = none)
    (hno : ¬ ∃ i target c', step (workerRun trials) c (.run i target) = some c' ∧
      weight (rank trials) c'.threads < weight (rank trials) c.threads) (i : Fin workers) :
    Idle trials c.shared (points c i) := by
  have howned := owned_of_reachable flat.tracks (fun _ _ => id) h
  have hspins : ∀ i p, c.threads i = .running p → Spins trials c.shared p := by
    intro i p hi
    by_contra hspins
    obtain ⟨target, c', hstep⟩ :=
      exists_step_of_descends rank_wake hi (descends howned hi hspins (.inr hfree))
    exact hno ⟨i, target, c', hstep⟩
  have hwaits := waits_of_reachable (W := fun _ _ q => ∃ t, q.pc = .waitTest t) waits h
  cases hi : c.threads i with
  | running p =>
      have hspin := hspins i p hi
      exact .spins (by simpa only [points_of_running hi] using hspin)
  | woken m p =>
      cases m
      have hrank : rank trials (.running p) < rank trials (.woken .workerSyncLock p) :=
        Nat.lt_succ_self _
      obtain ⟨target, c', hstep⟩ := exists_step_of_woken hi hfree hrank
      exact absurd ⟨i, target, c', hstep⟩ hno
  | asleep cond m p =>
      cases cond
      rw [points_of_asleep hi]
      rcases minded_of_reachable minds h i m p hi with ⟨t, hpc, hwait⟩ | ⟨j, t, hpc⟩
      · exact .asleep hpc hwait
      · -- a worker that owes a broadcast neither spins nor sleeps
        exfalso
        have hj : (points c j).pc = .publishBroadcast t := hpc
        rcases (hwaits j).running_or with hrunning | ⟨t', hq⟩
        · have hspin := hspins j _ hrunning
          simp only [Spins, hj] at hspin
        · rw [hq] at hj
          cases hj

theorem Idle.leader (hzero : p.id.val = 0) (h : Leads trials s p) (hidle : Idle trials s p) :
    (alive p = 1 ∧ s.workerSyncT + 1 = 0 ∧ s.workersAlive < workers) ∨
      (alive p = 1 ∧ trials ≤ s.workerSyncT + 1 ∧ s.workersAlive ≠ 1) ∨
      (p.pc = .finished ∧ trials ≤ s.workerSyncT + 1) := by
  obtain ⟨id, pc⟩ := p
  cases hidle with
  | asleep hpc hwait =>
      simp only at hpc
      simp only [hpc, Leads] at h
  | spins hspins =>
      cases pc with
      | start => exact .inl ⟨rfl, h.1, hspins⟩
      | loop t =>
          obtain ⟨hsync, -⟩ : s.workerSyncT + 1 = t ∧ s.written id = t := h
          obtain ⟨-, hexit, halive⟩ : id.val = 0 ∧ trials ≤ t ∧ s.workersAlive ≠ 1 := hspins
          exact .inr (.inl ⟨rfl, by omega, halive⟩)
      | finished => exact .inr (.inr ⟨rfl, h.1⟩)
      | _ => exact False.elim hspins

theorem Idle.follower (hzero : p.id.val ≠ 0) (h : Follows trials s p)
    (hidle : Idle trials s p) :
    (p.pc = .finished ∧ trials ≤ s.workerSyncT + 1) ∨
      (alive p = 1 ∧ s.workerSyncT + 1 < trials) := by
  obtain ⟨id, pc⟩ := p
  cases hidle with
  | @asleep t hpc hwait =>
      obtain rfl : pc = .waitTest t := hpc
      have hlt : t < trials := h.2
      exact .inr ⟨rfl, by omega⟩
  | spins hspins =>
      cases pc with
      | start => exact h.elim
      | loop t => exact absurd hspins.1 hzero
      | finished => exact .inl ⟨rfl, h.published⟩
      | _ => exact False.elim hspins

/-- If all workers spin or sleep, they have finished. -/
theorem finished_of_idle {ps : Fin workers → Point workers} (hworkers : 1 ≤ workers)
    (htrials : 1 ≤ trials) (hconsistent : Consistent trials s ps)
    (hidle : ∀ i, Idle trials s (ps i)) (i : Fin workers) : (ps i).pc = .finished := by
  have hid : ∀ i, (ps i).id.val = i.val := fun i => congrArg Fin.val (hconsistent.id i)
  have hcount := hconsistent.count
  have hlead := hconsistent.leads hworkers
  have hfollow : ∀ j : Fin workers, j.val ≠ 0 →
      ((ps j).pc = .finished ∧ trials ≤ s.workerSyncT + 1) ∨
        (alive (ps j) = 1 ∧ s.workerSyncT + 1 < trials) := by
    intro j hj
    have hzero : (ps j).id.val ≠ 0 := by rwa [hid j]
    exact Idle.follower hzero (hconsistent.follows hj) (hidle j)
  -- behind the last trial all followers have finished
  have hall : trials ≤ s.workerSyncT + 1 → ∀ j : Fin workers, j.val ≠ 0 →
      (ps j).pc = .finished := by
    intro hlast j hj
    rcases hfollow j hj with ⟨hfinished, -⟩ | ⟨-, hlt⟩
    · exact hfinished
    · omega
  rcases Idle.leader (hid _) hlead (hidle _) with ⟨halive, hsync, hwait⟩ | ⟨halive, hlast, hwait⟩ |
    ⟨hfinished, hlast⟩
  · exfalso
    have hone : ∀ j, alive (ps j) = 1 := by
      intro j
      by_cases hj : j.val = 0
      · obtain rfl : j = ⟨0, hworkers⟩ := Fin.ext hj
        exact halive
      · rcases hfollow j hj with ⟨-, hlast⟩ | ⟨hone, -⟩
        · omega
        · exact hone
    have hweight : weight alive ps = workers := by simp [weight, hone]
    omega
  · exfalso
    have hweight : weight alive ps = alive (ps ⟨0, hworkers⟩) := by
      apply weight_eq_of_forall_ne
      intro j hj
      have hfinished := hall hlast j fun hzero => hj (Fin.ext hzero)
      simp only [alive, hfinished]
    omega
  · by_cases hi : i.val = 0
    · obtain rfl : i = ⟨0, hworkers⟩ := Fin.ext hi
      exact hfinished
    · exact hall hlast i hi

/-- From every reachable state in which a worker has not finished, a worker that is not woken
spuriously brings the end nearer. -/
theorem exists_descent (hworkers : 1 ≤ workers) (htrials : 1 ≤ trials)
    (h : (program workers trials).Reachable c) (hsome : ∃ i, ¬ Finished c i) :
    ∃ i target c', step (workerRun trials) c (.run i target) = some c' ∧
      weight (rank trials) c'.threads < weight (rank trials) c.threads := by
  by_contra hno
  have howned := owned_of_reachable flat.tracks (fun _ _ => id) h
  cases hown : c.owner .workerSyncLock with
  | some i =>
      have hflat : Flat inside (@workerRun workers trials) := flat
      obtain ⟨p, hi, hin⟩ := hflat.running_of_owner howned hown
      have hspins : ¬ Spins trials c.shared p := by
        obtain ⟨id, pc⟩ := p
        cases pc <;> first | exact hin.elim | exact fun hspins => hspins
      obtain ⟨target, c', hstep⟩ :=
        exists_step_of_descends rank_wake hi (descends howned hi hspins (.inl hin))
      exact hno ⟨i, target, c', hstep⟩
  | none =>
      obtain ⟨i, hi⟩ := hsome
      have hfinished := finished_of_idle hworkers htrials (consistent_of_reachable h)
        (idle_of_no_descent h hown hno) i
      have hwaits := waits_of_reachable (W := fun _ _ q => ∃ t, q.pc = .waitTest t) waits h i
      rcases hwaits.running_or with hrunning | ⟨t, hp⟩
      · exact hi ⟨_, hrunning, hfinished⟩
      · rw [hp] at hfinished
        cases hfinished

/-! ## Result -/

/-- For any number of workers and trials and any interleaving: `workersAlive` counts the
workers that have registered and not finished; a worker other than 0 writes for a trial only
when worker 0 has written and published its own; a worker other than 0 that has finished
has recorded each trial once; and a run without spurious wakeups leads from every reachable
state to the end of all workers, so that none is stuck. -/
theorem worker_run_correct (hworkers : 1 ≤ workers) (htrials : 1 ≤ trials)
    (c : Config (Fin workers) (Shared workers) (Point workers) Mutex Cond)
    (h : (program workers trials).Reachable c) :
    (c.owner .workerSyncLock = none → c.shared.workersAlive = weight alive (points c)) ∧
      (∀ i t, i.val ≠ 0 → points c i = ⟨i, .write t⟩ →
        t ≤ c.shared.workerSyncT ∧ t < c.shared.written ⟨0, hworkers⟩) ∧
      (∀ i : Fin workers, i.val ≠ 0 → Finished c i → c.shared.deltas i = List.range trials) ∧
      ((∃ i, ¬ Finished c i) → ¬ Stuck (workerRun trials) c) ∧
      ∃ ls c', (∀ l ∈ ls, ∃ i target, l = .run i target) ∧
        (program workers trials).exec c ls = some c' ∧ ∀ i, Finished c' i := by
  have hconsistent := consistent_of_reachable h
  refine ⟨fun _ => hconsistent.count, ?_, ?_, ?_, ?_⟩
  · intro i t hi hwrite
    have hfollow := hconsistent.follows hi
    rw [hwrite] at hfollow
    have hpublished := hfollow.1.published
    have hwritten := (hconsistent.leads hworkers).published_le
    rw [hconsistent.id] at hwritten
    omega
  · intro i hi hfinished
    obtain ⟨p, hp, hpc⟩ := hfinished
    have hfollow := hconsistent.follows hi
    have hid := hconsistent.id i
    obtain ⟨id, pc⟩ := p
    simp only at hpc
    rw [points_of_running hp] at hfollow hid
    subst hpc hid
    exact hfollow.deltas
  · intro hsome hstuck
    obtain ⟨i, target, c', hstep, -⟩ := exists_descent hworkers htrials h hsome
    rw [hstuck i target] at hstep
    cases hstep
  · apply h.exists_exec_final (fun c => weight (rank trials) c.threads)
    intro c hc hnot
    obtain ⟨i, target, c', hstep, hlt⟩ :=
      exists_descent hworkers htrials hc (not_forall.mp hnot)
    exact ⟨.run i target, c', ⟨i, target, rfl⟩, hstep, hlt⟩

/-- Two workers and one trial, up to the end of worker 1. -/
def oneTrial (i j : Fin 2) :
    Option (Config (Fin 2) (Shared 2) (Point 2) Mutex Cond) :=
  (program 2 1).exec (program 2 1).init
    (List.replicate 3 (Action.run i none) ++ List.replicate 3 (Action.run j none) ++
      List.replicate 8 (Action.run i none) ++ List.replicate 10 (Action.run j none))

theorem worker_run_correct_two : ∃ c, oneTrial 0 1 = some c ∧ c.shared.deltas 1 = [0] := by
  have hrun : (oneTrial 0 1).isSome = true := by decide
  have hfinished : Finished ((oneTrial 0 1).get hrun) 1 := ⟨⟨1, .finished⟩, rfl, rfl⟩
  refine ⟨(oneTrial 0 1).get hrun, (Option.some_get hrun).symm, ?_⟩
  exact (worker_run_correct (by decide) (by decide) _
    (System.Reachable.init.exec (Option.some_get hrun).symm)).2.2.1 1 (by decide) hfinished

end PthreadBenchmark.Concurio
