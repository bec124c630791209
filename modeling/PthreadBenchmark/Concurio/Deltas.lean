import PthreadBenchmark.Concurio.Invariant
import PthreadBenchmark.Shared.PthreadConditions
import PthreadBenchmark.Shared.PthreadRuns

/-! # Where the workers store

Each worker has allocated twice as many elements as there are trials. Worker 0 goes on until all
others are gone, which may take any number of its trials. -/

namespace PthreadBenchmark.Concurio

open Pthread

variable {workers trials : ℕ} {s : Shared workers} {p q : Point workers}
  {ps : Fin workers → Point workers} {i : Fin workers}
  {c : Config (Fin workers) (Shared workers) (Point workers) Mutex Cond}

def InBounds (trials : ℕ) (s : Shared workers) : Prop := ∀ i, ∀ t ∈ s.deltas i, t < 2 * trials

/-- Worker 0 finds that all others are gone when the elements are used up. -/
def InTimeAt (trials : ℕ) (s : Shared workers) (p : Point workers) : Prop :=
  match p.pc with
  | .loop t => p.id.val = 0 → 2 * trials ≤ t → s.workersAlive = 1
  | _ => True

def InTime (trials : ℕ) (s : Shared workers) (ps : Fin workers → Point workers)
    (i : Fin workers) : Prop :=
  InTimeAt trials s (ps i)

instance (trials : ℕ) (s : Shared workers) (p : Point workers) :
    Decidable (InTimeAt trials s p) :=
  match p with
  | ⟨id, .loop t⟩ =>
    inferInstanceAs (Decidable (id.val = 0 → 2 * trials ≤ t → s.workersAlive = 1))
  | ⟨_, .registerLock⟩ | ⟨_, .register⟩ | ⟨_, .registerUnlock⟩ | ⟨_, .start⟩ | ⟨_, .waitLock _⟩
  | ⟨_, .waitTest _⟩ | ⟨_, .waitUnlock _⟩ | ⟨_, .write _⟩ | ⟨_, .record _⟩ | ⟨_, .publishLock _⟩
  | ⟨_, .publish _⟩ | ⟨_, .publishBroadcast _⟩ | ⟨_, .publishUnlock _⟩ | ⟨_, .finishLock⟩
  | ⟨_, .finish⟩ | ⟨_, .finishUnlock⟩ | ⟨_, .finished⟩ => isTrue trivial

instance (trials : ℕ) (s : Shared workers) (ps : Fin workers → Point workers) (i : Fin workers) :
    Decidable (InTime trials s ps i) :=
  inferInstanceAs (Decidable (InTimeAt trials s (ps i)))

/-! ## In time -/

/-- Worker 0, which waits for nobody, has stored in bounds and does so next. -/
def Near (trials : ℕ) (s : Shared workers) (p : Point workers) : Prop :=
  (∀ t ∈ s.deltas p.id, t < 2 * trials) ∧
    match p.pc with
    | .write t | .record t => t < 2 * trials
    | .waitLock _ | .waitTest _ | .waitUnlock _ => False
    | _ => True

theorem deltas_after {j : Fin workers} (hj : j ≠ p.id) :
    ((workerRun trials s p).after s).deltas j = s.deltas j := by
  obtain ⟨id, pc⟩ := p
  cases pc with
  | record t => exact Function.update_of_ne hj _ _
  | loop t =>
      simp only [workerRun]
      split <;> rfl
  | waitTest t =>
      simp only [workerRun]
      split <;> rfl
  | _ => rfl

/-- A step of worker 0. -/
theorem Near.next (hzero : p.id.val = 0) (h : Near trials s p) (hin : InTimeAt trials s p)
    (hq : (workerRun trials s p).next? = some q) :
    Near trials ((workerRun trials s p).after s) q := by
  obtain ⟨id, pc⟩ := p
  obtain ⟨hstored, hnext⟩ := h
  cases pc with
  | finished => cases hq
  | registerUnlock =>
      cases hq
      rw [if_pos hzero]
      exact ⟨hstored, trivial⟩
  | waitLock | waitTest | waitUnlock => exact hnext.elim
  | start =>
      cases hq
      by_cases hwait : s.workersAlive < workers
      · rw [if_pos hwait]
        exact ⟨hstored, trivial⟩
      · rw [if_neg hwait]
        exact ⟨hstored, trivial⟩
  | loop t =>
      simp only [workerRun, if_pos hzero] at hq ⊢
      cases hq
      refine ⟨hstored, ?_⟩
      by_cases hexit : trials ≤ t ∧ s.workersAlive = 1
      · rw [if_pos hexit]
        trivial
      · rw [if_neg hexit]
        by_contra hlate
        have hlate := Nat.le_of_not_lt hlate
        exact hexit ⟨by omega, hin hzero hlate⟩
  | write t =>
      cases hq
      exact ⟨hstored, hnext⟩
  | record t =>
      cases hq
      rw [if_pos hzero]
      refine ⟨fun t' ht' => ?_, trivial⟩
      simp only [workerRun, Op.after, Function.update_self, List.mem_append,
        List.mem_singleton] at ht'
      rcases ht' with ht' | rfl
      · exact hstored t' ht'
      · exact hnext
  | registerLock | register | publishLock | publish | publishBroadcast | publishUnlock
    | finishLock | finish | finishUnlock =>
      cases hq
      exact ⟨hstored, trivial⟩

/-- The points are those of their workers, and worker 0 stays in bounds. -/
def Kept (trials : ℕ) (s : Shared workers) (ps : Fin workers → Point workers) : Prop :=
  ∀ i, (ps i).id = i ∧ (i.val = 0 → Near trials s (ps i))

theorem Kept.move (h : Kept trials s ps) (hin : InTime trials s ps i)
    (hq : (workerRun trials s (ps i)).next? = some q) :
    Kept trials ((workerRun trials s (ps i)).after s) (Function.update ps i q) := by
  have hid : q.id = i := (id_of_next hq).trans (h i).1
  apply (Function.forall_update_iff ps fun j p =>
    p.id = j ∧ (j.val = 0 → Near trials ((workerRun trials s (ps i)).after s) p)).mpr
  refine ⟨⟨hid, fun hzero => ?_⟩, fun j hj => ⟨(h j).1, fun hzero => ?_⟩⟩
  · have hzero' : (ps i).id.val = 0 := by rwa [(h i).1]
    exact ((h i).2 hzero).next hzero' hin hq
  · obtain ⟨hstored, hnext⟩ := (h j).2 hzero
    have hother : (ps j).id ≠ (ps i).id := by rwa [(h j).1, (h i).1]
    exact ⟨by rwa [deltas_after hother], hnext⟩

theorem kept_of_inTime
    (h : (program workers trials).ReachableBy (Meets (InTime trials) fun _ _ _ => True) c) :
    Kept trials c.shared (points c) := by
  apply conditional_points_invariant h
  · exact fun i => ⟨rfl, fun _ => ⟨by simp [initial], trivial⟩⟩
  · intro s ps i q hkept hin hq
    exact hkept.move hin hq

/-- The other workers store once for each trial. -/
theorem Follows.deltas_eq (h : Follows trials s p) :
    ∃ k ≤ trials, s.deltas p.id = List.range k := by
  obtain ⟨id, pc⟩ := p
  cases pc with
  | start | publishLock | publish | publishBroadcast | publishUnlock => exact h.elim
  | registerLock | register | registerUnlock => exact ⟨0, Nat.zero_le _, h.deltas⟩
  | loop t => exact ⟨t, h.2, h.1.deltas⟩
  | waitLock t | waitTest t | waitUnlock t | write t | record t => exact ⟨t, h.2.le, h.1.deltas⟩
  | finishLock | finish | finishUnlock | finished => exact ⟨trials, le_rfl, h.deltas⟩

theorem inBounds_of_inTime
    (h : (program workers trials).ReachableBy (Meets (InTime trials) fun _ _ _ => True) c) :
    InBounds trials c.shared := by
  intro i t ht
  by_cases hzero : i.val = 0
  · have hkept := kept_of_inTime h i
    have hnear := (hkept.2 hzero).1
    rw [hkept.1] at hnear
    exact hnear t ht
  · have hconsistent := consistent_of_reachable h.reachable
    obtain ⟨k, hk, hdeltas⟩ := (hconsistent.follows hzero).deltas_eq
    rw [hconsistent.id i] at hdeltas
    rw [hdeltas, List.mem_range] at ht
    omega

/-! ## Too late -/

section Late

variable {o : Mutex → Option (Fin workers)}
  {threads : Fin workers → Status (Point workers) Mutex Cond}
  {G : Config (Fin workers) (Shared workers) (Point workers) Mutex Cond → Prop}

/-- The first `k` workers have registered. -/
def registered (workers k : ℕ) : Config (Fin workers) (Shared workers) (Point workers) Mutex Cond :=
  ⟨fun _ => none, { initial workers with workersAlive := k }, fun i =>
    .running ⟨i, if k ≤ i.val then .registerLock else if i.val = 0 then .start else .loop 0⟩⟩

theorem leads_register (hi : i.val < workers)
    (h : (program workers trials).Leads G (registered workers (i.val + 1))) :
    (program workers trials).Leads G (registered workers i.val) := by
  have hat : (registered workers i.val).threads i = .running ⟨i, .registerLock⟩ := by
    simp [registered]
  have hnext : registered workers (i.val + 1) =
      turn (fun _ => none) { initial workers with workersAlive := (i.val : ℤ) + 1 }
        (registered workers i.val).threads i ⟨i, if i.val = 0 then .start else .loop 0⟩ := by
    simp only [registered, turn, Config.mk.injEq, true_and]
    refine ⟨by simp, ?_⟩
    funext j
    by_cases hj : j = i
    · subst hj
      simp
    · have hval : j.val ≠ i.val := fun hval => hj (Fin.ext hval)
      have hle : i.val + 1 ≤ j.val ↔ i.val ≤ j.val := by omega
      simp only [Function.update_of_ne hj, hle]
  rw [hnext] at h
  rw [← turn_self hat]
  refine leads_lock (m := .workerSyncLock) rfl rfl (leads_run rfl ?_)
  refine leads_unlock (m := .workerSyncLock) rfl (Function.update_self ..) ?_
  rw [free_again rfl]
  exact h

/-- The induction is on the workers that have not registered. -/
theorem leads_registered (d : ℕ) {k : ℕ} (hd : k + d = workers)
    (h : (program workers trials).Leads G (registered workers workers)) :
    (program workers trials).Leads G (registered workers k) := by
  induction d generalizing k with
  | zero =>
      obtain rfl : k = workers := hd
      exact h
  | succ d ih =>
      have hk : k < workers := by omega
      exact leads_register (i := ⟨k, hk⟩) hk (ih (by simp only; omega))

/-- Worker 0 goes round its loop while another worker is alive. -/
theorem leads_trial (hzero : i.val = 0) (halive : s.workersAlive ≠ 1)
    (hfree : o .workerSyncLock = none)
    (hawake : ∀ j, wake .workerSyncCond (threads j) = threads j) (t : ℕ)
    (h : ∀ s' : Shared workers, s'.workersAlive = s.workersAlive →
      (program workers trials).Leads G (turn o s' threads i ⟨i, .loop (t + 1)⟩)) :
    (program workers trials).Leads G (turn o s threads i ⟨i, .loop t⟩) := by
  have hloop : workerRun trials s ⟨i, .loop t⟩ = .run s ⟨i, .write t⟩ := by
    simp [workerRun, hzero, halive]
  refine leads_run hloop (leads_run rfl (leads_run rfl ?_))
  simp only [if_pos hzero]
  refine leads_lock (m := .workerSyncLock) rfl hfree (leads_run rfl ?_)
  refine leads_broadcast rfl hawake (leads_unlock (m := .workerSyncLock) rfl ?_ ?_)
  · exact Function.update_self ..
  · rw [free_again hfree]
    exact h _ rfl

/-- The induction is on the trials up to the first that is out of bounds. -/
theorem leads_stored (n : ℕ) {t : ℕ} (ht : t + n = 2 * trials) (hzero : i.val = 0)
    (halive : s.workersAlive ≠ 1) (hfree : o .workerSyncLock = none)
    (hawake : ∀ j, wake .workerSyncCond (threads j) = threads j) :
    (program workers trials).Leads (fun c => 2 * trials ∈ c.shared.deltas i)
      (turn o s threads i ⟨i, .loop t⟩) := by
  induction n generalizing t s with
  | zero =>
      obtain rfl : t = 2 * trials := ht
      have hloop : workerRun trials s ⟨i, .loop (2 * trials)⟩ =
          .run s ⟨i, .write (2 * trials)⟩ := by
        simp [workerRun, hzero, halive]
      refine leads_run hloop (leads_run rfl (leads_run rfl (.here ?_)))
      simp [turn]
  | succ n ih =>
      refine leads_trial hzero halive hfree hawake t fun s' hs' => ?_
      exact ih (by omega) (by rwa [hs'])

end Late

/-- With other workers, worker 0 may come to any trial before one of them moves. -/
theorem exists_late (htwo : 2 ≤ workers) :
    ∃ c, (program workers trials).Reachable c ∧ ¬ InBounds trials c.shared := by
  have hpos : 0 < workers := by omega
  have hinit : (program workers trials).init = registered workers 0 := by
    simp [program, Pthread.program, registered, initial]
  have hstart : (registered workers workers).threads ⟨0, hpos⟩ =
      .running ⟨⟨0, hpos⟩, .start⟩ := by
    simp [registered, hpos.ne']
  have hleads : (program workers trials).Leads (fun c => 2 * trials ∈ c.shared.deltas ⟨0, hpos⟩)
      (registered workers workers) := by
    rw [← turn_self hstart]
    have hgo : workerRun trials (registered workers workers).shared ⟨⟨0, hpos⟩, .start⟩ =
        .run (registered workers workers).shared ⟨⟨0, hpos⟩, .loop 0⟩ := by
      simp [workerRun, registered]
    have halive : (registered workers workers).shared.workersAlive ≠ 1 := by
      simp only [registered]
      omega
    exact leads_run hgo (leads_stored (2 * trials) (Nat.zero_add _) rfl halive rfl fun _ => rfl)
  obtain ⟨c, hc, hmem⟩ := (leads_registered workers (Nat.zero_add _) hleads).reachable
    (hinit ▸ .init)
  exact ⟨c, hc, fun hin => lt_irrefl _ (hin _ _ hmem)⟩

/-! ## Result -/

/-- A worker without others finds itself alone. -/
theorem inTime_of_single (hworkers : workers ≤ 1) (h : (program workers trials).Reachable c)
    (i : Fin workers) : InTime trials c.shared (points c) i := by
  have hconsistent := consistent_of_reachable h
  have hcount := hconsistent.count
  rw [weight_eq_of_forall_ne i fun j hj => absurd (Fin.ext (by omega)) hj] at hcount
  unfold InTime InTimeAt
  split
  · next t hpc =>
      intro _ _
      rw [hcount, alive, hpc]
      rfl
  · trivial

/-- For any number of workers and trials and any interleaving: all workers stay in bounds in the
runs in which worker 0 finds itself alone when it has used up its elements. There are runs that
leave the bounds if and only if there is a second worker. -/
theorem inBounds_iff (workers trials : ℕ) :
    ((∀ c, (program workers trials).Reachable c → InBounds trials c.shared) ↔ workers ≤ 1) ∧
      ∀ c, (program workers trials).ReachableBy (Meets (InTime trials) fun _ _ _ => True) c →
        InBounds trials c.shared := by
  refine ⟨⟨fun hall => ?_, fun hworkers c hc => ?_⟩, fun c hc => inBounds_of_inTime hc⟩
  · by_contra hmany
    have htwo : 2 ≤ workers := by omega
    have hexists : ∃ c, (program workers trials).Reachable c ∧ ¬ InBounds trials c.shared :=
      exists_late htwo
    obtain ⟨c, hc, hlate⟩ := hexists
    exact hlate (hall c hc)
  · apply inBounds_of_inTime
    apply reachableBy_of_good _ hc
    exact fun c i p hc _ => inTime_of_single hworkers hc.reachable i

/-- Two workers are through with one trial, worker 1 first. -/
def trialDone (i j : Fin 2) : Option (Config (Fin 2) (Shared 2) (Point 2) Mutex Cond) :=
  ((program 2 1).guarded (Meets (InTime 1) fun _ _ _ => True)).exec (program 2 1).init
    (List.replicate 3 (Action.run i none) ++ List.replicate 3 (Action.run j none) ++
      List.replicate 8 (Action.run i none) ++ List.replicate 10 (Action.run j none) ++
      List.replicate 4 (Action.run i none))

theorem inBounds_iff_done : ∃ c, trialDone 0 1 = some c ∧ InBounds 1 c.shared ∧
    c.shared.deltas 0 = [0] := by
  have hrun : (trialDone 0 1).any (fun c => decide (c.shared.deltas 0 = [0])) = true := by decide
  obtain ⟨c, hexec, hdeltas⟩ := (Option.any_eq_true _ _).mp hrun
  exact ⟨c, hexec, (inBounds_iff 2 1).2 c (.of_exec hexec), of_decide_eq_true hdeltas⟩

/-- Worker 0 is in its third trial before worker 1 begins its first. -/
def thirdTrial (i j : Fin 2) : Option (Config (Fin 2) (Shared 2) (Point 2) Mutex Cond) :=
  (program 2 1).exec (program 2 1).init
    (List.replicate 3 (Action.run i none) ++ List.replicate 3 (Action.run j none) ++
      List.replicate 18 (Action.run i none))

/-- It stores behind its two elements. -/
theorem stores_behind : ¬ ∀ c, (program 2 1).Reachable c → InBounds 1 c.shared := by
  intro hall
  have hrun : (thirdTrial 0 1).any (fun c => decide (2 ∈ c.shared.deltas 0)) = true := by decide
  obtain ⟨c, hexec, hmem⟩ := (Option.any_eq_true _ _).mp hrun
  have hlt := hall c (System.Reachable.init.exec hexec) 0 2 (of_decide_eq_true hmem)
  exact lt_irrefl _ hlt

end PthreadBenchmark.Concurio
