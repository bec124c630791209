import PthreadBenchmark.Concurio.Model
import PthreadBenchmark.Shared.PthreadRules

/-! # Where the workers are -/

namespace PthreadBenchmark.Concurio

open Pthread

variable {workers trials : ℕ} {s s' : Shared workers} {p q : Point workers}
  {ps : Fin workers → Point workers} {i : Fin workers}

/-- Workers that have registered and not yet finished. -/
def alive (p : Point workers) : ℕ :=
  match p.pc with
  | .registerLock | .register | .finishUnlock | .finished => 0
  | _ => 1

/-- Worker 0 publishes the trials one by one, each after its own write. -/
def Leads (trials : ℕ) (s : Shared workers) (p : Point workers) : Prop :=
  match p.pc with
  | .registerLock | .register | .registerUnlock | .start =>
      s.workerSyncT + 1 = 0 ∧ s.written p.id = 0
  | .loop t | .write t => s.workerSyncT + 1 = t ∧ s.written p.id = t
  | .record t | .publishLock t | .publish t => s.workerSyncT + 1 = t ∧ s.written p.id = t + 1
  | .publishBroadcast t | .publishUnlock t => s.workerSyncT = t ∧ s.written p.id = t + 1
  | .finishLock | .finish | .finishUnlock | .finished =>
      trials ≤ s.workerSyncT + 1 ∧ s.written p.id = s.workerSyncT + 1
  | .waitLock _ | .waitTest _ | .waitUnlock _ => False

/-- A follower has written and recorded `k` trials, and the trials before `published` have
been published. -/
structure Follower (s : Shared workers) (id : Fin workers) (written recorded published : ℕ) :
    Prop where
  written : s.written id = written
  deltas : s.deltas id = List.range recorded
  published : published ≤ s.workerSyncT + 1

/-- The other workers are at most one trial ahead of what is published. -/
def Follows (trials : ℕ) (s : Shared workers) (p : Point workers) : Prop :=
  match p.pc with
  | .registerLock | .register | .registerUnlock => Follower s p.id 0 0 0
  | .loop t => Follower s p.id t t t ∧ t ≤ trials
  | .waitLock t | .waitTest t => Follower s p.id t t t ∧ t < trials
  | .waitUnlock t | .write t => Follower s p.id t t (t + 1) ∧ t < trials
  | .record t => Follower s p.id (t + 1) t (t + 1) ∧ t < trials
  | .finishLock | .finish | .finishUnlock | .finished => Follower s p.id trials trials trials
  | .start | .publishLock _ | .publish _ | .publishBroadcast _ | .publishUnlock _ => False

/-- What a point says about its worker. -/
def Synced (trials : ℕ) (s : Shared workers) (p : Point workers) : Prop :=
  if p.id.val = 0 then Leads trials s p else Follows trials s p

structure Consistent (trials : ℕ) (s : Shared workers) (ps : Fin workers → Point workers) :
    Prop where
  id : ∀ i, (ps i).id = i
  count : s.workersAlive = weight alive ps
  synced : ∀ i, Synced trials s (ps i)

theorem Consistent.leads (h : Consistent trials s ps) (hworkers : 0 < workers) :
    Leads trials s (ps ⟨0, hworkers⟩) := by
  have hsynced := h.synced ⟨0, hworkers⟩
  rwa [Synced, h.id, if_pos rfl] at hsynced

theorem Consistent.follows (h : Consistent trials s ps) (hi : i.val ≠ 0) :
    Follows trials s (ps i) := by
  have hsynced := h.synced i
  rwa [Synced, h.id, if_neg hi] at hsynced

/-- Worker 0 has written what it has published. -/
theorem Leads.published_le (h : Leads trials s p) : s.workerSyncT + 1 ≤ s.written p.id := by
  obtain ⟨id, pc⟩ := p
  cases pc <;> simp only [Leads] at h ⊢ <;> omega

theorem consistent_start (trials : ℕ) :
    Consistent trials (initial workers) fun id => ⟨id, .registerLock⟩ where
  id _ := rfl
  count := by
    have hzero : weight alive (fun id : Fin workers => ⟨id, .registerLock⟩) = 0 :=
      (weight_eq_zero_iff ..).mpr fun _ => rfl
    rw [hzero]
    rfl
  synced i := by
    unfold Synced
    split
    · exact ⟨rfl, rfl⟩
    · exact ⟨rfl, rfl, by simp [initial]⟩

/-! ## Steps -/

/-- What a step of the worker `id` may change. -/
structure Frame (s s' : Shared workers) (id : Fin workers) : Prop where
  written : ∀ j, j ≠ id → s'.written j = s.written j
  deltas : ∀ j, j ≠ id → s'.deltas j = s.deltas j
  published : s.workerSyncT ≤ s'.workerSyncT
  publisher : id.val ≠ 0 → s'.workerSyncT = s.workerSyncT

theorem Frame.refl (s : Shared workers) (workersAlive : ℤ) (id : Fin workers) :
    Frame s { s with workersAlive := workersAlive } id :=
  ⟨fun _ _ => rfl, fun _ _ => rfl, le_rfl, fun _ => rfl⟩

theorem Follower.frame {id : Fin workers} {written recorded published : ℕ}
    (h : Follower s p.id written recorded published) (hframe : Frame s s' id)
    (hne : p.id ≠ id) : Follower s' p.id written recorded published where
  written := (hframe.written _ hne).trans h.written
  deltas := (hframe.deltas _ hne).trans h.deltas
  published := h.published.trans (Int.add_le_add_right hframe.published 1)

/-- What a point says is stable under the steps of the other workers. -/
theorem Synced.frame {id : Fin workers} (h : Synced trials s p) (hframe : Frame s s' id)
    (hne : p.id ≠ id) : Synced trials s' p := by
  unfold Synced at h ⊢
  split at h
  · next hzero =>
      rw [if_pos hzero]
      have hpublisher := hframe.publisher fun hid => hne (Fin.ext (hzero.trans hid.symm))
      obtain ⟨id', pc⟩ := p
      have hwritten : s'.written id' = s.written id' := hframe.written id' hne
      simp only [Leads, hpublisher, hwritten] at h ⊢
      exact h
  · next hzero =>
      rw [if_neg hzero]
      obtain ⟨id', pc⟩ := p
      cases pc with
      | start | publishLock | publish | publishBroadcast | publishUnlock => exact h
      | registerLock | register | registerUnlock | finishLock | finish | finishUnlock | finished =>
          exact Follower.frame (p := ⟨id', .start⟩) h hframe hne
      | loop | waitLock | waitTest | waitUnlock | write | record =>
          exact ⟨Follower.frame (p := ⟨id', .start⟩) h.1 hframe hne, h.2⟩

theorem Consistent.move (h : Consistent trials s ps) (hid : q.id = i) (hframe : Frame s s' i)
    (halive : s'.workersAlive + alive (ps i) = s.workersAlive + alive q)
    (hsynced : Synced trials s' q) : Consistent trials s' (Function.update ps i q) where
  id := (Function.forall_update_iff ps fun j p => p.id = j).mpr ⟨hid, fun j _ => h.id j⟩
  count := by
    have hweight := weight_update alive ps i q
    have hcount := h.count
    omega
  synced := by
    apply (Function.forall_update_iff ps fun _ p => Synced trials s' p).mpr
    refine ⟨hsynced, fun j hj => (h.synced j).frame hframe ?_⟩
    rw [h.id j]
    exact hj

theorem id_of_next (hq : (workerRun trials s p).next? = some q) : q.id = p.id := by
  obtain ⟨id, pc⟩ := p
  cases pc <;> simp only [workerRun] at hq <;> try split at hq
  all_goals
    cases hq
    try rfl

/-- Each step is in the frame of its worker. -/
theorem frame_after (h : Synced trials s p) : Frame s ((workerRun trials s p).after s) p.id := by
  obtain ⟨id, pc⟩ := p
  cases pc with
  | register | finish => exact Frame.refl s _ id
  | loop | waitTest =>
      simp only [workerRun]
      split <;> exact Frame.refl s s.workersAlive id
  | write t =>
      exact ⟨fun j hj => Function.update_of_ne hj _ _, fun _ _ => rfl, le_rfl, fun _ => rfl⟩
  | record t =>
      exact ⟨fun _ _ => rfl, fun j hj => Function.update_of_ne hj _ _, le_rfl, fun _ => rfl⟩
  | publish t =>
      by_cases hzero : id.val = 0
      · have hlead : s.workerSyncT + 1 = t ∧ s.written id = t + 1 := by
          simpa only [Synced, if_pos hzero, Leads] using h
        refine ⟨fun _ _ => rfl, fun _ _ => rfl, ?_, fun hne => absurd hzero hne⟩
        simp only [workerRun, Op.after]
        omega
      · simp [Synced, hzero, Follows] at h
  | registerLock | registerUnlock | start | waitLock | waitUnlock | publishLock
    | publishBroadcast | publishUnlock | finishLock | finishUnlock | finished =>
      exact Frame.refl s s.workersAlive id

/-- A step of worker 0 keeps what its point says. -/
theorem Leads.next (hzero : p.id.val = 0) (h : Leads trials s p)
    (hq : (workerRun trials s p).next? = some q) :
    Leads trials ((workerRun trials s p).after s) q := by
  obtain ⟨id, pc⟩ := p
  cases pc with
  | waitLock | waitTest | waitUnlock => exact h.elim
  | finished => cases hq
  | registerLock | register | publishLock | publishBroadcast | finishLock | finish | finishUnlock =>
      cases hq
      exact h
  | registerUnlock =>
      cases hq
      rw [if_pos hzero]
      exact h
  | start =>
      by_cases hwait : s.workersAlive < workers
      · simp only [workerRun, if_pos hwait] at hq ⊢
        cases hq
        exact h
      · simp only [workerRun, if_neg hwait] at hq ⊢
        cases hq
        exact h
  | loop t =>
      by_cases hexit : trials ≤ t ∧ s.workersAlive = 1
      · simp only [workerRun, if_pos hzero, if_pos hexit] at hq ⊢
        cases hq
        obtain ⟨hsync, hwritten⟩ : s.workerSyncT + 1 = t ∧ s.written id = t := h
        simp only [Leads, Op.after]
        omega
      · simp only [workerRun, if_pos hzero, if_neg hexit] at hq ⊢
        cases hq
        exact h
  | write t =>
      cases hq
      exact ⟨h.1, (Function.update_self ..).trans (congrArg (· + 1) h.2)⟩
  | record t =>
      cases hq
      rw [if_pos hzero]
      exact h
  | publish t =>
      cases hq
      exact ⟨rfl, h.2⟩
  | publishUnlock t =>
      cases hq
      exact ⟨by simp [workerRun, Op.after, h.1], h.2⟩

/-- A step of another worker keeps what its point says. -/
theorem Follows.next (hzero : p.id.val ≠ 0) (h : Follows trials s p)
    (hq : (workerRun trials s p).next? = some q) :
    Follows trials ((workerRun trials s p).after s) q := by
  obtain ⟨id, pc⟩ := p
  cases pc with
  | start | publishLock | publish | publishBroadcast | publishUnlock => exact h.elim
  | finished => cases hq
  | registerLock | waitLock | waitUnlock | finishLock | finishUnlock =>
      cases hq
      exact h
  | register | finish =>
      cases hq
      exact ⟨h.written, h.deltas, h.published⟩
  | registerUnlock =>
      cases hq
      rw [if_neg hzero]
      exact ⟨h, Nat.zero_le _⟩
  | loop t =>
      obtain ⟨hfollower, hle⟩ := h
      by_cases hexit : trials ≤ t
      · simp only [workerRun, if_neg hzero, if_pos hexit] at hq ⊢
        cases hq
        obtain rfl : t = trials := Nat.le_antisymm hle hexit
        exact hfollower
      · simp only [workerRun, if_neg hzero, if_neg hexit] at hq ⊢
        cases hq
        exact ⟨hfollower, Nat.lt_of_not_le hexit⟩
  | waitTest t =>
      obtain ⟨hfollower, hlt⟩ := h
      by_cases hwait : s.workerSyncT < t
      · simp only [workerRun, if_pos hwait] at hq ⊢
        cases hq
        exact ⟨hfollower, hlt⟩
      · simp only [workerRun, if_neg hwait] at hq ⊢
        cases hq
        refine ⟨⟨hfollower.written, hfollower.deltas, ?_⟩, hlt⟩
        simp only [Op.after]
        omega
  | write t =>
      obtain ⟨hfollower, hlt⟩ := h
      cases hq
      refine ⟨⟨?_, hfollower.deltas, hfollower.published⟩, hlt⟩
      exact (Function.update_self ..).trans (congrArg (· + 1) hfollower.written)
  | record t =>
      obtain ⟨hfollower, hlt⟩ := h
      cases hq
      rw [if_neg hzero]
      refine ⟨⟨hfollower.written, ?_, hfollower.published⟩, hlt⟩
      rw [List.range_succ, ← hfollower.deltas]
      exact Function.update_self ..

theorem Synced.next (h : Synced trials s p) (hq : (workerRun trials s p).next? = some q) :
    Synced trials ((workerRun trials s p).after s) q := by
  have hid := id_of_next hq
  unfold Synced at h ⊢
  split at h
  · next hzero =>
      rw [if_pos (hid ▸ hzero)]
      exact Leads.next hzero h hq
  · next hzero =>
      rw [if_neg (hid ▸ hzero)]
      exact Follows.next hzero h hq

/-- Only registering and finishing change the number of live workers. -/
theorem alive_after (hq : (workerRun trials s p).next? = some q) :
    ((workerRun trials s p).after s).workersAlive + alive p = s.workersAlive + alive q := by
  obtain ⟨id, pc⟩ := p
  cases pc with
  | registerUnlock =>
      cases hq
      split <;> rfl
  | start =>
      cases hq
      simp only [workerRun, Op.after]
      split <;> rfl
  | loop t =>
      by_cases hzero : id.val = 0
      · simp only [workerRun, if_pos hzero] at hq ⊢
        cases hq
        simp only [Op.after]
        split <;> rfl
      · simp only [workerRun, if_neg hzero] at hq ⊢
        cases hq
        simp only [Op.after]
        split <;> rfl
  | record t =>
      cases hq
      simp only [workerRun, Op.after]
      split <;> rfl
  | waitTest t =>
      by_cases hwait : s.workerSyncT < t
      · simp only [workerRun, if_pos hwait] at hq ⊢
        cases hq
        rfl
      · simp only [workerRun, if_neg hwait] at hq ⊢
        cases hq
        rfl
  | register | finish =>
      cases hq
      simp [workerRun, Op.after, alive]
  | registerLock | waitLock | waitUnlock | write | publishLock | publish | publishBroadcast
    | publishUnlock | finishLock | finishUnlock =>
      cases hq
      rfl
  | finished => cases hq

variable {c : Config (Fin workers) (Shared workers) (Point workers) Mutex Cond}

theorem consistent_of_reachable (h : (program workers trials).Reachable c) :
    Consistent trials c.shared (points c) := by
  apply points_invariant h (consistent_start trials)
  intro s ps i q hconsistent hq
  have hsynced := hconsistent.synced i
  have hframe := frame_after hsynced
  rw [hconsistent.id i] at hframe
  apply hconsistent.move _ hframe (alive_after hq) (hsynced.next hq)
  rw [id_of_next hq, hconsistent.id i]

end PthreadBenchmark.Concurio
