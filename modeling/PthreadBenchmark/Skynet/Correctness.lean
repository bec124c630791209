import PthreadBenchmark.Skynet.Model
import PthreadBenchmark.Shared.PthreadReasons

/-! # Nobody sleeps behind the shutdown -/

namespace PthreadBenchmark.Skynet

open Pthread

variable {n : ℕ} {dispatch : Fin n → ℕ → ℤ} {poll : ℕ → ℤ} {m m' : Monitor} {p q : Point n}
  {ps : Tid n → Point n} {c : Config (Tid n) Monitor (Point n) Mutex Cond}

/-- Workers between `++m->sleep` and `--m->sleep`. -/
def between : Point n → ℕ
  | .worker _ _ .sleepTest | .worker _ _ .sleepDec => 1
  | _ => 0

/-- `skynet_shutdown` has set `m->quit`. -/
def HasQuit : Point n → Prop
  | .shutdown .broadcast | .shutdown .unlock | .shutdown .returned => True
  | _ => False

/-- The points of a thread. -/
def At : Tid n → Point n → Prop
  | .inl i, .worker j _ _ => j = i
  | .inr .timer, .poller .timer _ _ => True
  | .inr .socket, .poller .socket _ _ => True
  | .inr .shutdown, .shutdown _ => True
  | _, _ => False

structure Watched (m : Monitor) (ps : Tid n → Point n) : Prop where
  count : m.count = n
  sleep : m.sleep = weight between ps
  quit : ∀ i, HasQuit (ps i) → m.quit ≠ 0
  thread : ∀ i, At i (ps i)

theorem watched_start : Watched ⟨n, 0, 0⟩ (start : Tid n → Point n) where
  count := rfl
  sleep := by
    have hzero : weight between (start : Tid n → Point n) = 0 := by
      rw [weight_eq_zero_iff]
      intro i
      rcases i with i | i
      · rfl
      · cases i <;> rfl
    rw [hzero]
    rfl
  quit i hi := by
    rcases i with i | i
    · exact hi.elim
    · cases i <;> exact hi.elim
  thread i := by
    rcases i with i | i
    · rfl
    · cases i <;> trivial

/-! ## Steps -/

/-- What a step from `p` to `q` does to the monitor. -/
structure Stepped (m m' : Monitor) (p q : Point n) : Prop where
  count : m'.count = m.count
  sleep : m'.sleep + between p = m.sleep + between q
  quit : m.quit ≠ 0 → m'.quit ≠ 0
  hasQuit : HasQuit q → HasQuit p ∨ m'.quit ≠ 0
  thread : ∀ i, At i p → At i q

theorem stepped_worker {i : Fin n} {k : ℕ} {pc : WorkerPc}
    (hq : (threadWorker dispatch m i k pc).next? = some q) :
    Stepped m ((threadWorker dispatch m i k pc).after m) (.worker i k pc) q := by
  have hmove : ∀ {sleep k' pc'}, sleep + between (.worker i k pc) =
      m.sleep + between (.worker i k' pc') →
      Stepped m { m with sleep := sleep } (.worker i k pc) (.worker i k' pc') := by
    intro sleep k' pc' hsleep
    refine ⟨rfl, hsleep, id, False.elim, fun j hj => ?_⟩
    rcases j with j | j
    · exact hj
    · cases j <;> exact hj
  cases pc with
  | loopTest =>
      cases hq
      simp only [threadWorker, Op.after]
      split <;> exact hmove rfl
  | dispatch =>
      cases hq
      simp only [threadWorker, Op.after]
      split <;> exact hmove rfl
  | sleepTest =>
      by_cases hquit : m.quit = 0
      · simp only [threadWorker, if_pos hquit] at hq ⊢
        cases hq
        exact hmove rfl
      · simp only [threadWorker, if_neg hquit] at hq ⊢
        cases hq
        exact hmove rfl
  | sleepInc | sleepDec =>
      cases hq
      apply hmove
      simp [between]
  | exited => cases hq
  | loopLock | loopUnlock | breakUnlock | sleepLock | sleepUnlock =>
      cases hq
      exact hmove rfl

theorem stepped_poller {which : Poller} {k : ℕ} {pc : PollerPc}
    (hq : (threadPoller poll m which k pc).next? = some q) :
    Stepped m ((threadPoller (n := n) poll m which k pc).after m) (.poller which k pc) q := by
  have hmove : ∀ {k' pc'}, Stepped m m (.poller which k pc) (.poller which k' pc' : Point n) := by
    intro k' pc'
    refine ⟨rfl, rfl, id, False.elim, fun j hj => ?_⟩
    rcases j with j | j
    · exact hj
    · cases j <;> cases which <;> exact hj
  cases pc with
  | loopTest | wakeupTest =>
      cases hq
      simp only [threadPoller, Op.after]
      split <;> exact hmove
  | poll =>
      cases which with
      | timer =>
          cases hq
          exact hmove
      | socket =>
          by_cases hzero : poll k = 0
          · simp only [threadPoller, if_pos hzero] at hq ⊢
            cases hq
            exact hmove
          · by_cases hneg : poll k < 0
            · simp only [threadPoller, if_neg hzero, if_pos hneg] at hq ⊢
              cases hq
              exact hmove
            · simp only [threadPoller, if_neg hzero, if_neg hneg] at hq ⊢
              cases hq
              exact hmove
  | exited => cases hq
  | loopLock | loopUnlock | breakUnlock | wakeupLock | wakeupSignal | wakeupUnlock =>
      cases hq
      exact hmove

theorem stepped_shutdown {pc : ShutdownPc}
    (hq : (skynetShutdown (n := n) m pc).next? = some q) :
    Stepped m ((skynetShutdown (n := n) m pc).after m) (.shutdown pc) q := by
  have hthread : ∀ {pc'} (i : Tid n), At i (.shutdown pc) → At i (.shutdown pc') := by
    intro pc' i hi
    rcases i with i | i
    · exact hi
    · cases i <;> exact hi
  cases pc with
  | lock =>
      cases hq
      exact ⟨rfl, rfl, id, False.elim, hthread⟩
  | setQuit =>
      cases hq
      exact ⟨rfl, rfl, fun _ => one_ne_zero, fun _ => .inr one_ne_zero, hthread⟩
  | broadcast | unlock =>
      cases hq
      exact ⟨rfl, rfl, id, fun _ => .inl trivial, hthread⟩
  | returned => cases hq

theorem stepped (hq : (code dispatch poll m p).next? = some q) :
    Stepped m ((code dispatch poll m p).after m) p q := by
  cases p with
  | worker i k pc => exact stepped_worker hq
  | poller which k pc => exact stepped_poller hq
  | shutdown pc => exact stepped_shutdown hq

theorem Watched.step (h : Watched m ps) {i : Tid n} (hstep : Stepped m m' (ps i) q) :
    Watched m' (Function.update ps i q) where
  count := hstep.count.trans h.count
  sleep := by
    have hweight := weight_update between ps i q
    have hmove := hstep.sleep
    have hsleep := h.sleep
    omega
  quit := by
    apply (Function.forall_update_iff ps fun _ p => HasQuit p → m'.quit ≠ 0).mpr
    refine ⟨fun hq => ?_, fun j _ hj => hstep.quit (h.quit j hj)⟩
    exact (hstep.hasQuit hq).elim (fun hp => hstep.quit (h.quit i hp)) id
  thread := by
    apply (Function.forall_update_iff ps fun j p => At j p).mpr
    exact ⟨hstep.thread i (h.thread i), fun j _ => h.thread j⟩

theorem watched_of_reachable (h : (program dispatch poll).Reachable c) :
    Watched c.shared (points c) := by
  apply points_invariant h watched_start
  intro m ps i q hwatched hq
  exact hwatched.step (stepped hq)

/-- Only workers are counted, and each at most once. -/
theorem Watched.between_le (h : Watched m ps) : weight between ps ≤ n := by
  have hworker : ∀ i, between (ps (.inl i)) ≤ 1 := by
    intro i
    unfold between
    split <;> omega
  have hservice : ∀ i, between (ps (.inr i)) = 0 := by
    intro i
    have hthread := h.thread (.inr i)
    unfold between
    split
    · next hp =>
        rw [hp] at hthread
        cases i <;> exact hthread.elim
    · next hp =>
        rw [hp] at hthread
        cases i <;> exact hthread.elim
    · rfl
  unfold weight
  rw [Fintype.sum_sum_type, Finset.sum_eq_zero fun i _ => hservice i, Nat.add_zero]
  calc ∑ i, between (ps (.inl i)) ≤ ∑ _i : Fin n, 1 := Finset.sum_le_sum fun i _ => hworker i
    _ = n := by simp

/-! ## Sleepers -/

theorem minds (m : Monitor) (p : Point n) :
    Minds .cond (fun m _ => m.quit = 0) (fun p => p = .shutdown .broadcast) m p
      (code dispatch poll m p) := by
  have hother : p ≠ .shutdown .broadcast →
      ∀ q, p = .shutdown .broadcast → q = (.shutdown .broadcast : Point n) :=
    fun hne q heq => absurd heq hne
  cases p with
  | worker i k pc =>
      cases pc with
      | sleepTest =>
          simp only [code, threadWorker]
          split
          · next hquit => exact ⟨fun _ => hquit, by simp⟩
          · exact ⟨fun _ => .inl, hother (by simp) _⟩
      | loopTest | dispatch | sleepInc | sleepDec => exact ⟨fun _ => .inl, hother (by simp) _⟩
      | loopLock | loopUnlock | breakUnlock | sleepLock | sleepUnlock => exact hother (by simp) _
      | exited => trivial
  | poller which k pc =>
      cases pc with
      | poll =>
          cases which with
          | timer => exact ⟨fun _ => .inl, hother (by simp) _⟩
          | socket =>
              simp only [code, threadPoller]
              split
              · exact ⟨fun _ => .inl, hother (by simp) _⟩
              · split <;> exact ⟨fun _ => .inl, hother (by simp) _⟩
      | loopTest | wakeupTest => exact ⟨fun _ => .inl, hother (by simp) _⟩
      | loopLock | loopUnlock | breakUnlock | wakeupLock | wakeupSignal | wakeupUnlock =>
          exact hother (by simp) _
      | exited => trivial
  | shutdown pc =>
      cases pc with
      | lock | unlock => exact hother (by simp) _
      | setQuit => exact ⟨fun _ _ => .inr rfl, hother (by simp) _⟩
      | broadcast => exact .inl rfl
      | returned => trivial

/-! ## Result -/

/-- For any number of workers, any outcomes of the dispatches and polls and any interleaving:
`m->sleep` counts the workers between its two changes, and where `skynet_shutdown` has
released the mutex, no worker is asleep without having been woken. -/
theorem shutdown_correct (dispatch : Fin n → ℕ → ℤ) (poll : ℕ → ℤ)
    (c : Config (Tid n) Monitor (Point n) Mutex Cond) (h : (program dispatch poll).Reachable c) :
    c.shared.sleep = weight between (points c) ∧
      0 ≤ c.shared.sleep ∧ c.shared.sleep ≤ c.shared.count ∧
      (c.threads (.inr .shutdown) = .running (.shutdown .returned) →
        ∀ i, ¬ AsleepOn .cond (c.threads i)) := by
  have hwatched := watched_of_reachable h
  have hsleep := hwatched.sleep
  have hle := hwatched.between_le
  have hcount := hwatched.count
  refine ⟨hsleep, by omega, by omega, fun hreturned i hasleep => ?_⟩
  obtain ⟨m, q, hi⟩ := exists_asleep hasleep
  rcases minded_of_reachable minds h i m q hi with hquit | ⟨j, hj⟩
  · have hset := hwatched.quit (.inr .shutdown)
    rw [points_of_running hreturned] at hset
    exact hset trivial hquit
  · -- the thread at the broadcast would be `skynet_shutdown`, which has returned
    change points c j = .shutdown .broadcast at hj
    have hthread := hwatched.thread j
    rw [hj] at hthread
    rcases j with j | j
    · exact hthread
    · cases j with
      | timer => exact hthread
      | socket => exact hthread
      | shutdown =>
          rw [points_of_running hreturned] at hj
          cases hj

/-- A worker falls asleep, and `skynet_shutdown` runs to its end. -/
def sleepShutdown (i : Fin 1) : Option (Config (Tid 1) Monitor (Point 1) Mutex Cond) :=
  (program (fun _ _ => 1) fun _ => 1).exec (program (fun _ _ => 1) fun _ => 1).init
    (List.replicate 7 (.run (.inl i) none) ++ List.replicate 4 (.run (.inr .shutdown) none))

theorem shutdown_correct_one : ∃ c, sleepShutdown 0 = some c ∧ c.shared.sleep = 1 ∧
    ∀ i, ¬ AsleepOn .cond (c.threads i) := by
  have hrun : (sleepShutdown 0).isSome = true := by decide
  obtain ⟨-, -, -, hawake⟩ := shutdown_correct _ _ _
    (System.Reachable.init.exec (Option.some_get hrun).symm)
  exact ⟨(sleepShutdown 0).get hrun, (Option.some_get hrun).symm, rfl, hawake rfl⟩

end PthreadBenchmark.Skynet
