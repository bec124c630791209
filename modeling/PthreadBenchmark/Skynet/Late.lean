import PthreadBenchmark.Skynet.Shutdown
import PthreadBenchmark.Shared.PthreadRuns

/-! # The timer behind the end of the monitor

Whatever the number of workers, all of them may leave before the timer has begun its loop. -/

namespace PthreadBenchmark.Skynet

open Pthread

variable {n : ℕ} {dispatch : Fin n → ℕ → ℤ} {poll : ℕ → ℤ} {m : Monitor} {p q : Point n}
  {s : Process} {t : Thread n} {c c' : Config (Thread n) Process (ProcessPoint n) Mutex Cond}

section Late

variable {o : Mutex → Option (Thread n)} {threads : Thread n → Status (ProcessPoint n) Mutex Cond}
  {G : Config (Thread n) Process (ProcessPoint n) Mutex Cond → Prop}

theorem leads_create (d : ℕ) (hd : s.created + d = n + 2)
    (h : (process dispatch poll).Leads G
      (turn o { s with created := n + 2 } threads none (.start (.join 0)))) :
    (process dispatch poll).Leads G (turn o s threads none (.start (.create s.created))) := by
  induction d generalizing s with
  | zero =>
      have hall : s.created = n + 2 := by omega
      have hs : ({ s with created := n + 2 } : Process) = s := by rw [← hall]
      rw [hs] at h
      exact leads_run (if_neg (by omega)) h
  | succ d ih =>
      have hnext := ih (s := { s with created := s.created + 1 }) (by simp only; omega) h
      exact leads_run (if_pos (by omega)) hnext

theorem leads_thread_run (hbegun : s.Begun p) (hop : code dispatch poll s.monitor p = .run m q)
    (h : (process dispatch poll).Leads G (turn o (s.setMonitor m) threads t (.thread q))) :
    (process dispatch poll).Leads G (turn o s threads t (.thread p)) := by
  refine leads_run ?_ h
  simp only [processCode_of_begun hbegun, hop, Op.map]

theorem leads_thread_lock (hbegun : s.Begun p)
    (hop : code dispatch poll s.monitor p = .lock .mutex q) (hfree : o .mutex = none)
    (h : (process dispatch poll).Leads G
      (turn (Function.update o .mutex (some t)) s threads t (.thread q))) :
    (process dispatch poll).Leads G (turn o s threads t (.thread p)) := by
  refine leads_lock ?_ hfree h
  simp only [processCode_of_begun hbegun, hop, Op.map]

/-- A thread gives back the mutex that it has taken. -/
theorem leads_thread_unlock (hbegun : s.Begun p)
    (hop : code dispatch poll s.monitor p = .unlock .mutex q) (hfree : o .mutex = none)
    (h : (process dispatch poll).Leads G (turn o s threads t (.thread q))) :
    (process dispatch poll).Leads G
      (turn (Function.update o .mutex (some t)) s threads t (.thread p)) := by
  refine leads_unlock ?_ (Function.update_self ..) (by rwa [free_again hfree])
  simp only [processCode_of_begun hbegun, hop, Op.map]

/-- `skynet_shutdown` runs to its end while nobody sleeps. -/
theorem leads_shutdown (hfree : o .mutex = none)
    (hawake : ∀ t, wake .cond (threads t) = threads t)
    (h : (process dispatch poll).Leads G
      (turn o (s.setMonitor { s.monitor with quit := 1 }) threads t
        (.thread (.shutdown .returned)))) :
    (process dispatch poll).Leads G (turn o s threads t (.thread (.shutdown .lock))) := by
  refine leads_thread_lock trivial rfl hfree (leads_thread_run trivial rfl ?_)
  refine leads_broadcast rfl hawake ?_
  exact leads_thread_unlock trivial rfl hfree h

/-- A worker leaves behind the shutdown. -/
theorem leads_worker {i : Fin n} {k : ℕ} (hbegun : i < s.created) (hquit : s.monitor.quit ≠ 0)
    (hfree : o .mutex = none)
    (h : (process dispatch poll).Leads G
      (turn o s threads t (.thread (.worker i k .exited)))) :
    (process dispatch poll).Leads G (turn o s threads t (.thread (.worker i k .loopLock))) := by
  have htest : code dispatch poll s.monitor (.worker i k .loopTest) =
      .run s.monitor (.worker i k .breakUnlock) := by
    simp [code, threadWorker, hquit]
  refine leads_thread_lock hbegun rfl hfree (leads_thread_run hbegun htest ?_)
  exact leads_thread_unlock hbegun rfl hfree h

/-- `skynet_shutdown` has returned, the workers below `i` have left and been joined, and the others
have still to begin their loops, as have the timer and the socket thread. -/
def joining (i : ℕ) : Thread n → Status (ProcessPoint n) Mutex Cond
  | none => .running (.start (.join i))
  | some (.inl j) => .running (.thread (.worker j 0 (if j < i then .exited else .loopLock)))
  | some (.inr .timer) => .running (.thread (.poller .timer 0 .loopLock))
  | some (.inr .socket) => .running (.thread (.poller .socket 0 .loopLock))
  | some (.inr .shutdown) => .running (.thread (.shutdown .returned))

theorem joining_succ {i : ℕ} (hi : i < n) :
    Function.update (Function.update (joining i) (some (.inl ⟨i, hi⟩))
      (.running (.thread (.worker ⟨i, hi⟩ 0 .exited)))) none (.running (.start (.join (i + 1)))) =
      (joining (i + 1) : Thread n → Status (ProcessPoint n) Mutex Cond) := by
  funext t
  rcases t with - | j | service
  · simp [joining]
  · by_cases hj : j = ⟨i, hi⟩
    · subst hj
      simp [joining]
    · have hne : j.val ≠ i := fun heq => hj (Fin.ext heq)
      have hlt : j.val < i + 1 ↔ j.val < i := by omega
      simp [joining, hj, hlt]
  · cases service <;> simp [joining]

theorem leads_joining (hfree : o .mutex = none) (hquit : s.monitor.quit ≠ 0)
    (hcreated : s.created = n + 2) (d : ℕ) {i : ℕ} (hd : i + d = n)
    (h : (process dispatch poll).Leads G ⟨o, s, joining n⟩) :
    (process dispatch poll).Leads G ⟨o, s, joining i⟩ := by
  induction d generalizing i with
  | zero =>
      obtain rfl : i = n := by omega
      exact h
  | succ d ih =>
      have hi : i < n := by omega
      have hworker : (⟨o, s, joining i⟩ : Config (Thread n) Process (ProcessPoint n) Mutex
          Cond).threads (some (.inl ⟨i, hi⟩)) =
          .running (.thread (.worker ⟨i, hi⟩ 0 .loopLock)) := by
        simp [joining]
      rw [← turn_self hworker]
      refine leads_worker (by simp only; omega) hquit hfree ?_
      have hmain : (turn o s (joining i) (some (.inl ⟨i, hi⟩))
          (.thread (.worker ⟨i, hi⟩ 0 .exited))).threads none = .running (.start (.join i)) := by
        simp [turn, joining]
      rw [← turn_self hmain]
      refine leads_join (dif_pos hi) ?_ ?_
      · have hexited : (turn o s (joining i) (some (.inl ⟨i, hi⟩))
            (.thread (.worker ⟨i, hi⟩ 0 .exited))).threads (some (.inl ⟨i, hi⟩)) =
            .running (.thread (.worker ⟨i, hi⟩ 0 .exited)) := turn_threads_self ..
        simp only [turn, Function.update_of_ne (Option.some_ne_none _)] at hexited ⊢
        rw [hexited]
        exact isHalt_processCode (.inl rfl)
      · simp only [turn]
        rw [joining_succ hi]
        exact ih (by omega)

/-- The monitor has been freed, and the timer is about to test `m->quit`. -/
def TimerLate (c : Config (Thread n) Process (ProcessPoint n) Mutex Cond) : Prop :=
  c.shared.created = n + 2 ∧ c.shared.freed = true ∧ c.owner .mutex = none ∧
    c.threads (some (.inr .timer)) = .running (.thread (.poller .timer 0 .loopLock))

/-- `skynet_start` frees the monitor when it has joined the last worker. -/
theorem leads_freed (hfree : o .mutex = none) (hcreated : s.created = n + 2) :
    (process dispatch poll).Leads TimerLate ⟨o, s, joining n⟩ := by
  have hmain : (⟨o, s, joining n⟩ : Config (Thread n) Process (ProcessPoint n) Mutex
      Cond).threads none = .running (.start (.join n)) := rfl
  rw [← turn_self hmain]
  refine leads_run (dif_neg (lt_irrefl n)) ?_
  refine leads_run rfl (leads_run rfl (leads_run rfl (leads_run rfl (.here ?_))))
  exact ⟨hcreated, rfl, hfree, by simp [turn, joining]⟩

theorem exists_timerLate (dispatch : Fin n → ℕ → ℤ) (poll : ℕ → ℤ) :
    ∃ c, (process dispatch poll).Reachable c ∧ TimerLate c := by
  refine System.Leads.reachable (S := process dispatch poll) ?_ .init
  have hinit : (process dispatch poll).init =
      turn (fun _ => none) ⟨⟨n, 0, 0⟩, 0, false, false⟩ (fun t => .running (processStart t)) none
        (.start (.create 0)) := (turn_self rfl).symm
  rw [hinit]
  refine leads_create (n + 2) (Nat.zero_add _) ?_
  have hshutdown : (turn (fun _ => none) ⟨⟨n, 0, 0⟩, n + 2, false, false⟩
      (fun t => .running (processStart t)) none (.start (.join 0)) :
      Config (Thread n) Process (ProcessPoint n) Mutex Cond).threads (some (.inr .shutdown)) =
      .running (.thread (.shutdown .lock)) := by simp [turn, processStart, start]
  rw [← turn_self hshutdown]
  refine leads_shutdown rfl (fun t => ?_) ?_
  · cases t with
    | none => simp [turn, wake]
    | some i => simp [turn, wake]
  · have hjoining : Function.update (turn (fun _ => none) ⟨⟨n, 0, 0⟩, n + 2, false, false⟩
        (fun t => .running (processStart t)) none (.start (.join 0)) :
        Config (Thread n) Process (ProcessPoint n) Mutex Cond).threads (some (.inr .shutdown))
        (.running (.thread (.shutdown .returned))) = joining 0 := by
      funext t
      rcases t with - | j | service
      · simp [turn, joining]
      · simp [turn, joining, processStart, start]
      · cases service <;> simp [turn, joining, processStart, start]
    rw [turn, hjoining]
    refine leads_joining rfl ?_ rfl n (Nat.zero_add n) (leads_freed rfl rfl)
    simp [Process.setMonitor]

end Late

theorem TimerLate.exists_lock (h : TimerLate c) (dispatch : Fin n → ℕ → ℤ) (poll : ℕ → ℤ) :
    ∃ c', (process dispatch poll).step c (.run (some (.inr .timer)) none) = some c' ∧
      c'.owner .mutex = some (some (.inr .timer)) := by
  obtain ⟨hcreated, -, hfree, htimer⟩ := h
  have hbegun : c.shared.Begun (.poller .timer 0 .loopLock : Point n) := by
    have hlt : n < c.shared.created := by omega
    exact hlt
  have hop : processCode dispatch poll c.shared (.thread (.poller .timer 0 .loopLock)) =
      .lock .mutex (.thread (.poller .timer 0 .loopTest)) := processCode_of_begun hbegun
  exact ⟨_, step_lock htimer hop hfree, by simp⟩

/-- The step past the last join comes too early where the timer or the socket thread has not
left. -/
theorem not_orderly_of_early {w : Option (Thread n)} (h : TimelyRun dispatch poll c)
    (hs : (process dispatch poll).step c (.run t w) = some c')
    (hearly : ¬ PollersLeft c.shared (points c) t) : ¬ Orderly dispatch poll c' := by
  have hordered := ordered_of_timely h
  cases t with
  | some i =>
      obtain ⟨p, hp, -⟩ := hordered.thread i
      simp [PollersLeft, hp] at hearly
  | none =>
      obtain ⟨pc, hpc, -⟩ := hordered.start
      cases pc with
      | join i =>
          simp only [PollersLeft, hpc, Classical.not_imp] at hearly
          obtain ⟨hi, hstay⟩ := hearly
          have hrest : ¬ Resting (points c none) := by
            rintro ⟨j, k, hjk⟩
            rw [hjk] at hpc
            cases hpc
          have hrunning := running_of_not_resting resting_of_wait h.reachable hrest
          rw [hpc] at hrunning
          simp only [process, Pthread.program, step, hrunning, processCode, skynetStart,
            dif_neg (Nat.not_lt.mpr hi), exec, Option.some.injEq] at hs
          subst hs
          intro horderly
          have hleft : ∀ i, i ≠ .inr .shutdown → (points c (some i)).Left := by
            intro i hi
            obtain ⟨p, hp, hleft⟩ := horderly.terminated .destroyMutex (by simp) trivial i hi
            have hp' : c.threads (some i) = .running (.thread p) := by simpa using hp
            have hpoint : points c (some i) = .thread p := points_of_running hp'
            rw [hpoint]
            exact hleft
          exact hstay ⟨hleft _ (by simp), hleft _ (by simp)⟩
      | _ => simp [PollersLeft, hpc] at hearly

/-- For any number of workers, any dispatches and polls: in a run in which `skynet_start` goes past
its last join when the timer and the socket thread have left their loops, all threads that it has
created have left when it gets to `pthread_mutex_destroy`, and nobody uses the monitor behind that;
the first step that comes too early leads to a state that breaks this. Whatever the input is, in
some run the timer locks the mutex of the monitor that has been freed. -/
theorem orderly_until_early (dispatch : Fin n → ℕ → ℤ) (poll : ℕ → ℤ) :
    (∀ c, TimelyRun dispatch poll c → Orderly dispatch poll c ∧
      ∀ t w c', (process dispatch poll).step c (.run t w) = some c' →
        ¬ PollersLeft c.shared (points c) t → ¬ Orderly dispatch poll c') ∧
    ∃ c c', (process dispatch poll).Reachable c ∧ c.shared.freed = true ∧
      (process dispatch poll).step c (.run (some (.inr .timer)) none) = some c' ∧
      c'.owner .mutex = some (some (.inr .timer)) := by
  refine ⟨fun c h => ⟨orderly_of_timely h, fun t w c' hs => not_orderly_of_early h hs⟩, ?_⟩
  obtain ⟨c, hreach, hlate⟩ := exists_timerLate dispatch poll
  obtain ⟨c', hstep, howner⟩ := hlate.exists_lock dispatch poll
  exact ⟨c, c', hreach, hlate.2.1, hstep, howner⟩

/-- `skynet_start` creates its threads, `skynet_shutdown` runs, each thread of `leaving` leaves, and
`skynet_start` runs to its end. -/
def startAndLeave (leaving : List (Thread 1)) : List (Action (Thread 1)) :=
  List.replicate 4 (Action.run none none) ++
    List.replicate 4 (Action.run (some (Sum.inr Service.shutdown)) none) ++
    leaving.flatMap (fun t => List.replicate 3 (Action.run t none)) ++
    List.replicate 6 (Action.run none none)

def allLeave (i : Fin 1) : Option (Config (Thread 1) Process (ProcessPoint 1) Mutex Cond) :=
  ((process (fun _ _ => 1) fun _ => 1).guarded (Meets PollersLeft fun _ _ _ => True)).exec
    (process (fun _ _ => 1) fun _ => 1).init
    (startAndLeave [some (.inl i), some (.inr .timer), some (.inr .socket)])

theorem orderly_until_early_one : ∃ c, allLeave 0 = some c ∧ c.shared.freed = true ∧
    Orderly (fun _ _ => 1) (fun _ => 1) c := by
  have hrun : (allLeave 0).isSome = true := by decide
  have hreach : TimelyRun (fun _ _ => 1) (fun _ => 1) ((allLeave 0).get hrun) :=
    .of_exec (Option.some_get hrun).symm
  exact ⟨(allLeave 0).get hrun, (Option.some_get hrun).symm, rfl,
    ((orderly_until_early _ _).1 _ hreach).1⟩

def workerLeaves (i : Fin 1) : Option (Config (Thread 1) Process (ProcessPoint 1) Mutex Cond) :=
  (process (fun _ _ => 1) fun _ => 1).exec (process (fun _ _ => 1) fun _ => 1).init
    (startAndLeave [some (.inl i)])

/-- `skynet_start` has returned, and the timer has not left. -/
theorem freed_under_timer : ∃ c, (process (n := 1) (fun _ _ => 1) fun _ => 1).Reachable c ∧
    c.shared.freed = true ∧ ¬ Orderly (fun _ _ => 1) (fun _ => 1) c := by
  have hrun : (workerLeaves 0).isSome = true := by decide
  refine ⟨(workerLeaves 0).get hrun, System.Reachable.init.exec (Option.some_get hrun).symm, rfl,
    ?_⟩
  intro horderly
  obtain ⟨p, hp, hleft⟩ := horderly.terminated .returned rfl trivial (.inr .timer) (by simp)
  have htimer : ((workerLeaves 0).get hrun).threads (some (.inr .timer)) =
      .running (.thread (.poller .timer 0 .loopLock)) := rfl
  rw [htimer] at hp
  cases hp
  cases hleft

end PthreadBenchmark.Skynet
