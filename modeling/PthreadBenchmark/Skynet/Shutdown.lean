import PthreadBenchmark.Skynet.Exclusion
import PthreadBenchmark.Skynet.Correctness
import PthreadBenchmark.Shared.PthreadConditions

/-! # Who uses the monitor behind its end

Nobody joins the timer and the socket thread. Where they have left all the same when the workers
have been joined, the monitor is freed in time. -/

namespace PthreadBenchmark.Skynet

open Pthread

variable {n : ℕ} {dispatch : Fin n → ℕ → ℤ} {poll : ℕ → ℤ} {m : Monitor} {p q : Point n}
  {s : Process} {ps : Thread n → ProcessPoint n} {P Q : ProcessPoint n} {t : Thread n}
  {c : Config (Thread n) Process (ProcessPoint n) Mutex Cond}

/-! ## Runs in which the last two threads have left in time -/

/-- The thread has left its loop. -/
def Point.Left : Point n → Prop
  | .worker _ _ pc => pc = .exited
  | .poller _ _ pc => pc = .exited
  | .shutdown _ => False

instance : DecidablePred (Point.Left (n := n))
  | .worker _ _ pc => inferInstanceAs (Decidable (pc = .exited))
  | .poller _ _ pc => inferInstanceAs (Decidable (pc = .exited))
  | .shutdown _ => inferInstanceAs (Decidable False)

def ProcessPoint.Left : ProcessPoint n → Prop
  | .start _ => False
  | .thread p => p.Left

instance : DecidablePred (ProcessPoint.Left (n := n))
  | .start _ => inferInstanceAs (Decidable False)
  | .thread p => inferInstanceAs (Decidable p.Left)

/-- `skynet_start` goes past its last join when the timer and the socket thread have left. -/
def PollersLeft (_ : Process) (ps : Thread n → ProcessPoint n) (t : Thread n) : Prop :=
  match ps t with
  | .start (.join i) =>
    n ≤ i → (ps (some (.inr .timer))).Left ∧ (ps (some (.inr .socket))).Left
  | _ => True

instance (s : Process) (ps : Thread n → ProcessPoint n) (t : Thread n) :
    Decidable (PollersLeft s ps t) := by
  unfold PollersLeft
  split <;> infer_instance

/-- `skynet_start` is behind its joins. -/
def StartPc.Behind : StartPc → Prop
  | .create _ | .join _ => False
  | _ => True

/-- The workers that `skynet_start` has joined at this point. -/
def StartPc.Joined (ps : Thread n → ProcessPoint n) : StartPc → Prop
  | .create _ => True
  | .join i => ∀ j : Fin n, j < i → (ps (some (.inl j))).Left
  | _ => (∀ j : Fin n, (ps (some (.inl j))).Left) ∧
      (ps (some (.inr .timer))).Left ∧ (ps (some (.inr .socket))).Left

/-- How many threads have been created at this point, and whether the mutex is still there. -/
def StartPc.Keeps (n : ℕ) (s : Process) : StartPc → Prop
  | .create i => s.created = i ∧ i ≤ n + 2 ∧ s.destroyed = false
  | .join _ | .destroyMutex => s.created = n + 2 ∧ s.destroyed = false
  | _ => s.created = n + 2

/-- Points of the timer that it gets to only behind a test of `m->quit`. -/
def SeesQuit : Point n → Prop
  | .poller .timer _ .breakUnlock | .poller .timer _ .exited => True
  | _ => False

structure Ordered (s : Process) (ps : Thread n → ProcessPoint n) : Prop where
  start : ∃ pc, ps none = .start pc ∧ pc.Joined ps ∧ pc.Keeps n s
  thread : ∀ t, ∃ p, ps (some t) = .thread p ∧ At t p
  quit : s.monitor.quit ≠ 0 → ∃ p, ps (some (.inr .shutdown)) = .thread p ∧ HasQuit p
  timer : ∀ p, ps (some (.inr .timer)) = .thread p → SeesQuit p →
    ps (some (.inr .shutdown)) = .thread (.shutdown .returned)

theorem ordered_start : Ordered ⟨⟨n, 0, 0⟩, 0, false, false⟩
    (processStart : Thread n → ProcessPoint n) where
  start := ⟨.create 0, rfl, trivial, rfl, Nat.zero_le _, rfl⟩
  thread t := ⟨start t, rfl, watched_start.thread t⟩
  quit h := absurd rfl h
  timer p hp hsees := by
    cases hp
    exact hsees.elim

theorem StartPc.Joined.congr {pc : StartPc} {ps' : Thread n → ProcessPoint n}
    (h : pc.Joined ps) (hps : ∀ t, (ps (some t)).Left → (ps' (some t)).Left) : pc.Joined ps' := by
  cases pc with
  | create i => trivial
  | join i => exact fun j hj => hps _ (h j hj)
  | _ => exact ⟨fun j => hps _ (h.1 j), hps _ h.2.1, hps _ h.2.2⟩

theorem isHalt_code (m : Monitor) (p : Point n) :
    isHalt (code dispatch poll m p) = true ↔ p.Left ∨ p = .shutdown .returned := by
  cases p with
  | worker i k pc =>
      cases pc with
      | sleepTest | dispatch =>
          simp only [code, threadWorker]
          split <;> simp [isHalt, Point.Left]
      | _ => simp [code, threadWorker, isHalt, Point.Left]
  | poller which k pc =>
      cases pc with
      | poll =>
          cases which with
          | timer => simp [code, threadPoller, isHalt, Point.Left]
          | socket =>
              simp only [code, threadPoller]
              split
              · simp [isHalt, Point.Left]
              · split <;> simp [isHalt, Point.Left]
      | _ => simp [code, threadPoller, isHalt, Point.Left]
  | shutdown pc => cases pc <;> simp [code, skynetShutdown, isHalt, Point.Left]

theorem processCode_of_begun (h : s.Begun p) : processCode dispatch poll s (.thread p) =
    (code dispatch poll s.monitor p).map some s.setMonitor .thread :=
  if_pos h

/-- A worker that has been joined has left its loop. -/
theorem left_of_isHalt {j : Fin n} (h : ∃ p, P = .thread p ∧ At (.inl j) p)
    (hcreated : j < s.created) (hhalt : isHalt (processCode dispatch poll s P) = true) :
    P.Left := by
  obtain ⟨p, rfl, hat⟩ := h
  cases p with
  | worker i k pc =>
      obtain rfl : i = j := hat
      have hbegun : s.Begun (.worker i k pc) := hcreated
      rw [processCode_of_begun hbegun, isHalt_map, isHalt_code] at hhalt
      rcases hhalt with hleft | hreturned
      · exact hleft
      · cases hreturned
  | poller which k pc => exact hat.elim
  | shutdown pc => exact hat.elim

theorem Ordered.step_start (h : Ordered s ps) (hgood : PollersLeft s ps none)
    (hjoins : Joins (processCode dispatch poll) s ps (processCode dispatch poll s (ps none)))
    (hq : (processCode dispatch poll s (ps none)).next? = some Q) :
    Ordered ((processCode dispatch poll s (ps none)).after s) (Function.update ps none Q) := by
  obtain ⟨pc, hp, hjoined, hkeeps⟩ := h.start
  have hmove : ∀ {s' pc'}, s'.monitor = s.monitor → StartPc.Joined ps pc' → pc'.Keeps n s' →
      Ordered s' (Function.update ps none (.start pc')) := by
    intro s' pc' hmonitor hjoined' hkeeps'
    refine ⟨⟨pc', by simp, hjoined'.congr fun t ht => by simpa using ht, hkeeps'⟩,
      fun t => by simpa using h.thread t, fun hquit => ?_, fun p hp hsees => ?_⟩
    · rw [hmonitor] at hquit
      simpa using h.quit hquit
    · simpa using h.timer p (by simpa using hp) hsees
  rw [hp] at hq hjoins ⊢
  simp only [processCode] at hq hjoins ⊢
  cases pc with
  | create i =>
      obtain ⟨hcreated, hle, hdestroyed⟩ := hkeeps
      by_cases hi : i < n + 2
      · simp only [skynetStart, if_pos hi] at hq ⊢
        cases hq
        exact hmove rfl trivial ⟨rfl, hi, hdestroyed⟩
      · simp only [skynetStart, if_neg hi] at hq ⊢
        cases hq
        have hall : s.created = n + 2 := by omega
        exact hmove rfl (fun j hj => absurd hj (Nat.not_lt_zero j)) ⟨hall, hdestroyed⟩
  | join i =>
      by_cases hi : i < n
      · simp only [skynetStart, dif_pos hi] at hq hjoins ⊢
        cases hq
        have hleft : (ps (some (.inl ⟨i, hi⟩))).Left := by
          apply left_of_isHalt (h.thread (.inl ⟨i, hi⟩)) _ hjoins
          have hcreated := hkeeps.1
          simp only
          omega
        refine hmove rfl (fun j hj => ?_) hkeeps
        by_cases hlast : j.val = i
        · obtain rfl : j = ⟨i, hi⟩ := Fin.ext hlast
          exact hleft
        · exact hjoined j (by omega)
      · simp only [skynetStart, dif_neg hi] at hq ⊢
        cases hq
        have hpollers :
            n ≤ i → (ps (some (.inr .timer))).Left ∧ (ps (some (.inr .socket))).Left := by
          simpa only [PollersLeft, hp] using hgood
        exact hmove rfl ⟨fun j => hjoined j (by omega), hpollers (by omega)⟩ hkeeps
  | destroyMutex | destroyCond | freePids | freeMonitor =>
      cases hq
      first
      | exact hmove rfl hjoined hkeeps
      | exact hmove rfl hjoined hkeeps.1
  | returned => cases hq

/-- Only `skynet_shutdown` sets `m->quit`. -/
theorem quit_of_step (hq : (code dispatch poll m p).next? = some q)
    (hquit : ((code dispatch poll m p).after m).quit ≠ 0) :
    m.quit ≠ 0 ∨ q = .shutdown .broadcast := by
  cases p with
  | worker i k pc =>
      left
      cases pc with
      | sleepTest | dispatch =>
          simp only [code, threadWorker] at hquit
          split at hquit <;> exact hquit
      | _ => exact hquit
  | poller which k pc =>
      left
      cases pc with
      | poll =>
          cases which with
          | timer => exact hquit
          | socket =>
              simp only [code, threadPoller] at hquit
              split at hquit
              · exact hquit
              · split at hquit <;> exact hquit
      | _ => exact hquit
  | shutdown pc =>
      cases pc with
      | setQuit =>
          cases hq
          exact .inr rfl
      | _ => exact .inl hquit

theorem hasQuit_of_step (hp : HasQuit p) (hq : (code dispatch poll m p).next? = some q) :
    HasQuit q := by
  cases p with
  | worker i k pc => exact hp.elim
  | poller which k pc => exact hp.elim
  | shutdown pc =>
      cases pc with
      | lock | setQuit => exact hp.elim
      | broadcast | unlock =>
          cases hq
          trivial
      | returned => cases hq

theorem returned_of_hasQuit (hp : HasQuit p) (hout : ¬ inside p .mutex) :
    p = .shutdown .returned := by
  cases p with
  | worker i k pc => exact hp.elim
  | poller which k pc => exact hp.elim
  | shutdown pc =>
      cases pc with
      | lock | setQuit => exact hp.elim
      | broadcast | unlock => exact absurd trivial hout
      | returned => rfl

/-- The timer tests `m->quit` in its critical section. -/
theorem seesQuit_of_step (hq : (code dispatch poll m p).next? = some q) (hsees : SeesQuit q) :
    SeesQuit p ∨ m.quit ≠ 0 ∧ inside p .mutex := by
  cases p with
  | worker i k pc =>
      have hstepped := stepped_worker (m := m) hq
      have hat : At (.inl i) q := hstepped.thread (.inl i) rfl
      cases q with
      | worker j k' pc' => exact hsees.elim
      | poller which k' pc' => exact hat.elim
      | shutdown pc' => exact hat.elim
  | shutdown pc =>
      have hat : At (.inr .shutdown) q :=
        (stepped_shutdown (m := m) hq).thread (.inr .shutdown) trivial
      cases q with
      | worker j k' pc' => exact hat.elim
      | poller which k' pc' => exact hat.elim
      | shutdown pc' => exact hsees.elim
  | poller which k pc =>
      cases which with
      | socket =>
          have hat : At (.inr .socket) q :=
            (stepped_poller (m := m) hq).thread (.inr .socket) trivial
          cases q with
          | worker j k' pc' => exact hat.elim
          | poller which k' pc' => cases which <;> first | exact hat.elim | exact hsees.elim
          | shutdown pc' => exact hat.elim
      | timer =>
          cases pc with
          | loopTest =>
              cases hq
              by_cases hquit : m.quit = 0
              · simp [hquit, SeesQuit] at hsees
              · exact .inr ⟨hquit, trivial⟩
          | breakUnlock => exact .inl trivial
          | wakeupTest busy =>
              cases hq
              split at hsees <;> exact hsees.elim
          | exited => cases hq
          | loopLock | loopUnlock | poll | wakeupLock busy | wakeupSignal | wakeupUnlock =>
              cases hq
              exact hsees.elim

theorem at_shutdown {i : Tid n} {pc : ShutdownPc} (h : At i (.shutdown pc)) :
    i = .inr .shutdown := by
  rcases i with i | service
  · exact h.elim
  · cases service <;> first | rfl | exact h.elim

/-- A step of a thread is one of the monitor's program. -/
theorem step_of_thread (hq : (processCode dispatch poll s (.thread p)).next? = some Q) :
    ∃ q, Q = .thread q ∧ s.Begun p ∧ (code dispatch poll s.monitor p).next? = some q ∧
      (processCode dispatch poll s (.thread p)).after s =
        s.setMonitor ((code dispatch poll s.monitor p).after s.monitor) := by
  by_cases hbegun : s.Begun p
  · rw [processCode_of_begun hbegun] at hq ⊢
    rw [Op.next?_map, Option.map_eq_some_iff] at hq
    obtain ⟨q, hnext, rfl⟩ := hq
    exact ⟨q, rfl, hbegun, hnext, Op.after_map rfl⟩
  · simp [processCode, hbegun, Op.next?] at hq

theorem StartPc.Keeps.congr {pc : StartPc} (h : pc.Keeps n s) (m : Monitor) :
    pc.Keeps n (s.setMonitor m) := by
  cases pc <;> exact h

theorem Ordered.step_thread (h : Ordered s ps) {i : Tid n}
    (halone : Alone processInside Resting ps (some i))
    (hq : (processCode dispatch poll s (ps (some i))).next? = some Q) :
    Ordered ((processCode dispatch poll s (ps (some i))).after s)
      (Function.update ps (some i) Q) := by
  obtain ⟨p, hp, hat⟩ := h.thread i
  obtain ⟨pc, hpc, hjoined, hkeeps⟩ := h.start
  rw [hp] at hq ⊢
  obtain ⟨q, rfl, -, hnext, hafter⟩ := step_of_thread hq
  rw [hafter]
  have hat' : At i q := (stepped hnext).thread i hat
  have hgoing : ¬ (p.Left ∨ p = .shutdown .returned) := by
    intro hend
    have hhalt : isHalt (code dispatch poll s.monitor p) = true := (isHalt_code _ p).mpr hend
    cases hop : code dispatch poll s.monitor p <;> simp [hop, isHalt, Op.next?] at hhalt hnext
  refine ⟨⟨pc, by simpa using hpc, hjoined.congr fun t ht => ?_, hkeeps.congr _⟩, fun t => ?_,
    fun hquit => ?_, fun r hr hsees => ?_⟩
  · have hne : t ≠ i := by
      rintro rfl
      rw [hp] at ht
      exact hgoing (.inl ht)
    simpa [hne] using ht
  · by_cases ht : t = i
    · subst ht
      exact ⟨q, by simp, hat'⟩
    · simpa [ht] using h.thread t
  · rcases quit_of_step hnext hquit with hset | rfl
    · obtain ⟨r, hr, hhas⟩ := h.quit hset
      by_cases hi : i = .inr .shutdown
      · subst hi
        obtain rfl : p = r := by simpa [hp] using hr
        exact ⟨q, by simp, hasQuit_of_step hhas hnext⟩
      · exact ⟨r, by simpa [Ne.symm hi] using hr, hhas⟩
    · obtain rfl := at_shutdown hat'
      exact ⟨.shutdown .broadcast, by simp, trivial⟩
  · by_cases hi : i = .inr .timer
    · subst hi
      obtain rfl : q = r := by simpa using hr
      have hreturned : ps (some (.inr .shutdown)) = .thread (.shutdown .returned) := by
        rcases seesQuit_of_step hnext hsees with hbefore | ⟨hset, hin⟩
        · exact h.timer p hp hbefore
        · obtain ⟨r, hr, hhas⟩ := h.quit hset
          have hout : ¬ inside r .mutex := by
            intro hrin
            obtain ⟨j, k, hrest⟩ := halone (some (.inr .shutdown)) .mutex (by simp)
              (by rwa [hp]) (by rwa [hr])
            rw [hr] at hrest
            cases hrest
            exact hhas
          rw [hr, returned_of_hasQuit hhas hout]
      simpa using hreturned
    · have hr' : ps (some (.inr .timer)) = .thread r := by simpa [Ne.symm hi] using hr
      have hreturned := h.timer r hr' hsees
      have hne : i ≠ .inr .shutdown := by
        rintro rfl
        rw [hreturned] at hp
        cases hp
        exact hgoing (.inr rfl)
      simpa [Ne.symm hne] using hreturned

abbrev TimelyRun (dispatch : Fin n → ℕ → ℤ) (poll : ℕ → ℤ) :
    Config (Thread n) Process (ProcessPoint n) Mutex Cond → Prop :=
  (process dispatch poll).ReachableBy (Meets PollersLeft fun _ _ _ => True)

theorem ordered_of_timely (h : TimelyRun dispatch poll c) : Ordered c.shared (points c) := by
  apply conditional_join_invariant (P := fun s ps _ => Ordered s ps) tracks_processCode
    resting_of_wait not_inside_start h ordered_start
  · intro s ps sl sl' t Q hordered _ hgood halone hjoins hq _
    cases t with
    | none => exact hordered.step_start hgood hjoins hq
    | some i => exact hordered.step_thread halone hq
  · exact fun s ps sl t cv hordered _ _ => hordered

/-! ## Result -/

/-- The operation at this point locks, signals, reads or writes the monitor. -/
def Point.Uses : Point n → Prop
  | .worker _ _ .dispatch | .worker _ _ .exited | .poller .socket _ .poll | .poller _ _ .exited
  | .shutdown .returned => False
  | _ => True

def ProcessPoint.Uses : ProcessPoint n → Prop
  | .start _ => False
  | .thread p => p.Uses

/-- Behind the joins of `skynet_start` the threads that it has created have left, and no thread uses
the monitor once its mutex has been destroyed. -/
structure Orderly (dispatch : Fin n → ℕ → ℤ) (poll : ℕ → ℤ)
    (c : Config (Thread n) Process (ProcessPoint n) Mutex Cond) : Prop where
  terminated : ∀ pc, c.threads none = .running (.start pc) → pc.Behind →
    ∀ t, t ≠ .inr .shutdown → ∃ p, c.threads (some t) = .running (.thread p) ∧ p.Left
  untouched : c.shared.destroyed = true →
    ∀ t w c', (process dispatch poll).step c (.run t w) = some c' → ¬ (points c t).Uses

theorem left_of_joined {pc : StartPc} (hjoined : pc.Joined ps) (hbehind : pc.Behind) (i : Tid n)
    (hi : i ≠ .inr .shutdown) : (ps (some i)).Left := by
  have hall : (∀ j : Fin n, (ps (some (.inl j))).Left) ∧
      (ps (some (.inr .timer))).Left ∧ (ps (some (.inr .socket))).Left := by
    cases pc with
    | create i => exact hbehind.elim
    | join i => exact hbehind.elim
    | _ => exact hjoined
  rcases i with j | service
  · exact hall.1 j
  · cases service with
    | timer => exact hall.2.1
    | socket => exact hall.2.2
    | shutdown => exact absurd rfl hi

/-- Behind the joins `skynet_shutdown` has returned: the timer has seen `m->quit`. -/
theorem Ordered.returned (h : Ordered s ps) (hleft : (ps (some (.inr .timer))).Left) :
    ps (some (.inr .shutdown)) = .thread (.shutdown .returned) := by
  obtain ⟨p, hp, hat⟩ := h.thread (.inr .timer)
  refine h.timer p hp ?_
  rw [hp] at hleft
  cases p with
  | worker i k pc => exact hat.elim
  | shutdown pc => exact hat.elim
  | poller which k pc =>
      cases which with
      | socket => exact hat.elim
      | timer =>
          obtain rfl : pc = .exited := hleft
          trivial

theorem no_step_of_isHalt {w : Option (Thread n)} (ht : c.threads t = .running P)
    (hhalt : isHalt (processCode dispatch poll c.shared P) = true) :
    (process dispatch poll).step c (.run t w) = none := by
  simp only [process, Pthread.program, step, ht]
  cases hop : processCode dispatch poll c.shared P <;> simp [hop, isHalt, exec] at hhalt ⊢

theorem isHalt_processCode (h : p.Left ∨ p = .shutdown .returned) :
    isHalt (processCode dispatch poll s (.thread p)) = true := by
  simp only [processCode]
  split
  · rw [isHalt_map, isHalt_code]
    exact h
  · rfl

theorem orderly_of_timely (h : TimelyRun dispatch poll c) : Orderly dispatch poll c := by
  have hordered := ordered_of_timely h
  obtain ⟨pc, hpc, hjoined, hkeeps⟩ := hordered.start
  constructor
  · intro pc' hpc' hbehind i hi
    obtain rfl : pc' = pc := by simpa [points_of_running hpc'] using hpc
    have hleft := left_of_joined hjoined hbehind i hi
    obtain ⟨p, hp, -⟩ := hordered.thread i
    have hrest : ¬ Resting (points c (some i)) := by
      rintro ⟨j, k, hjk⟩
      rw [hjk] at hleft
      cases hleft
    have hrunning := running_of_not_resting resting_of_wait h.reachable hrest
    rw [hp] at hrunning hleft
    exact ⟨p, hrunning, hleft⟩
  · intro hdestroyed t w c' hs huses
    have hbehind : pc.Behind := by
      cases pc <;> simp_all [StartPc.Keeps, StartPc.Behind]
    cases t with
    | none =>
        rw [hpc] at huses
        exact huses
    | some i =>
        obtain ⟨p, hp, hat⟩ := hordered.thread i
        have hend : p.Left ∨ p = .shutdown .returned := by
          by_cases hi : i = .inr .shutdown
          · subst hi
            have htimer := left_of_joined hjoined hbehind (.inr .timer) (by simp)
            have hreturned := hordered.returned htimer
            rw [hp] at hreturned
            cases hreturned
            exact .inr rfl
          · have hleft := left_of_joined hjoined hbehind i hi
            rw [hp] at hleft
            exact .inl hleft
        have hrest : ¬ Resting (points c (some i)) := by
          rintro ⟨j, k, hjk⟩
          rw [hjk] at hp
          cases hp
          rcases hend with hleft | hreturned
          · cases hleft
          · cases hreturned
        have hrunning := running_of_not_resting resting_of_wait h.reachable hrest
        rw [hp] at hrunning
        rw [no_step_of_isHalt hrunning (isHalt_processCode hend)] at hs
        cases hs

end PthreadBenchmark.Skynet
