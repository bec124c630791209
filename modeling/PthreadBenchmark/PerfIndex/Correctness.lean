import PthreadBenchmark.PerfIndex.Model
import PthreadBenchmark.Shared.PthreadReturns

/-! # The threads start together unless a wait ends too early -/

namespace PthreadBenchmark.PerfIndex

open Pthread

variable {n : ℕ} {s s' : Shared} {ps : Option (Fin n) → Point}
  {sl sl' : Option (Fin n) → Option Cond}
  {w w' : Watched (Option (Fin n)) Shared Point Mutex Cond}

/-! ## The start barrier -/

/-- The points of `main` behind its broadcast. -/
def Point.Joins : Point → Prop
  | .mainJoin _ => True
  | _ => False

instance (p : Point) : Decidable p.Joins :=
  match p with
  | .mainJoin _ => isTrue trivial
  | .setupLock | .setupCount | .setupTest | .setupSignal | .setupWait | .setupUnlock
  | .execute | .executed | .mainLock | .mainTest | .mainUnlock | .mainBroadcast => isFalse id

/-- The points of a thread behind its wait and its unlock. -/
def Point.Executes : Point → Prop
  | .execute | .executed => True
  | _ => False

/-- What the start barrier is for. -/
structure StartBarrier (n : ℕ) (c : Config (Option (Fin n)) Shared Point Mutex Cond) : Prop where
  ready : points c none = .mainBroadcast → c.shared.readyThreadCount = n
  execute : ∀ i : Fin n, (points c (some i)).Executes → (points c none).Joins
  awake : (points c none).Joins → ∀ i : Fin n, ¬ AsleepOn .startCvar (c.threads (some i))

/-- A thread whose wait has ended without a signal may go on only when what it waits for has come:
`main` when all threads are ready, the others when `main` has broadcast. -/
def Timely (n : ℕ) (s : Shared) (ps : Option (Fin n) → Point) : Option (Fin n) → Prop
  | none => s.readyThreadCount = n
  | some _ => (ps none).Joins

instance (n : ℕ) (s : Shared) (ps : Option (Fin n) → Point) (i : Option (Fin n)) :
    Decidable (Timely n s ps i) :=
  match i with
  | none => inferInstanceAs (Decidable (s.readyThreadCount = n))
  | some _ => inferInstanceAs (Decidable (ps none).Joins)

/-! ## The mutex -/

def inside : Point → Mutex → Prop
  | .setupCount, _ | .setupTest, _ | .setupSignal, _ | .setupWait, _ | .setupUnlock, _
  | .mainTest, _ | .mainUnlock, _ => True
  | _, _ => False

/-- The points behind the two waits. -/
def Resting (p : Point) : Prop := p = .setupUnlock ∨ p = .mainUnlock

theorem tracks_code (s : Shared) (p : Point) : Tracks inside p (code n s p) := by
  cases p with
  | setupTest =>
      simp only [code, Tracks]
      split <;> exact fun _ => Iff.rfl
  | mainTest =>
      simp only [code]
      split
      · exact ⟨trivial, fun _ => Iff.rfl⟩
      · exact fun _ => Iff.rfl
  | mainJoin i =>
      simp only [code]
      split
      · exact fun _ => Iff.rfl
      · trivial
  | _ => simp [code, Tracks, inside]

theorem resting_of_wait (s : Shared) (p : Point) (cond : Cond) (m : Mutex) (q : Point)
    (h : code n s p = .wait cond m q) : Resting q := by
  cases p <;> simp only [code, reduceCtorEq, Op.wait.injEq] at h
  case setupWait => exact .inl h.2.2.symm
  case mainTest =>
    split at h
    · cases h
      exact .inr rfl
    · cases h
  case mainJoin i => split at h <;> cases h

/-! ## The invariant -/

/-- The points of a thread that is not yet counted. -/
def uncounted : Point → ℕ
  | .setupLock | .setupCount => 1
  | _ => 0

/-- How a thread can sleep at its point; `joins` says whether `main` has broadcast. -/
def SetupFine (n : ℕ) (joins : Prop) (s : Shared) (asleep : Option Cond) : Point → Prop
  | .setupLock | .setupCount | .setupTest | .setupWait => ¬ joins ∧ asleep = none
  | .setupSignal => ¬ joins ∧ asleep = none ∧ s.readyThreadCount = n
  | .setupUnlock => (joins ∧ asleep = none) ∨ (¬ joins ∧ asleep = some .startCvar)
  | .execute | .executed => joins ∧ asleep = none
  | _ => False

def MainFine (n : ℕ) (s : Shared) (asleep : Option Cond) : Point → Prop
  | .mainLock | .mainTest | .mainJoin _ => asleep = none
  | .mainUnlock => asleep = some .threadsReadyCvar ∨ (asleep = none ∧ s.readyThreadCount = n)
  | .mainBroadcast => asleep = none ∧ s.readyThreadCount = n
  | _ => False

structure Barred (n : ℕ) (s : Shared) (ps : Option (Fin n) → Point)
    (sl : Option (Fin n) → Option Cond) : Prop where
  counted : s.readyThreadCount + weight uncounted ps = n
  setup : ∀ i, SetupFine n (ps none).Joins s (sl (some i)) (ps (some i))
  main : MainFine n s (sl none) (ps none)
  arrived : ps none = .mainBroadcast → ∀ i, ps (some i) = .setupUnlock

theorem barred_start : Barred n ⟨0⟩ start fun _ => none := by
  refine ⟨?_, fun i => ⟨id, rfl⟩, rfl, fun h => by cases h⟩
  have hthreads : weight uncounted (start : Option (Fin n) → Point) = ∑ _i : Fin n, 1 := by
    rw [weight, Fintype.sum_option]
    simp [start, uncounted]
  rw [hthreads]
  simp

/-- A step of the thread `k`. -/
theorem Barred.update_thread (h : Barred n s ps sl) {k : Fin n} {q : Point}
    (hcount : s'.readyThreadCount + uncounted q = s.readyThreadCount + uncounted (ps (some k)))
    (hk : SetupFine n (ps none).Joins s' (sl' (some k)) q)
    (hothers : ∀ i, i ≠ k → SetupFine n (ps none).Joins s' (sl' (some i)) (ps (some i)))
    (hmain : MainFine n s' (sl' none) (ps none)) (hwaits : ps none ≠ .mainBroadcast) :
    Barred n s' (Function.update ps (some k) q) sl' := by
  have hnone : Function.update ps (some k) q none = ps none :=
    Function.update_of_ne (by simp) _ _
  have hweight := weight_update uncounted ps (some k) q
  have hcounted := h.counted
  refine ⟨by omega, fun i => ?_, by rwa [hnone], fun hb => absurd (hnone ▸ hb) hwaits⟩
  rw [hnone]
  by_cases hi : i = k
  · subst hi
    rwa [Function.update_self]
  · rw [Function.update_of_ne (by simpa using hi)]
    exact hothers i hi

/-- A step of `main`. -/
theorem Barred.update_main (h : Barred n s ps sl) {q : Point}
    (hcount : uncounted q = uncounted (ps none))
    (hthreads : ∀ i, SetupFine n q.Joins s (sl' (some i)) (ps (some i)))
    (hmain : MainFine n s (sl' none) q)
    (harrived : q = .mainBroadcast → ∀ i, ps (some i) = .setupUnlock) :
    Barred n s (Function.update ps none q) sl' := by
  have hsome : ∀ i : Fin n, Function.update ps none q (some i) = ps (some i) :=
    fun i => Function.update_of_ne (by simp) _ _
  have hweight := weight_update uncounted ps none q
  have hcounted := h.counted
  refine ⟨by omega, fun i => ?_, ?_, fun hb i => ?_⟩
  · rw [Function.update_self, hsome]
    exact hthreads i
  · rwa [Function.update_self]
  · rw [Function.update_self] at hb
    rw [hsome]
    exact harrived hb i

/-- Once all threads are counted, none is about to count itself. -/
theorem Barred.uncounted_eq_zero (h : Barred n s ps sl) (hall : s.readyThreadCount = n)
    (i : Option (Fin n)) : uncounted (ps i) = 0 := by
  have hle := le_weight uncounted ps i
  have hcounted := h.counted
  omega

/-- The wait of `main` is over: by the signal, or when it goes on in time. -/
theorem Barred.wake_main (h : Barred n s ps sl) {cond : Cond} (hcond : sl none = some cond)
    (hready : s.readyThreadCount = n) : Barred n s ps (Function.update sl none none) := by
  refine ⟨h.counted, fun i => ?_, ?_, h.arrived⟩
  · rw [Function.update_of_ne (by simp)]
    exact h.setup i
  · have hmain := h.main
    rw [hcond] at hmain
    rw [Function.update_self]
    cases hp : ps none <;> rw [hp] at hmain <;> simp [MainFine] at hmain
    exact .inr ⟨rfl, hready⟩

theorem Barred.step_thread (h : Barred n s ps sl) {k : Fin n} {q : Point}
    (hawake : sl (some k) = none) (halone : Alone inside Resting ps (some k))
    (hq : (code n s (ps (some k))).next? = some q)
    (hsleeps : Sleeps (some k) sl sl' (code n s (ps (some k)))) :
    Barred n ((code n s (ps (some k))).after s) (Function.update ps (some k) q) sl' := by
  have hfine := h.setup k
  -- while `main` is about to broadcast, all threads sleep
  have hwaits : ps none ≠ .mainBroadcast := by
    intro hb
    rw [h.arrived hb k, hawake, hb] at hfine
    simp [SetupFine, Point.Joins] at hfine
  rw [hawake] at hfine
  cases hp : ps (some k) <;> rw [hp] at hfine hq hsleeps <;> try exact hfine.elim
  case setupLock =>
    cases hq
    cases hsleeps
    exact h.update_thread (by rw [hp]; rfl) (by rw [hawake]; exact hfine)
      (fun i _ => h.setup i) h.main hwaits
  case setupCount =>
    cases hq
    cases hsleeps
    have hcounted := h.counted
    have hle := le_weight uncounted ps (some k)
    rw [hp] at hle
    have hlt : s.readyThreadCount < n := by
      simp only [uncounted] at hle
      omega
    refine h.update_thread (by rw [hp]; rfl) (by rw [hawake]; exact hfine) (fun i hi => ?_) ?_
      hwaits
    · have hsetup := h.setup i
      cases hpi : ps (some i) <;> rw [hpi] at hsetup <;> try exact hsetup
      have hresting := halone (some i) .readyThreadCountLock (by simpa using hi)
        (by rw [hp]; trivial) (by rw [hpi]; trivial)
      rw [hpi] at hresting
      rcases hresting with hresting | hresting <;> cases hresting
    · have hmain := h.main
      cases hpm : ps none <;> rw [hpm] at hmain <;> try exact hmain
      · exact hmain.imp_right fun hready => absurd hready.2 hlt.ne
      · exact absurd hmain.2 hlt.ne
  case setupTest =>
    cases hq
    cases hsleeps
    refine h.update_thread ?_ ?_ (fun i _ => h.setup i) h.main hwaits
    · rw [hp]
      split <;> rfl
    · rw [hawake]
      split
      · exact ⟨hfine.1, rfl, ‹_›⟩
      · exact hfine
  case setupSignal =>
    cases hq
    obtain ⟨hjoins, -, hready⟩ := hfine
    have hmoved : Barred n s (Function.update ps (some k) .setupWait) sl :=
      h.update_thread (by rw [hp]; rfl) ⟨hjoins, hawake⟩ (fun i _ => h.setup i) h.main hwaits
    rcases hsleeps with rfl | ⟨j, hj, rfl⟩
    · exact hmoved
    · -- only `main` sleeps on this condition variable
      cases j with
      | some i =>
          have hsetup := h.setup i
          rw [hj] at hsetup
          cases hpi : ps (some i) <;> rw [hpi] at hsetup <;> simp [SetupFine] at hsetup
      | none => exact hmoved.wake_main hj hready
  case setupWait =>
    cases hq
    cases hsleeps
    have hne : ∀ i : Option (Fin n), i ≠ some k →
        Function.update sl (some k) (some Cond.startCvar) i = sl i :=
      fun i hi => Function.update_of_ne hi _ _
    refine h.update_thread (by rw [hp]; rfl) ?_ (fun i hi => ?_) ?_ hwaits
    · rw [Function.update_self]
      exact .inr ⟨hfine.1, rfl⟩
    · rw [hne _ (by simpa using hi)]
      exact h.setup i
    · rw [hne none (by simp)]
      exact h.main
  case setupUnlock =>
    cases hq
    cases hsleeps
    have hjoins : (ps none).Joins := by simpa [SetupFine] using hfine
    exact h.update_thread (by rw [hp]; rfl) ⟨hjoins, hawake⟩ (fun i _ => h.setup i) h.main hwaits
  case execute =>
    cases hq
    cases hsleeps
    exact h.update_thread (by rw [hp]; rfl) (by rw [hawake]; exact hfine)
      (fun i _ => h.setup i) h.main hwaits
  case executed => cases hq

theorem Barred.step_main (h : Barred n s ps sl) {q : Point} (hawake : sl none = none)
    (halone : Alone inside Resting ps none) (hq : (code n s (ps none)).next? = some q)
    (hsleeps : Sleeps none sl sl' (code n s (ps none))) :
    Barred n ((code n s (ps none)).after s) (Function.update ps none q) sl' := by
  have hmain := h.main
  have hsetup := h.setup
  rw [hawake] at hmain
  cases hp : ps none <;> rw [hp] at hmain hq hsleeps hsetup <;> try exact hmain.elim
  case mainLock =>
    cases hq
    cases hsleeps
    exact h.update_main (by rw [hp]; rfl) hsetup hawake fun hb => by cases hb
  case mainTest =>
    simp only [code] at hq hsleeps ⊢
    split at hq
    · next hne =>
        cases hq
        rw [if_pos hne] at hsleeps ⊢
        cases hsleeps
        refine h.update_main (by rw [hp]; rfl) (fun i => ?_) ?_ fun hb => by cases hb
        · rw [Function.update_of_ne (by simp)]
          exact hsetup i
        · rw [Function.update_self]
          exact .inl rfl
    · next hready =>
        cases hq
        rw [if_neg hready] at hsleeps ⊢
        cases hsleeps
        exact h.update_main (by rw [hp]; rfl) hsetup (.inr ⟨hawake, not_not.mp hready⟩)
          fun hb => by cases hb
  case mainUnlock =>
    cases hq
    cases hsleeps
    have hready : s.readyThreadCount = n := by simpa [MainFine] using hmain
    refine h.update_main (by rw [hp]; rfl) hsetup ⟨hawake, hready⟩ fun _ i => ?_
    -- a counted thread that is not behind the wait would be inside of the mutex
    have hcounted := h.uncounted_eq_zero hready (some i)
    have hrest := halone (some i) .readyThreadCountLock (by simp) (by rw [hp]; trivial)
    have hi := hsetup i
    cases hpi : ps (some i) <;> rw [hpi] at hcounted hrest hi <;>
      simp_all [uncounted, inside, Resting, SetupFine, Point.Joins]
  case mainBroadcast =>
    cases hq
    cases hsleeps
    refine h.update_main (by rw [hp]; rfl) (fun i => ?_) (by simp [MainFine, hawake])
      fun hb => by cases hb
    have hi := hsetup i
    rw [h.arrived hp i] at hi ⊢
    rcases hi with ⟨hjoins, -⟩ | ⟨-, hasleep⟩
    · exact hjoins.elim
    · exact .inl ⟨trivial, by simp [hasleep]⟩
  case mainJoin i =>
    simp only [code] at hq hsleeps ⊢
    split at hq
    · next hlt =>
        cases hq
        rw [dif_pos hlt] at hsleeps ⊢
        cases hsleeps
        exact h.update_main (by rw [hp]; rfl) hsetup hawake fun hb => by cases hb
    · cases hq

/-- The program with a record of the waits that have ended without a signal. -/
abbrev watched (n : ℕ) : System (Watched (Option (Fin n)) Shared Point Mutex Cond)
    (Action (Option (Fin n))) :=
  watchedProgram (code n) ⟨0⟩ start

abbrev TimelyRun (n : ℕ) : Watched (Option (Fin n)) Shared Point Mutex Cond → Prop :=
  (watched n).ReachableBy (GoesOn (fun _ _ _ => True) (Timely n))

/-- In a run in which no thread goes on too early the barrier is in one of its phases. -/
theorem barred_of_timely (h : TimelyRun n w) :
    Barred n w.config.shared (points w.config) (waiting w) := by
  apply returning_invariant tracks_code resting_of_wait _ h barred_start
  · intro s ps sl sl' i q hinv hawake _ halone hq hsleeps
    cases i with
    | none => exact hinv.step_main hawake halone hq hsleeps
    | some k => exact hinv.step_thread hawake halone hq hsleeps
  · intro s ps sl i cond hinv htimely hcond
    cases i with
    | none => exact hinv.wake_main hcond htimely
    | some k =>
        -- behind the broadcast nobody sleeps
        have hsetup := hinv.setup k
        have hjoins : (ps none).Joins := htimely
        rw [hcond] at hsetup
        cases hp : ps (some k) <;> rw [hp] at hsetup <;> simp [SetupFine, hjoins] at hsetup
  · intro i m hin
    cases i <;> exact hin

/-! ## Results -/

theorem Barred.startBarrier
    (h : Barred n w.config.shared (points w.config) (waiting w)) : StartBarrier n w.config := by
  have hmain := h.main
  refine ⟨fun hb => ?_, fun i hi => ?_, fun hjoins i hasleep => ?_⟩
  · rw [hb] at hmain
    exact hmain.2
  · have hsetup := h.setup i
    cases hp : points w.config (some i) <;> rw [hp] at hsetup hi <;> try exact hi.elim
    · exact hsetup.1
    · exact hsetup.1
  · have hsetup := h.setup i
    rw [waiting_of_asleep hasleep] at hsetup
    cases hp : points w.config (some i) <;> rw [hp] at hsetup <;>
      simp [SetupFine, hjoins] at hsetup

/-- A thread that goes on too early executes the test, and `main` broadcasts. -/
theorem not_startBarrier_of_early (h : TimelyRun n w) {a : Action (Option (Fin n))}
    (hs : (watched n).step w a = some w')
    (hbad : ¬ GoesOn (fun _ _ _ => True) (Timely n) w a) : ¬ StartBarrier n w'.config := by
  have hinv := barred_of_timely h
  obtain ⟨i, q, hq, hpoints, hshared, hnot | ⟨⟨cond, hcond⟩, hlate⟩⟩ :=
    exists_of_not_goesOn h.reachable hs hbad
  · exact absurd trivial hnot
  intro hbarrier
  apply hlate
  cases i with
  | none =>
      have hmain := hinv.main
      rw [hcond] at hmain
      cases hp : points w.config none <;> rw [hp] at hmain hq hshared <;>
        simp [MainFine] at hmain
      cases hq
      have hready := hbarrier.ready (by rw [hpoints, Function.update_self])
      rw [hshared] at hready
      exact hready
  | some k =>
      have hsetup := hinv.setup k
      rw [hcond] at hsetup
      cases hp : points w.config (some k) <;> rw [hp] at hsetup hq <;>
        simp [SetupFine] at hsetup
      cases hq
      have hjoins := hbarrier.execute k (by rw [hpoints, Function.update_self]; trivial)
      rwa [hpoints, Function.update_of_ne (by simp)] at hjoins

/-- For any number of threads and any interleaving in which a thread whose wait has ended without a
signal goes on only when what it waits for has come: `main` broadcasts when all threads are ready,
no thread executes the test before, and none sleeps while `main` joins. The first thread to go on
too early breaks this. -/
theorem start_barrier_of_timely (n : ℕ) (w : Watched (Option (Fin n)) Shared Point Mutex Cond)
    (h : TimelyRun n w) : StartBarrier n w.config ∧
      ∀ a w', (watched n).step w a = some w' →
        ¬ GoesOn (fun _ _ _ => True) (Timely n) w a → ¬ StartBarrier n w'.config :=
  ⟨(barred_of_timely h).startBarrier, fun _ _ hs => not_startBarrier_of_early h hs⟩

/-- One thread: `main` sleeps and wakes up without a signal at once, but goes on only when the
thread has counted itself, and starts it. -/
def startedOnTime (i : Fin 1) : Option (Watched (Option (Fin 1)) Shared Point Mutex Cond) :=
  ((watched 1).guarded (GoesOn (fun _ _ _ => True) (Timely 1))).exec (watched 1).init
    (List.replicate 2 (Action.run none none) ++ [Action.spurious none] ++
      List.replicate 5 (Action.run (some i) none) ++ List.replicate 3 (Action.run none none) ++
      List.replicate 3 (Action.run (some i) none) ++ [Action.run none none])

theorem start_barrier_of_timely_one : ∃ w, startedOnTime 0 = some w ∧ StartBarrier 1 w.config ∧
    points w.config (some 0) = .executed ∧ points w.config none = .mainJoin 1 := by
  have hrun : (startedOnTime 0).isSome = true := by decide
  have hreach : TimelyRun 1 ((startedOnTime 0).get hrun) := .of_exec (Option.some_get hrun).symm
  exact ⟨(startedOnTime 0).get hrun, (Option.some_get hrun).symm,
    (start_barrier_of_timely 1 _ hreach).1, rfl, rfl⟩

/-- One thread wakes up without a signal before `main` has looked. -/
def startedEarly (i : Fin 1) : Option (Config (Option (Fin 1)) Shared Point Mutex Cond) :=
  (program 1).exec (program 1).init
    (List.replicate 5 (Action.run (some i) none) ++ [Action.spurious (some i)] ++
      List.replicate 3 (Action.run (some i) none))

/-- A spurious wakeup lets a thread execute the test before the broadcast. -/
theorem start_barrier_fails : ∃ c, (program 1).Reachable c ∧ ¬ StartBarrier 1 c := by
  have hrun : (startedEarly 0).isSome = true := by decide
  exact ⟨(startedEarly 0).get hrun, System.Reachable.init.exec (Option.some_get hrun).symm,
    fun h => h.execute 0 trivial⟩

end PthreadBenchmark.PerfIndex
