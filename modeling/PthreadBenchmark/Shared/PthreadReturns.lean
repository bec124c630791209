import PthreadBenchmark.Shared.PthreadConditions

/-! # Waits that end without a signal

A thread that wakes up without a signal does no harm as long as it has not gone on behind its wait.
A condition on how such threads go on has to know which ones they are. For this a program can be run
with a record of them, which no thread reads. -/

namespace PthreadBenchmark

/-- A state, and for each thread that has woken up without a signal the condition variable on which
it had slept, until the thread goes on behind its wait. -/
structure Watched (ι σ π μ κ : Type*) where
  config : Config ι σ π μ κ
  early : ι → Option κ

namespace Pthread

variable {ι σ π μ κ : Type*} [DecidableEq ι] [DecidableEq κ] {i : ι}

/-- A broadcast comes to those too that have woken up before it. -/
def recalled (early : ι → Option κ) : Op ι σ π μ κ → ι → Option κ
  | .broadcast cond _ => fun j => if early j = some cond then none else early j
  | _ => early

def earlyAfter (code : σ → π → Op ι σ π μ κ) (w : Watched ι σ π μ κ) : Action ι → ι → Option κ
  | .run i _ =>
    match w.config.threads i with
    | .running p => Function.update (recalled w.early (code w.config.shared p)) i none
    | _ => w.early
  | .spurious i => Function.update w.early i (sleepers w.config i)

/-- The condition variables for which the threads wait, a wait without a signal not being over. -/
def waiting (w : Watched ι σ π μ κ) : ι → Option κ :=
  fun i => (sleepers w.config i).or (w.early i)

/-- Nobody has woken up who still sleeps. -/
def Apart (sl early : ι → Option κ) : Prop := ∀ j, sl j = none ∨ early j = none

/-- Behind a step of an awake thread the waits have changed as the sleepers have. -/
theorem Sleeps.waiting {sl sl' early : ι → Option κ} {op : Op ι σ π μ κ} (hapart : Apart sl early)
    (hawake : sl i = none) (h : Sleeps i sl sl' op) :
    Sleeps i (Function.update (fun j => (sl j).or (early j)) i none)
        (fun j => (sl' j).or (Function.update (recalled early op) i none j)) op ∧
      Apart sl' (Function.update (recalled early op) i none) := by
  have hsame : sl' = sl → recalled early op = early →
      (fun j => (sl' j).or (Function.update (recalled early op) i none j)) =
          Function.update (fun j => (sl j).or (early j)) i none ∧
        Apart sl' (Function.update (recalled early op) i none) := by
    rintro rfl hearly
    rw [hearly]
    refine ⟨funext fun j => ?_, fun j => ?_⟩
    · by_cases hj : j = i <;> simp [hj, hawake]
    · have hj := hapart j
      rw [Function.update_apply]
      split
      · exact .inr rfl
      · exact hj
  cases op with
  | wait cond m next =>
      obtain rfl : sl' = _ := h
      refine ⟨funext fun j => ?_, fun j => ?_⟩
      · by_cases hj : j = i <;> simp [Function.update_apply, recalled, hj]
      · by_cases hj : j = i <;> simp [Function.update_apply, recalled, hj, hapart j]
  | signal cond next =>
      rcases h with rfl | ⟨k, hk, rfl⟩
      · obtain ⟨heq, hafter⟩ := hsame rfl rfl
        exact ⟨.inl heq, hafter⟩
      · have hne : k ≠ i := by
          rintro rfl
          rw [hawake] at hk
          cases hk
        have hnone : early k = none := (hapart k).resolve_left (by simp [hk])
        refine ⟨.inr ⟨k, by simp [hne, hk], funext fun j => ?_⟩, fun j => ?_⟩
        · by_cases hj : j = k
          · subst hj
            simp [recalled, hne, hnone]
          · by_cases hji : j = i <;> simp [Function.update_apply, recalled, hj, hji, hawake]
        · by_cases hj : j = k
          · exact .inl (by simp [hj])
          · by_cases hji : j = i <;> simp [Function.update_apply, recalled, hj, hji, hapart j]
  | broadcast cond next =>
      obtain rfl : sl' = _ := h
      refine ⟨funext fun j => ?_, fun j => ?_⟩
      · by_cases hj : j = i
        · simp [hj, hawake]
        · rcases hapart j with hnone | hnone <;>
            simp [Function.update_of_ne hj, recalled, hnone]
      · by_cases hj : j = i
        · simp [hj]
        · rcases hapart j with hnone | hnone <;>
            simp [Function.update_of_ne hj, recalled, hnone]
  | _ => exact hsame h rfl

/-- A condition on the steps of a program: `good` for a thread that goes on past its operation, and
`timely` too if it does so behind a wait that has ended without a signal. -/
def GoesOn (good timely : σ → (ι → π) → ι → Prop) (w : Watched ι σ π μ κ) : Action ι → Prop
  | .run i _ => Running (w.config.threads i) →
      good w.config.shared (points w.config) i ∧
        ((w.early i).isSome = true → timely w.config.shared (points w.config) i)
  | .spurious _ => True

instance (good timely : σ → (ι → π) → ι → Prop) [∀ s ps i, Decidable (good s ps i)]
    [∀ s ps i, Decidable (timely s ps i)] (w : Watched ι σ π μ κ) (a : Action ι) :
    Decidable (GoesOn good timely w a) :=
  match a with
  | .run i _ => inferInstanceAs (Decidable (Running (w.config.threads i) →
      good w.config.shared (points w.config) i ∧
        ((w.early i).isSome = true → timely w.config.shared (points w.config) i)))
  | .spurious _ => isTrue trivial

variable [Fintype ι] [DecidableEq μ]

def watchedProgram (code : σ → π → Op ι σ π μ κ) (shared : σ) (start : ι → π) :
    System (Watched ι σ π μ κ) (Action ι) where
  init := ⟨(program code shared start).init, fun _ => none⟩
  step w a := (step code w.config a).map fun c => ⟨c, earlyAfter code w a⟩

variable {code : σ → π → Op ι σ π μ κ} {w w' : Watched ι σ π μ κ} {shared : σ} {start : ι → π}
  {a : Action ι} {inside : π → μ → Prop} {resting : π → Prop}

theorem step_config (h : (watchedProgram code shared start).step w a = some w') :
    step code w.config a = some w'.config ∧ w'.early = earlyAfter code w a := by
  obtain ⟨c, hstep, rfl⟩ := Option.map_eq_some_iff.mp h
  exact ⟨hstep, rfl⟩

/-- The threads do not see the record. -/
theorem reachable_config (h : (watchedProgram code shared start).Reachable w) :
    (program code shared start).Reachable w.config := by
  induction h with
  | init => exact .init
  | step a _ hs ih => exact ih.step a (step_config hs).1

/-- Where a thread goes on, the waits change as the sleepers do in a program without early
wakeups. -/
theorem waiting_of_running (hapart : Apart (sleepers w.config) w.early)
    (hi : Running (w.config.threads i)) {target : Option ι}
    (hs : (watchedProgram code shared start).step w (.run i target) = some w') :
    ∃ q, (code w.config.shared (points w.config i)).next? = some q ∧
      points w'.config = Function.update (points w.config) i q ∧
      w'.config.shared = (code w.config.shared (points w.config i)).after w.config.shared ∧
      Sleeps i (Function.update (waiting w) i none) (waiting w')
        (code w.config.shared (points w.config i)) ∧
      Apart (sleepers w'.config) w'.early := by
  obtain ⟨hstep, hearly⟩ := step_config hs
  obtain ⟨p, hp⟩ := exists_of_running hi
  obtain ⟨q, hawake, hq, hpoints, hshared, hsleeps⟩ := project_of_running hstep hp
  obtain ⟨hwaits, hafter⟩ := hsleeps.waiting hapart hawake
  have hmove : w'.early = Function.update
      (recalled w.early (code w.config.shared (points w.config i))) i none := by
    rw [points_of_running hp]
    simpa only [earlyAfter, hp] using hearly
  rw [← hmove] at hwaits hafter
  exact ⟨q, hq, hpoints, hshared, hwaits, hafter⟩

/-- A thread that wakes up without a signal still waits, and so does one that takes its mutex
back. -/
theorem waiting_of_not_running (hapart : Apart (sleepers w.config) w.early)
    (ha : ∀ i target, a = .run i target → ¬ Running (w.config.threads i))
    (hs : (watchedProgram code shared start).step w a = some w') :
    points w'.config = points w.config ∧ w'.config.shared = w.config.shared ∧
      waiting w' = waiting w ∧ Apart (sleepers w'.config) w'.early := by
  obtain ⟨hstep, hearly⟩ := step_config hs
  cases a with
  | run i target =>
      have hi := ha i target rfl
      obtain ⟨hpoints, hshared, hsleepers⟩ := project_of_not_running hstep hi
      have hmove : w'.early = w.early := by
        rw [hearly]
        cases ht : w.config.threads i with
        | running p => exact absurd (by rw [ht]; trivial) hi
        | _ => simp only [earlyAfter, ht]
      refine ⟨hpoints, hshared, ?_, ?_⟩
      · funext j
        simp only [waiting, hsleepers, hmove]
      · rw [hsleepers, hmove]
        exact hapart
  | spurious i =>
      obtain ⟨⟨cond, hcond⟩, hpoints, hshared, hsleepers⟩ := project_of_spurious hstep
      refine ⟨hpoints, hshared, ?_, ?_⟩
      · funext j
        by_cases hj : j = i
        · simp [waiting, hsleepers, hearly, earlyAfter, hj, hcond]
        · simp [waiting, hsleepers, hearly, earlyAfter, Function.update_of_ne hj]
      · rw [hsleepers, hearly]
        intro j
        by_cases hj : j = i
        · exact .inl (by simp [hj])
        · simpa [earlyAfter, Function.update_of_ne hj] using hapart j

omit [DecidableEq ι] [DecidableEq κ] [Fintype ι] [DecidableEq μ] in
/-- Either a thread goes on, or one wakes up or takes its mutex back. -/
theorem eq_run_or_not_running (w : Watched ι σ π μ κ) (a : Action ι) :
    (∃ i target, a = .run i target ∧ Running (w.config.threads i)) ∨
      ∀ i target, a = .run i target → ¬ Running (w.config.threads i) := by
  cases a with
  | spurious i => exact .inr fun _ _ heq => by cases heq
  | run i target =>
      by_cases hi : Running (w.config.threads i)
      · exact .inl ⟨i, target, rfl, hi⟩
      · refine .inr fun j _ heq => ?_
        cases heq
        exact hi

theorem apart_of_reachable (h : (watchedProgram code shared start).Reachable w) :
    Apart (sleepers w.config) w.early := by
  induction h with
  | init => exact fun _ => .inl rfl
  | @step w w' a _ hs ih =>
      rcases eq_run_or_not_running w a with ⟨i, target, rfl, hi⟩ | ha
      · obtain ⟨-, -, -, -, -, hafter⟩ := waiting_of_running ih hi hs
        exact hafter
      · exact (waiting_of_not_running ih ha hs).2.2.2

omit [DecidableEq ι] [DecidableEq κ] [Fintype ι] [DecidableEq μ] in
theorem waiting_of_asleep {cond : κ} (h : AsleepOn cond (w.config.threads i)) :
    waiting w i = some cond := by
  obtain ⟨m, q, hi⟩ := exists_asleep h
  simp only [waiting, sleepers, hi, sleeping, Option.or]

/-- The rule for properties of the shared variables, the points of all threads and the waits. A wait
without a signal is over when its thread goes on. -/
theorem returning_invariant {good timely : σ → (ι → π) → ι → Prop}
    {P : σ → (ι → π) → (ι → Option κ) → Prop} (htracks : ∀ s p, Tracks inside p (code s p))
    (hwait : ∀ s p cond m q, code s p = .wait cond m q → resting q)
    (hstart : ∀ i m, ¬ inside (start i) m)
    (h : (watchedProgram code shared start).ReachableBy (GoesOn good timely) w)
    (hinit : P shared start fun _ => none)
    (hrun : ∀ s ps sl sl' i q, P s ps sl → sl i = none → good s ps i →
      Alone inside resting ps i → (code s (ps i)).next? = some q →
      Sleeps i sl sl' (code s (ps i)) →
      P ((code s (ps i)).after s) (Function.update ps i q) sl')
    (htimely : ∀ s ps sl i cond, P s ps sl → timely s ps i → sl i = some cond →
      P s ps (Function.update sl i none)) :
    P w.config.shared (points w.config) (waiting w) := by
  apply h.invariant (P := fun w => P w.config.shared (points w.config) (waiting w)) hinit
  intro w a w' hreach hP hgoesOn hs
  have hapart := apart_of_reachable hreach
  rcases eq_run_or_not_running w a with ⟨i, target, rfl, hi⟩ | ha
  · obtain ⟨q, hq, hpoints, hshared, hsleeps, -⟩ := waiting_of_running hapart hi hs
    obtain ⟨p, hp⟩ := exists_of_running hi
    obtain ⟨hgood, hreturn⟩ := hgoesOn hi
    rw [hpoints, hshared]
    refine hrun _ _ _ _ i q ?_ (Function.update_self ..) hgood
      (alone_of_running htracks hwait hstart (reachable_config hreach) hp) hq hsleeps
    -- the wait that has ended early is over now
    cases hearly : waiting w i with
    | none =>
        rw [← hearly, Function.update_eq_self]
        exact hP
    | some cond =>
        refine htimely _ _ _ i cond hP (hreturn ?_) hearly
        simpa [waiting, sleepers, hp, sleeping, hearly] using congrArg Option.isSome hearly
  · obtain ⟨hpoints, hshared, hwaiting, -⟩ := waiting_of_not_running hapart ha hs
    rw [hpoints, hshared, hwaiting]
    exact hP

/-- A step that does not meet a condition is an operation of a thread for which it fails. -/
theorem exists_of_not_goesOn {good timely : σ → (ι → π) → ι → Prop}
    (hreach : (watchedProgram code shared start).Reachable w)
    (hs : (watchedProgram code shared start).step w a = some w')
    (hbad : ¬ GoesOn good timely w a) :
    ∃ i q, (code w.config.shared (points w.config i)).next? = some q ∧
      points w'.config = Function.update (points w.config) i q ∧
      w'.config.shared = (code w.config.shared (points w.config i)).after w.config.shared ∧
      (¬ good w.config.shared (points w.config) i ∨
        (∃ cond, waiting w i = some cond) ∧ ¬ timely w.config.shared (points w.config) i) := by
  cases a with
  | spurious i => exact absurd trivial hbad
  | run i target =>
      simp only [GoesOn, Classical.not_imp, not_and_or] at hbad
      obtain ⟨hi, hbad⟩ := hbad
      obtain ⟨q, hq, hpoints, hshared, -, -⟩ :=
        waiting_of_running (apart_of_reachable hreach) hi hs
      refine ⟨i, q, hq, hpoints, hshared, hbad.imp_right fun ⟨hearly, hlate⟩ => ⟨?_, hlate⟩⟩
      obtain ⟨cond, hcond⟩ := Option.isSome_iff_exists.mp hearly
      obtain ⟨p, hp⟩ := exists_of_running hi
      exact ⟨cond, by simp only [waiting, sleepers, hp, sleeping, Option.or, hcond]⟩

end Pthread

end PthreadBenchmark
