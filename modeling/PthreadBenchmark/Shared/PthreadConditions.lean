import PthreadBenchmark.Shared.PthreadProgress
import PthreadBenchmark.Shared.PthreadSignals

/-! # Runs under a condition

A program may be right only in the runs in which no thread takes a certain step too early. The rule
of this module has the condition, mutual exclusion and the sleepers at hand. -/

namespace PthreadBenchmark

namespace Pthread

variable {ι σ π μ κ : Type*}

/-- A condition on the steps of a program: `good` for a thread that goes on past its operation,
`timely` for one that wakes up without a signal. To take a mutex back is free. -/
def Meets (good timely : σ → (ι → π) → ι → Prop) (c : Config ι σ π μ κ) : Action ι → Prop
  | .run i _ => Running (c.threads i) → good c.shared (points c) i
  | .spurious i => timely c.shared (points c) i

instance (good timely : σ → (ι → π) → ι → Prop) [∀ s ps i, Decidable (good s ps i)]
    [∀ s ps i, Decidable (timely s ps i)] (c : Config ι σ π μ κ) (a : Action ι) :
    Decidable (Meets good timely c a) :=
  match a with
  | .run i _ => inferInstanceAs (Decidable (Running (c.threads i) → good c.shared (points c) i))
  | .spurious i => inferInstanceAs (Decidable (timely c.shared (points c) i))

/-- No other thread is inside of a mutex that the thread `i` is inside of, but for those that will
be inside of it again when they have woken up. -/
def Alone (inside : π → μ → Prop) (resting : π → Prop) (ps : ι → π) (i : ι) : Prop :=
  ∀ j m, j ≠ i → inside (ps i) m → inside (ps j) m → resting (ps j)

theorem Owned.alone {c : Config ι σ π μ κ} {i : ι} {p : π} {inside : π → μ → Prop}
    {resting : π → Prop} (howned : Owned inside c)
    (hwaits : ∀ j, Waits (fun _ _ q => resting q) (c.threads j)) (hi : c.threads i = .running p) :
    Alone inside resting (points c) i := by
  intro j m hne him hjm
  have hholds : Holds inside m (c.threads i) := by
    rw [hi, ← points_of_running hi]
    exact him
  rcases (hwaits j).running_or with hj | hresting
  · refine absurd (howned.unique ?_ hholds) hne
    rw [hj]
    exact hjm
  · exact hresting

variable [Fintype ι] [DecidableEq ι] [DecidableEq μ] [DecidableEq κ]
  {code : σ → π → Op ι σ π μ κ} {c c' : Config ι σ π μ κ} {shared : σ} {start : ι → π} {i : ι}
  {p : π} {inside : π → μ → Prop} {resting : π → Prop} {target : Option ι}

theorem alone_of_running (htracks : ∀ s p, Tracks inside p (code s p))
    (hwait : ∀ s p cond m q, code s p = .wait cond m q → resting q)
    (hstart : ∀ i m, ¬ inside (start i) m) (h : (program code shared start).Reachable c)
    (hi : c.threads i = .running p) : Alone inside resting (points c) i :=
  (owned_of_reachable htracks hstart h).alone
    (waits_of_reachable (fun s p cond m q => hwait s p cond m q) h) hi

/-- The rule with mutual exclusion for programs that wait. The points say truly which mutexes their
threads are inside of where the property holds. -/
theorem owned_invariant {P : σ → (ι → π) → Prop}
    (htracks : ∀ s ps i, P s ps → Tracks inside (ps i) (code s (ps i)))
    (hwait : ∀ s p cond m q, code s p = .wait cond m q → resting q)
    (hstart : ∀ i m, ¬ inside (start i) m) (h : (program code shared start).Reachable c)
    (hinit : P shared start)
    (hstep : ∀ s ps i q, P s ps → Alone inside resting ps i → (code s (ps i)).next? = some q →
      P ((code s (ps i)).after s) (Function.update ps i q)) :
    Owned inside c ∧ P c.shared (points c) := by
  induction h with
  | init => exact ⟨owned_init hstart, hinit⟩
  | @step c c' a hc hs ih =>
      obtain ⟨howned, hP⟩ := ih
      refine ⟨howned.of_move (fun i p hi => ?_) (move_of_step hs), ?_⟩
      · obtain rfl : points c i = p := points_of_running hi
        exact htracks _ _ i hP
      · rcases (move_of_step hs).project with
          ⟨hpoints, hshared⟩ | ⟨i, p, q, hi, hq, hpoints, hshared⟩
        · rw [hpoints, hshared]
          exact hP
        · have halone := howned.alone
            (waits_of_reachable (fun s p cond m q => hwait s p cond m q) hc) hi
          obtain rfl : points c i = p := points_of_running hi
          rw [hpoints, hshared]
          exact hstep _ _ i q hP halone hq

/-- The rule where all points say truly which mutexes their threads are inside of. -/
theorem alone_invariant {P : σ → (ι → π) → Prop} (htracks : ∀ s p, Tracks inside p (code s p))
    (hwait : ∀ s p cond m q, code s p = .wait cond m q → resting q)
    (hstart : ∀ i m, ¬ inside (start i) m) (h : (program code shared start).Reachable c)
    (hinit : P shared start)
    (hstep : ∀ s ps i q, P s ps → Alone inside resting ps i → (code s (ps i)).next? = some q →
      P ((code s (ps i)).after s) (Function.update ps i q)) :
    P c.shared (points c) :=
  (owned_invariant (fun s ps i _ => htracks s (ps i)) hwait hstart h hinit hstep).2

theorem project_of_spurious (h : step code c (.spurious i) = some c') :
    (∃ cond, sleepers c i = some cond) ∧ points c' = points c ∧ c'.shared = c.shared ∧
      sleepers c' = Function.update (sleepers c) i none := by
  cases ht : c.threads i <;> simp only [step, ht, Option.some.injEq, reduceCtorEq] at h
  case asleep cond m next =>
    cases h
    refine ⟨⟨cond, by simp only [sleepers, ht, sleeping]⟩, points_update_same (by rw [ht]; rfl),
      rfl, ?_⟩
    exact sleeping_comp_update ..

/-- What is joined has halted. -/
def Joins (code : σ → π → Op ι σ π μ κ) (s : σ) (ps : ι → π) : Op ι σ π μ κ → Prop
  | .join j _ => isHalt (code s (ps j)) = true
  | _ => True

theorem joins_of_running (h : step code c (.run i target) = some c')
    (hi : c.threads i = .running p) : Joins code c.shared (points c) (code c.shared p) := by
  cases hop : code c.shared p with
  | join j q =>
      simp only [step, hi, hop, exec] at h
      split at h
      · next hhalted => exact isHalt_of_halted hhalted
      · cases h
  | _ => trivial

/-- The rule for properties of the shared variables, the points of all threads and the sleepers, in
the runs whose steps meet a condition. The points say truly which mutexes their threads are inside
of where the property holds. -/
theorem conditional_owned_invariant {good timely : σ → (ι → π) → ι → Prop}
    {P : σ → (ι → π) → (ι → Option κ) → Prop}
    (htracks : ∀ s ps sl i, P s ps sl → Tracks inside (ps i) (code s (ps i)))
    (hwait : ∀ s p cond m q, code s p = .wait cond m q → resting q)
    (hstart : ∀ i m, ¬ inside (start i) m)
    (h : (program code shared start).ReachableBy (Meets good timely) c)
    (hinit : P shared start fun _ => none)
    (hrun : ∀ s ps sl sl' i q, P s ps sl → sl i = none → good s ps i →
      Alone inside resting ps i → Joins code s ps (code s (ps i)) →
      (code s (ps i)).next? = some q → Sleeps i sl sl' (code s (ps i)) →
      P ((code s (ps i)).after s) (Function.update ps i q) sl')
    (hspurious : ∀ s ps sl i cond, P s ps sl → timely s ps i → sl i = some cond →
      P s ps (Function.update sl i none)) :
    Owned inside c ∧ P c.shared (points c) (sleepers c) := by
  apply h.invariant (P := fun c => Owned inside c ∧ P c.shared (points c) (sleepers c))
    ⟨owned_init hstart, hinit⟩
  rintro c a c' hreach ⟨howned, hP⟩ hmeets hs
  have hs : step code c a = some c' := hs
  refine ⟨howned.of_move (fun i p hi => ?_) (move_of_step hs), ?_⟩
  · obtain rfl : points c i = p := points_of_running hi
    exact htracks _ _ _ i hP
  cases a with
  | spurious i =>
      obtain ⟨⟨cond, hcond⟩, hpoints, hshared, hsleepers⟩ := project_of_spurious hs
      rw [hpoints, hshared, hsleepers]
      exact hspurious _ _ _ i cond hP hmeets hcond
  | run i target =>
      by_cases hrunning : Running (c.threads i)
      · obtain ⟨p, hi⟩ := exists_of_running hrunning
        have hpoint : points c i = p := points_of_running hi
        have hjoins := joins_of_running hs hi
        rw [← hpoint] at hjoins
        have halone : Alone inside resting (points c) i := howned.alone
          (waits_of_reachable (fun s p cond m q => hwait s p cond m q) hreach) hi
        obtain ⟨q, hawake, hq, hpoints, hshared, hsleeps⟩ := project_of_running hs hi
        rw [hpoints, hshared]
        exact hrun _ _ _ _ i q hP hawake (hmeets hrunning) halone hjoins hq hsleeps
      · obtain ⟨hpoints, hshared, hsleepers⟩ := project_of_not_running hs hrunning
        rw [hpoints, hshared, hsleepers]
        exact hP

/-- The rule where all points say truly which mutexes their threads are inside of. -/
theorem conditional_join_invariant {good timely : σ → (ι → π) → ι → Prop}
    {P : σ → (ι → π) → (ι → Option κ) → Prop}
    (htracks : ∀ s p, Tracks inside p (code s p))
    (hwait : ∀ s p cond m q, code s p = .wait cond m q → resting q)
    (hstart : ∀ i m, ¬ inside (start i) m)
    (h : (program code shared start).ReachableBy (Meets good timely) c)
    (hinit : P shared start fun _ => none)
    (hrun : ∀ s ps sl sl' i q, P s ps sl → sl i = none → good s ps i →
      Alone inside resting ps i → Joins code s ps (code s (ps i)) →
      (code s (ps i)).next? = some q → Sleeps i sl sl' (code s (ps i)) →
      P ((code s (ps i)).after s) (Function.update ps i q) sl')
    (hspurious : ∀ s ps sl i cond, P s ps sl → timely s ps i → sl i = some cond →
      P s ps (Function.update sl i none)) :
    P c.shared (points c) (sleepers c) :=
  (conditional_owned_invariant (fun s ps _ i _ => htracks s (ps i)) hwait hstart h hinit hrun
    hspurious).2

/-- The rule where nothing depends on the joins. -/
theorem conditional_invariant {good timely : σ → (ι → π) → ι → Prop}
    {P : σ → (ι → π) → (ι → Option κ) → Prop}
    (htracks : ∀ s p, Tracks inside p (code s p))
    (hwait : ∀ s p cond m q, code s p = .wait cond m q → resting q)
    (hstart : ∀ i m, ¬ inside (start i) m)
    (h : (program code shared start).ReachableBy (Meets good timely) c)
    (hinit : P shared start fun _ => none)
    (hrun : ∀ s ps sl sl' i q, P s ps sl → sl i = none → good s ps i →
      Alone inside resting ps i → (code s (ps i)).next? = some q →
      Sleeps i sl sl' (code s (ps i)) →
      P ((code s (ps i)).after s) (Function.update ps i q) sl')
    (hspurious : ∀ s ps sl i cond, P s ps sl → timely s ps i → sl i = some cond →
      P s ps (Function.update sl i none)) :
    P c.shared (points c) (sleepers c) :=
  conditional_join_invariant htracks hwait hstart h hinit
    (fun s ps sl sl' i q hP hawake hgood halone _ hq hsleeps =>
      hrun s ps sl sl' i q hP hawake hgood halone hq hsleeps) hspurious

/-- The rule for properties of the shared variables and the points alone. -/
theorem conditional_points_invariant {good timely : σ → (ι → π) → ι → Prop}
    {P : σ → (ι → π) → Prop}
    (h : (program code shared start).ReachableBy (Meets good timely) c) (hinit : P shared start)
    (hstep : ∀ s ps i q, P s ps → good s ps i → (code s (ps i)).next? = some q →
      P ((code s (ps i)).after s) (Function.update ps i q)) :
    P c.shared (points c) := by
  apply h.invariant (P := fun c => P c.shared (points c)) hinit
  intro c a c' _ hP hmeets hs
  cases a with
  | spurious i =>
      have hs : step code c (.spurious i) = some c' := hs
      obtain ⟨-, hpoints, hshared, -⟩ := project_of_spurious hs
      rw [hpoints, hshared]
      exact hP
  | run i target =>
      by_cases hrunning : Running (c.threads i)
      · obtain ⟨p, hi⟩ := exists_of_running hrunning
        obtain ⟨q, -, hq, hpoints, hshared, -⟩ := project_of_running hs hi
        rw [hpoints, hshared]
        exact hstep _ _ i q hP (hmeets hrunning) hq
      · obtain ⟨hpoints, hshared, -⟩ := project_of_not_running hs hrunning
        rw [hpoints, hshared]
        exact hP

/-- A step that does not meet a condition is an operation of a thread for which it fails. -/
theorem exists_of_not_meets {good : σ → (ι → π) → ι → Prop} {a : Action ι}
    (h : step code c a = some c') (hbad : ¬ Meets good (fun _ _ _ => True) c a) :
    ∃ i p q, c.threads i = .running p ∧ ¬ good c.shared (points c) i ∧
      (code c.shared (points c i)).next? = some q ∧ points c' = Function.update (points c) i q ∧
      c'.shared = (code c.shared (points c i)).after c.shared := by
  cases a with
  | spurious i => exact absurd trivial hbad
  | run i target =>
      simp only [Meets, Classical.not_imp] at hbad
      obtain ⟨hrunning, hlack⟩ := hbad
      obtain ⟨p, hi⟩ := exists_of_running hrunning
      obtain ⟨q, -, hq, hpoints, hshared, -⟩ := project_of_running h hi
      exact ⟨i, p, q, hi, hlack, hq, hpoints, hshared⟩

/-- All runs meet a condition if none of those that have met it so far can break it. -/
theorem reachableBy_of_good {good : σ → (ι → π) → ι → Prop}
    (hgood : ∀ c i p, (program code shared start).ReachableBy (Meets good fun _ _ _ => True) c →
      c.threads i = .running p → good c.shared (points c) i)
    (h : (program code shared start).Reachable c) :
    (program code shared start).ReachableBy (Meets good fun _ _ _ => True) c := by
  induction h with
  | init => exact .init
  | @step c c' a _ hs ih =>
      refine ih.step a ?_ hs
      cases a with
      | spurious i => trivial
      | run i target =>
          intro hrunning
          obtain ⟨p, hi⟩ := exists_of_running hrunning
          exact hgood c i p ih hi

end Pthread

end PthreadBenchmark
