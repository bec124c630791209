import PthreadBenchmark.Shared.PthreadRules

/-! # Invariants that know who sleeps

Where a thread wakes up only when it is signalled, what holds behind a wait is what the thread that
signals brings about. For this an invariant speaks of the points of all threads and of the
condition variables on which they sleep. -/

namespace PthreadBenchmark

namespace Pthread

variable {ι σ π μ κ : Type*}

def sleeping : Status π μ κ → Option κ
  | .asleep c _ _ => some c
  | _ => none

def Running : Status π μ κ → Prop
  | .running _ => True
  | _ => False

instance (t : Status π μ κ) : Decidable (Running t) :=
  match t with
  | .running _ => isTrue trivial
  | .asleep _ _ _ => isFalse id
  | .woken _ _ => isFalse id

theorem exists_of_running {t : Status π μ κ} (h : Running t) : ∃ p, t = .running p := by
  cases t with
  | running p => exact ⟨p, rfl⟩
  | asleep c m p => exact h.elim
  | woken m p => exact h.elim

/-- The condition variables on which the threads sleep. -/
def sleepers (c : Config ι σ π μ κ) : ι → Option κ := fun i => sleeping (c.threads i)

/-- Who sleeps behind an operation of the thread `i`. -/
def Sleeps [DecidableEq ι] [DecidableEq κ] (i : ι) (sl sl' : ι → Option κ) :
    Op ι σ π μ κ → Prop
  | .wait c _ _ => sl' = Function.update sl i (some c)
  | .signal c _ => sl' = sl ∨ ∃ j, sl j = some c ∧ sl' = Function.update sl j none
  | .broadcast c _ => sl' = fun j => if sl j = some c then none else sl j
  | _ => sl' = sl

section Update

variable [DecidableEq ι] {threads : ι → Status π μ κ} {i : ι} {t : Status π μ κ}

theorem sleeping_comp_update (threads : ι → Status π μ κ) (i : ι) (t : Status π μ κ) :
    (fun j => sleeping (Function.update threads i t j)) =
      Function.update (fun j => sleeping (threads j)) i (sleeping t) :=
  Function.comp_update sleeping threads i t

theorem sleeping_update_same (h : sleeping t = sleeping (threads i)) :
    (fun j => sleeping (Function.update threads i t j)) = fun j => sleeping (threads j) := by
  rw [sleeping_comp_update, h]
  exact Function.update_eq_self i _

end Update

theorem sleeping_wake [DecidableEq κ] (cond : κ) (t : Status π μ κ) :
    sleeping (wake cond t) = if sleeping t = some cond then none else sleeping t := by
  cases t with
  | running p => rfl
  | woken m p => rfl
  | asleep c m p =>
      by_cases hc : c = cond <;> simp [wake, sleeping, hc]

section Rules

variable [Fintype ι] [DecidableEq ι] [DecidableEq μ] [DecidableEq κ]
  {code : σ → π → Op ι σ π μ κ} {c c' : Config ι σ π μ κ} {shared : σ} {start : ι → π} {i : ι}
  {target : Option ι}

/-- A running thread moves past its operation. -/
theorem project_of_running {p : π} (h : step code c (.run i target) = some c')
    (hi : c.threads i = .running p) :
    ∃ q, sleepers c i = none ∧ (code c.shared (points c i)).next? = some q ∧
      points c' = Function.update (points c) i q ∧
      c'.shared = (code c.shared (points c i)).after c.shared ∧
      Sleeps i (sleepers c) (sleepers c') (code c.shared (points c i)) := by
  have hpoint : points c i = p := points_of_running hi
  have hawake : sleepers c i = none := by simp only [sleepers, hi, sleeping]
  have hsame : ∀ q, (fun j => sleeping (Function.update c.threads i (.running q) j)) =
      sleepers c := fun q => sleeping_update_same (by rw [hi]; rfl)
  rw [hpoint]
  simp only [step, hi] at h
  cases hop : code c.shared p <;> simp only [hop, exec] at h
  case lock m next =>
    split at h
    · cases h
      exact ⟨next, hawake, rfl, point_comp_update .., rfl, hsame next⟩
    · cases h
  case unlock m next =>
    split at h
    · cases h
      exact ⟨next, hawake, rfl, point_comp_update .., rfl, hsame next⟩
    · cases h
  case wait cond m next =>
    split at h
    · cases h
      exact ⟨next, hawake, rfl, point_comp_update .., rfl, sleeping_comp_update ..⟩
    · cases h
  case signal cond next =>
    cases target with
    | none =>
        simp only at h
        split at h
        · cases h
        · cases h
          exact ⟨next, hawake, rfl, point_comp_update .., rfl, .inl (hsame next)⟩
    | some j =>
        simp only at h
        split at h
        · next hasleep =>
            cases h
            obtain ⟨m, q, hj⟩ := exists_asleep hasleep
            have hsleeps : sleepers c j = some cond := by simp only [sleepers, hj, sleeping]
            have hne : i ≠ j := by
              intro heq
              subst heq
              rw [hi] at hj
              cases hj
            refine ⟨next, hawake, rfl, ?_, rfl, .inr ⟨j, hsleeps, ?_⟩⟩
            · apply (point_comp_update ..).trans
              rw [points_update_same (point_wake cond _)]
              rfl
            · apply (sleeping_update_same _).trans
              · rw [sleeping_comp_update, sleeping_wake, hj]
                simp only [sleeping, if_true]
                rfl
              · rw [Function.update_of_ne hne, hi]
                rfl
        · cases h
  case broadcast cond next =>
    cases h
    refine ⟨next, hawake, rfl, ?_, rfl, ?_⟩
    · apply (point_comp_update ..).trans
      simp only [point_wake]
      rfl
    · apply (sleeping_comp_update ..).trans
      simp only [sleeping_wake]
      apply Function.update_eq_iff.mpr
      exact ⟨by rw [hawake]; rfl, fun _ _ => rfl⟩
  case run s next =>
    cases h
    exact ⟨next, hawake, rfl, point_comp_update .., rfl, hsame next⟩
  case join j next =>
    split at h
    · cases h
      exact ⟨next, hawake, rfl, point_comp_update .., rfl, hsame next⟩
    · cases h
  case halt => cases h

/-- A thread that does not run only takes its mutex back. -/
theorem project_of_not_running (h : step code c (.run i target) = some c')
    (hi : ¬ Running (c.threads i)) :
    points c' = points c ∧ c'.shared = c.shared ∧ sleepers c' = sleepers c := by
  cases ht : c.threads i with
  | running p =>
      rw [ht] at hi
      exact absurd trivial hi
  | asleep cond m next => simp [step, ht] at h
  | woken m next =>
      simp only [step, ht, exec] at h
      split at h
      · cases h
        exact ⟨points_update_same (by rw [ht]; rfl), rfl, sleeping_update_same (by rw [ht]; rfl)⟩
      · cases h

/-- A scheduled thread moves past its operation, or takes its mutex back. -/
theorem project_of_run (h : step code c (.run i target) = some c') :
    (points c' = points c ∧ c'.shared = c.shared ∧ sleepers c' = sleepers c) ∨
      ∃ q, sleepers c i = none ∧ (code c.shared (points c i)).next? = some q ∧
        points c' = Function.update (points c) i q ∧
        c'.shared = (code c.shared (points c i)).after c.shared ∧
        Sleeps i (sleepers c) (sleepers c') (code c.shared (points c i)) := by
  by_cases hi : Running (c.threads i)
  · obtain ⟨p, hp⟩ := exists_of_running hi
    exact .inr (project_of_running h hp)
  · exact .inl (project_of_not_running h hi)

/-- The rule for properties of the shared variables, the points of all threads and the sleepers,
where no thread wakes up without a signal. -/
theorem signalled_invariant {P : σ → (ι → π) → (ι → Option κ) → Prop}
    (h : (signalledProgram code shared start).Reachable c) (hinit : P shared start fun _ => none)
    (hstep : ∀ s ps sl sl' i q, P s ps sl → sl i = none → (code s (ps i)).next? = some q →
      Sleeps i sl sl' (code s (ps i)) →
      P ((code s (ps i)).after s) (Function.update ps i q) sl') :
    P c.shared (points c) (sleepers c) := by
  apply h.invariant (P := fun c => P c.shared (points c) (sleepers c)) hinit
  intro c a c' hP hs
  cases a with
  | spurious i => cases hs
  | run i target =>
      rcases project_of_run hs with
        ⟨hpoints, hshared, hsleepers⟩ | ⟨q, hawake, hq, hpoints, hshared, hsleeps⟩
      · rw [hpoints, hshared, hsleepers]
        exact hP
      · rw [hpoints, hshared]
        exact hstep _ _ _ _ i q hP hawake hq hsleeps

end Rules

end Pthread

end PthreadBenchmark
