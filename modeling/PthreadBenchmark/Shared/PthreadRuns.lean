import PthreadBenchmark.Shared.PthreadProgress
import Mathlib.Data.Finset.Piecewise

/-! # Runs that exist

That a state is in reach is shown by a run to it. A run is built from its end: a step, in front of a
run from the state behind it. -/

namespace PthreadBenchmark

namespace System

variable {σ ℓ : Type*} {S : System σ ℓ} {G H : σ → Prop} {s s' : σ} {l : ℓ}

/-- Some run leads from the state to one with the property. -/
def Leads (S : System σ ℓ) (G : σ → Prop) (s : σ) : Prop :=
  ∃ ls s', S.exec s ls = some s' ∧ G s'

theorem Leads.here (h : G s) : S.Leads G s := ⟨[], s, rfl, h⟩

theorem Leads.of_step (h : S.Leads G s') (hs : S.step s l = some s') : S.Leads G s := by
  obtain ⟨ls, t, hexec, ht⟩ := h
  refine ⟨l :: ls, t, ?_, ht⟩
  rw [exec_cons, hs]
  exact hexec

theorem Leads.imp (h : S.Leads G s) (hGH : ∀ s, G s → H s) : S.Leads H s := by
  obtain ⟨ls, t, hexec, ht⟩ := h
  exact ⟨ls, t, hexec, hGH t ht⟩

/-- The run to a reachable state goes on. -/
theorem Leads.reachable (h : S.Leads G s) (hs : S.Reachable s) : ∃ t, S.Reachable t ∧ G t := by
  obtain ⟨ls, t, hexec, ht⟩ := h
  exact ⟨t, hs.exec hexec, ht⟩

end System

namespace Pthread

variable {ι σ π μ κ : Type*} {code : σ → π → Op ι σ π μ κ} {shared s s' : σ} {start : ι → π}
  {o : μ → Option ι} {threads : ι → Status π μ κ} {c c' : Config ι σ π μ κ}
  {G : Config ι σ π μ κ → Prop} {i j : ι} {p q : π} {m : μ} {a : Action ι}

theorem free_again [DecidableEq μ] (hfree : o m = none) :
    Function.update (Function.update o m (some i)) m none = o := by
  rw [Function.update_idem, ← hfree, Function.update_eq_self]

variable [DecidableEq ι]

/-- The thread `i` is at the point `p`, and it is its turn. -/
def turn (o : μ → Option ι) (s : σ) (threads : ι → Status π μ κ) (i : ι) (p : π) :
    Config ι σ π μ κ :=
  ⟨o, s, Function.update threads i (.running p)⟩

@[simp] theorem turn_owner (o : μ → Option ι) (s : σ) (threads : ι → Status π μ κ) (i : ι)
    (p : π) : (turn o s threads i p).owner = o := rfl

theorem turn_self (hi : c.threads i = .running p) : turn c.owner c.shared c.threads i p = c := by
  rw [turn, ← hi, Function.update_eq_self]

theorem turn_threads_self (o : μ → Option ι) (s : σ) (threads : ι → Status π μ κ) (i : ι)
    (p : π) : (turn o s threads i p).threads i = .running p :=
  Function.update_self ..

theorem turn_threads_of_ne {o : μ → Option ι} {s : σ} {threads : ι → Status π μ κ} {p : π}
    (hne : j ≠ i) : (turn o s threads i p).threads j = threads j :=
  Function.update_of_ne hne ..

variable [Fintype ι] [DecidableEq μ] [DecidableEq κ]

/-! ## Scheduled threads -/

section Schedules

variable {S : System (Config ι σ π μ κ) (Action ι)}

/-- A thread that the system schedules takes the next step of the code. -/
def Schedules (S : System (Config ι σ π μ κ) (Action ι)) (code : σ → π → Op ι σ π μ κ) : Prop :=
  ∀ c i target, S.step c (.run i target) = step code c (.run i target)

theorem schedules_program : Schedules (program code shared start) code := fun _ _ _ => rfl

theorem schedules_signalledProgram : Schedules (signalledProgram code shared start) code :=
  fun _ _ _ => rfl

theorem Schedules.leads_step {target : Option ι} (hS : Schedules S code) (h : S.Leads G c')
    (hs : step code c (.run i target) = some c') : S.Leads G c :=
  h.of_step ((hS c i target).trans hs)

theorem Schedules.leads_run (hS : Schedules S code) (hop : code s p = .run s' q)
    (h : S.Leads G (turn o s' threads i q)) : S.Leads G (turn o s threads i p) := by
  have hs := step_run (turn_threads_self o s threads i p) hop
  simp only [turn, Function.update_idem] at hs
  exact hS.leads_step h hs

theorem Schedules.leads_lock (hS : Schedules S code) (hop : code s p = .lock m q)
    (hfree : o m = none) (h : S.Leads G (turn (Function.update o m (some i)) s threads i q)) :
    S.Leads G (turn o s threads i p) := by
  have hs := step_lock (turn_threads_self o s threads i p) hop hfree
  simp only [turn, Function.update_idem] at hs
  exact hS.leads_step h hs

theorem Schedules.leads_unlock (hS : Schedules S code) (hop : code s p = .unlock m q)
    (hown : o m = some i) (h : S.Leads G (turn (Function.update o m none) s threads i q)) :
    S.Leads G (turn o s threads i p) := by
  have hs := step_unlock (turn_threads_self o s threads i p) hop hown
  simp only [turn, Function.update_idem] at hs
  exact hS.leads_step h hs

/-- A thread that waits falls asleep. -/
theorem Schedules.leads_sleep {cond : κ} (hS : Schedules S code) (hop : code s p = .wait cond m q)
    (hown : o m = some i)
    (h : S.Leads G
      ⟨Function.update o m none, s, Function.update threads i (.asleep cond m q)⟩) :
    S.Leads G (turn o s threads i p) := by
  have hs := step_wait (turn_threads_self o s threads i p) hop hown
  simp only [turn, Function.update_idem] at hs
  exact hS.leads_step h hs

/-- A signal reaches a sleeper. -/
theorem Schedules.leads_wake {cond : κ} {r : π} (hS : Schedules S code)
    (hi : c.threads i = .running p) (hop : code c.shared p = .signal cond q)
    (hj : c.threads j = .asleep cond m r)
    (h : S.Leads G (turn c.owner c.shared (Function.update c.threads j (.woken m r)) i q)) :
    S.Leads G c := by
  have hs : step code c (.run i (some j)) =
      some (turn c.owner c.shared (Function.update c.threads j (.woken m r)) i q) := by
    simp only [step, hi, hop, exec, hj, AsleepOn, if_true, wake, turn]
  exact hS.leads_step h hs

theorem Schedules.leads_relock (hS : Schedules S code) (hi : c.threads i = .woken m q)
    (hfree : c.owner m = none)
    (h : S.Leads G (turn (Function.update c.owner m (some i)) c.shared c.threads i q)) :
    S.Leads G c := by
  have hs : step code c (.run i none) =
      some (turn (Function.update c.owner m (some i)) c.shared c.threads i q) :=
    step_relock hi hfree
  exact hS.leads_step h hs

end Schedules

theorem leads_of_step (h : (program code shared start).Leads G c')
    (hs : step code c a = some c') : (program code shared start).Leads G c :=
  System.Leads.of_step (l := a) h hs

theorem leads_run (hop : code s p = .run s' q)
    (h : (program code shared start).Leads G (turn o s' threads i q)) :
    (program code shared start).Leads G (turn o s threads i p) :=
  schedules_program.leads_run hop h

theorem leads_lock (hop : code s p = .lock m q) (hfree : o m = none)
    (h : (program code shared start).Leads G
      (turn (Function.update o m (some i)) s threads i q)) :
    (program code shared start).Leads G (turn o s threads i p) :=
  schedules_program.leads_lock hop hfree h

theorem leads_unlock (hop : code s p = .unlock m q) (hown : o m = some i)
    (h : (program code shared start).Leads G (turn (Function.update o m none) s threads i q)) :
    (program code shared start).Leads G (turn o s threads i p) :=
  schedules_program.leads_unlock hop hown h

/-- A signal while nobody sleeps. -/
theorem leads_signal {cond : κ} (hop : code s p = .signal cond q)
    (hawake : ∀ j, ¬ AsleepOn cond ((turn o s threads i p).threads j))
    (h : (program code shared start).Leads G (turn o s threads i q)) :
    (program code shared start).Leads G (turn o s threads i p) := by
  have hs : step code (turn o s threads i p) (.run i none) = some (turn o s threads i q) := by
    have hnone : ¬ ∃ j, AsleepOn cond ((turn o s threads i p).threads j) := not_exists.mpr hawake
    have hop' : code (turn o s threads i p).shared p = .signal cond q := hop
    simp only [step, turn_threads_self, hop', exec, if_neg hnone]
    simp only [turn, Function.update_idem]
  exact leads_of_step h hs

/-- A thread that waits may wake up at once. -/
theorem leads_wait {cond : κ} (hop : code s p = .wait cond m q) (hown : o m = some i)
    (h : (program code shared start).Leads G
      ⟨Function.update o m none, s, Function.update threads i (.woken m q)⟩) :
    (program code shared start).Leads G (turn o s threads i p) := by
  have hs := step_wait (turn_threads_self o s threads i p) hop hown
  simp only [turn, Function.update_idem] at hs
  refine leads_of_step (System.Leads.of_step (l := .spurious i) h ?_) hs
  simp only [Pthread.program, step, Function.update_self, Function.update_idem]

theorem leads_relock (hi : c.threads i = .woken m q) (hfree : c.owner m = none)
    (h : (program code shared start).Leads G
      (turn (Function.update c.owner m (some i)) c.shared c.threads i q)) :
    (program code shared start).Leads G c :=
  schedules_program.leads_relock hi hfree h

/-- A broadcast while nobody sleeps. -/
theorem leads_broadcast {cond : κ} (hop : code s p = .broadcast cond q)
    (hawake : ∀ j, wake cond (threads j) = threads j)
    (h : (program code shared start).Leads G (turn o s threads i q)) :
    (program code shared start).Leads G (turn o s threads i p) := by
  have hs := step_broadcast (turn_threads_self o s threads i p) hop
  have hwoken : Function.update (fun j => wake cond ((turn o s threads i p).threads j)) i
      (.running q) = Function.update threads i (.running q) := by
    funext j
    by_cases hj : j = i
    · subst hj
      simp only [Function.update_self]
    · simp only [turn, Function.update_of_ne hj, hawake j]
  rw [hwoken] at hs
  exact leads_of_step h hs

theorem leads_join (hop : code s p = .join j q)
    (hhalted : Halted code s ((turn o s threads i p).threads j))
    (h : (program code shared start).Leads G (turn o s threads i q)) :
    (program code shared start).Leads G (turn o s threads i p) := by
  have hs := step_join (turn_threads_self o s threads i p) hop hhalted
  simp only [turn, Function.update_idem] at hs
  exact leads_of_step h hs

/-- A thread goes round its loop once. -/
theorem leads_round (hj : c.threads j = .running p) (hop : code c.shared p = .run s' p)
    (h : (program code shared start).Leads G ⟨c.owner, s', c.threads⟩) :
    (program code shared start).Leads G c := by
  have hs := step_run hj hop
  rw [← hj, Function.update_eq_self] at hs
  exact leads_of_step h hs

/-! ## All threads run -/

section Placed

variable {ps : ι → π}

/-- No thread sleeps, and each is at its point. -/
def placed (o : μ → Option ι) (s : σ) (ps : ι → π) : Config ι σ π μ κ :=
  ⟨o, s, fun j => .running (ps j)⟩

omit [Fintype ι] [DecidableEq μ] [DecidableEq κ] in
theorem turn_placed (o : μ → Option ι) (s s' : σ) (ps : ι → π) (i : ι) (q : π) :
    turn o s' (placed o s ps : Config ι σ π μ κ).threads i q =
      placed o s' (Function.update ps i q) := by
  simp only [turn, placed, Config.mk.injEq, true_and]
  funext j
  by_cases hj : j = i
  · subst hj
    simp only [Function.update_self]
  · simp only [Function.update_of_ne hj]

theorem leads_placed_run (i : ι) (hop : code s (ps i) = .run s' q)
    (h : (program code shared start).Leads G (placed o s' (Function.update ps i q))) :
    (program code shared start).Leads G (placed o s ps) := by
  rw [← turn_placed o s s' ps i q] at h
  rw [← turn_self (c := placed o s ps) (i := i) rfl]
  exact leads_run hop h

/-- The threads go from the points `p` to the points `q`, one after the other. `R` is what their
steps keep. -/
theorem leads_each {R : σ → Prop} {p q : ι → π}
    (hthread : ∀ s threads i, R s →
      (∀ s', R s' → (program code shared start).Leads G (turn o s' threads i (q i))) →
      (program code shared start).Leads G (turn o s threads i (p i)))
    (hs : R s) (h : ∀ s', R s' → (program code shared start).Leads G (placed o s' q)) :
    (program code shared start).Leads G (placed o s p) := by
  have hgone : ∀ (l : Finset ι) s, R s →
      (∀ s', R s' → (program code shared start).Leads G (placed o s' (l.piecewise q p))) →
      (program code shared start).Leads G (placed o s p) := by
    intro l
    induction l using Finset.induction_on with
    | empty =>
        intro s hs h
        rw [Finset.piecewise_empty] at h
        exact h s hs
    | insert i l hi ih =>
        intro s hs h
        refine ih s hs fun s' hs' => ?_
        have hself : turn o s' (placed o s' (l.piecewise q p) : Config ι σ π μ κ).threads i (p i) =
            placed o s' (l.piecewise q p) := by
          rw [turn_placed, ← Finset.piecewise_eq_of_notMem l q p hi, Function.update_eq_self]
        rw [← hself]
        refine hthread s' _ i hs' fun s'' hs'' => ?_
        rw [turn_placed, ← Finset.piecewise_insert]
        exact h s'' hs''
  refine hgone Finset.univ s hs fun s' hs' => ?_
  rw [Finset.piecewise_univ]
  exact h s' hs'

end Placed

end Pthread

end PthreadBenchmark
