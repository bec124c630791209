import Mathlib.Data.Nat.Notation
import Mathlib.Tactic.TypeStar

/-! # Scheduled transition systems

A program run by a scheduler is a partial step function: the label names the thread
that moves and whatever else the environment decides. Every safety statement is a
statement about the states such a system reaches. -/

namespace PthreadBenchmark

/-- `step s l` is the state after the action `l`, or `none` where `l` is not enabled. -/
structure System (σ ℓ : Type*) where
  init : σ
  step : σ → ℓ → Option σ

namespace System

variable {σ ℓ : Type*} (S : System σ ℓ)

/-- The states of the runs that start in the initial state. -/
inductive Reachable : σ → Prop where
  | init : Reachable S.init
  | step {s s' : σ} (l : ℓ) : Reachable s → S.step s l = some s' → Reachable s'

/-- The states of the runs whose steps all meet the condition `C`. -/
inductive ReachableBy (C : σ → ℓ → Prop) : σ → Prop where
  | init : ReachableBy C S.init
  | step {s s' : σ} (l : ℓ) :
      ReachableBy C s → C s l → S.step s l = some s' → ReachableBy C s'

def Enabled (s : σ) (l : ℓ) : Prop := (S.step s l).isSome = true

instance (s : σ) (l : ℓ) : Decidable (S.Enabled s l) :=
  inferInstanceAs (Decidable ((S.step s l).isSome = true))

/-- The system that takes only the steps that meet the condition. -/
def guarded (C : σ → ℓ → Prop) [∀ s l, Decidable (C s l)] : System σ ℓ where
  init := S.init
  step s l := if C s l then S.step s l else none

/-- Runs a schedule, and fails where one of its actions is not enabled. -/
def exec : σ → List ℓ → Option σ
  | s, [] => some s
  | s, l :: ls => (S.step s l).bind fun s' => exec s' ls

variable {S}

/-- A property of the initial state that every step preserves holds in every
reachable state. -/
theorem Reachable.invariant {P : σ → Prop} {s : σ} (h : S.Reachable s)
    (hinit : P S.init) (hstep : ∀ s l s', P s → S.step s l = some s' → P s') : P s := by
  induction h with
  | init => exact hinit
  | step l _ hs ih => exact hstep _ l _ ih hs

theorem ReachableBy.reachable {C : σ → ℓ → Prop} {s : σ} (h : S.ReachableBy C s) :
    S.Reachable s := by
  induction h with
  | init => exact .init
  | step l _ _ hs ih => exact ih.step l hs

/-- The rule for runs under a condition. -/
theorem ReachableBy.invariant {C : σ → ℓ → Prop} {P : σ → Prop} {s : σ} (h : S.ReachableBy C s)
    (hinit : P S.init)
    (hstep : ∀ s l s', S.Reachable s → P s → C s l → S.step s l = some s' → P s') : P s := by
  induction h with
  | init => exact hinit
  | step l hr hC hs ih => exact hstep _ l _ hr.reachable ih hC hs

theorem ReachableBy.of_guarded {C : σ → ℓ → Prop} [∀ s l, Decidable (C s l)] {s : σ}
    (h : (S.guarded C).Reachable s) : S.ReachableBy C s := by
  apply h.invariant .init
  intro s l s' hs hstep
  simp only [guarded, Option.ite_none_right_eq_some] at hstep
  exact hs.step l hstep.1 hstep.2

@[simp] theorem exec_nil (s : σ) : S.exec s [] = some s := rfl

theorem exec_cons (s : σ) (l : ℓ) (ls : List ℓ) :
    S.exec s (l :: ls) = (S.step s l).bind fun s' => S.exec s' ls := rfl

/-- A schedule keeps what each of its steps keeps. -/
theorem exec_invariant {P : σ → Prop} (hstep : ∀ s l s', P s → S.step s l = some s' → P s')
    {s s' : σ} {ls : List ℓ} (h : P s) (he : S.exec s ls = some s') : P s' := by
  induction ls generalizing s with
  | nil =>
      obtain rfl : s = s' := by simpa using he
      exact h
  | cons l ls ih =>
      obtain ⟨t, ht, hs⟩ := Option.bind_eq_some_iff.mp (exec_cons s l ls ▸ he)
      exact ih (hstep s l t h ht) hs

/-- A schedule that runs through from a reachable state ends in a reachable state. -/
theorem Reachable.exec {s s' : σ} (h : S.Reachable s) {ls : List ℓ}
    (he : S.exec s ls = some s') : S.Reachable s' :=
  exec_invariant (fun _ l _ hs => hs.step l) h he

/-- A schedule that runs through although it is held to the condition. -/
theorem ReachableBy.of_exec {C : σ → ℓ → Prop} [∀ s l, Decidable (C s l)] {s : σ} {ls : List ℓ}
    (h : (S.guarded C).exec S.init ls = some s) : S.ReachableBy C s :=
  .of_guarded (Reachable.init.exec h)

end System

end PthreadBenchmark
