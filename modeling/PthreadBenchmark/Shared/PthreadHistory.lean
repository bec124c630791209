import PthreadBenchmark.Shared.PthreadRefinement

/-! # Programs with a history

What threads have done is often not left in the shared variables. A program can be run with a list
of events beside its shared variables, which no thread reads. -/

namespace PthreadBenchmark

structure Recorded (σ ε : Type*) where
  base : σ
  history : List ε

namespace Pthread

variable {ι σ π μ κ ε : Type*} {code : σ → π → Op ι σ π μ κ} {event? : σ → π → Option ε}

/-- The code of a thread, with the event of its operation if it has one. -/
def recorded (event? : σ → π → Option ε) (code : σ → π → Op ι σ π μ κ) (s : Recorded σ ε) (p : π) :
    Op ι (Recorded σ ε) π μ κ :=
  (code s.base p).map (fun i => i)
    (fun base => ⟨base, s.history ++ (event? s.base p).toList⟩) fun q => q

theorem next?_recorded (s : Recorded σ ε) (p : π) :
    (recorded event? code s p).next? = (code s.base p).next? :=
  Op.next?_map.trans Option.map_id'

/-- Only operations that may change the shared variables have events. -/
def EventsRun (event? : σ → π → Option ε) (code : σ → π → Op ι σ π μ κ) : Prop :=
  ∀ s p e, event? s p = some e → ∃ s' q, code s p = .run s' q

theorem after_recorded (hevents : EventsRun event? code) (s : Recorded σ ε) (p : π) :
    (recorded event? code s p).after s =
      ⟨(code s.base p).after s.base, s.history ++ (event? s.base p).toList⟩ := by
  cases hevent : event? s.base p with
  | none =>
      have hs : (⟨s.base, s.history ++ (event? s.base p).toList⟩ : Recorded σ ε) = s := by
        rw [hevent]
        simp
      rw [← hevent]
      exact Op.after_map hs
  | some e =>
      obtain ⟨s', q, hrun⟩ := hevents s.base p e hevent
      simp only [recorded, hrun, Op.map, Op.after, hevent]

section Rules

variable [Fintype ι] [DecidableEq ι] [DecidableEq μ] [DecidableEq κ] {shared : σ} {start : ι → π}
  {c : Config ι (Recorded σ ε) π μ κ}

/-- The threads do not see the history. -/
theorem reachable_base (h : (program (recorded event? code) ⟨shared, []⟩ start).Reachable c) :
    (program code shared start).Reachable (c.map Recorded.base fun p => p) :=
  reachable_map (fun _ _ => refines_map (fun _ => rfl) fun _ => rfl) rfl (fun _ => rfl) h

/-- The rule for properties of the history, the shared variables and the points. What is known of
all runs of the program can be used in each step. -/
theorem history_invariant {P : σ → List ε → (ι → π) → Prop} (hevents : EventsRun event? code)
    (h : (program (recorded event? code) ⟨shared, []⟩ start).Reachable c)
    (hinit : P shared [] start)
    (hstep : ∀ b, (program code shared start).Reachable b → ∀ history i q,
      P b.shared history (points b) → (code b.shared (points b i)).next? = some q →
      P ((code b.shared (points b i)).after b.shared)
        (history ++ (event? b.shared (points b i)).toList) (Function.update (points b) i q)) :
    P c.shared.base c.shared.history (points c) := by
  induction h with
  | init => exact hinit
  | @step c c' a hc hs ih =>
      rcases (move_of_step hs).project with
        ⟨hpoints, hshared⟩ | ⟨i, p, q, hi, hq, hpoints, hshared⟩
      · rw [hpoints, hshared]
        exact ih
      · obtain rfl : points c i = p := points_of_running hi
        rw [next?_recorded] at hq
        rw [after_recorded hevents] at hshared
        rw [hpoints, hshared]
        have hbase := hstep _ (reachable_base hc) c.shared.history i q
        rw [points_map] at hbase
        exact hbase ih hq

end Rules

end Pthread

end PthreadBenchmark
