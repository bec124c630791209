import PthreadBenchmark.Concurio.Absolute.Correctness
import PthreadBenchmark.Concurio.Invariant
import PthreadBenchmark.Shared.PthreadRefinement

/-! # The workers of `concurio.c` with and without `record_absolute`

What `timeval_subtract` does cannot be seen in the program without it, where a worker stores its
record in one step. So the workers stay in the same step of the trials. -/

namespace PthreadBenchmark.Concurio.Absolute

open Pthread

variable {workers trials : ℕ} {start : Timeval} {after : Fin workers → ℕ → Timeval}
  {c : Config (Fin workers) (Shared workers) (Point workers) Mutex Cond}

/-- Where a worker is for the program without `timeval_subtract`. -/
def Point.coarse : Point workers → Concurio.Point workers
  | .worker p => p
  | .subtract id t _ => ⟨id, .record t⟩

theorem refines_code (s : Shared workers) (p : Point workers) :
    Refines Shared.base Point.coarse s p (workerRun trials s.base p.coarse)
      (code trials after s p) := by
  cases p with
  | worker p =>
      rcases eq_record_or p with ⟨id, t, rfl⟩ | hrecord
      · exact .inr ⟨s, .subtract id t (.test .borrow), rfl, rfl, rfl⟩
      · rw [code_worker hrecord]
        exact refines_map (fun _ => rfl) fun _ => rfl
  | subtract id t place =>
      cases place with
      | record diff => exact refines_map (fun _ => rfl) fun _ => rfl
      | test b =>
          refine .inr ⟨_, _, rfl, rfl, ?_⟩
          split
          · rfl
          · cases b <;> rfl
      | secStore b nsec sec =>
          refine .inr ⟨_, _, rfl, rfl, ?_⟩
          cases b <;> rfl
      | _ => exact .inr ⟨_, _, rfl, rfl, rfl⟩

/-- The runs with `record_absolute` are runs without it. -/
theorem reachable_base (h : (program trials start after).Reachable c) :
    (Concurio.program workers trials).Reachable (c.map Shared.base Point.coarse) :=
  reachable_map refines_code rfl (fun _ => rfl) h

/-- The workers are in step, whatever the clock says. -/
theorem consistent_of_reachable (h : (program trials start after).Reachable c) :
    Consistent trials c.shared.base fun i => (points c i).coarse := by
  have hconsistent := Concurio.consistent_of_reachable (reachable_base h)
  rwa [points_map] at hconsistent

end PthreadBenchmark.Concurio.Absolute
