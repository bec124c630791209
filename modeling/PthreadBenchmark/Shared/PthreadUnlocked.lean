import PthreadBenchmark.Shared.PthreadRules
import PthreadBenchmark.Shared.PthreadRuns

/-! # Programs that have lost their locks

Where the calls that lock and unlock are gone from a program, it can still do all that it could do
before. What it does beyond that is what the locks were for. -/

namespace PthreadBenchmark

variable {ι σ π μ : Type*}

/-- The operation without its lock. -/
def Op.unlocked (s : σ) : Op ι σ π μ Empty → Op ι σ π Empty Empty
  | .lock _ q | .unlock _ q => .run s q
  | .wait cond _ _ => nomatch cond
  | .signal cond q => .signal cond q
  | .broadcast cond q => .broadcast cond q
  | .run s' q => .run s' q
  | .join j q => .join j q
  | .halt => .halt

namespace Pthread

/-- The program without its locks. -/
def unlocked (code : σ → π → Op ι σ π μ Empty) (s : σ) (p : π) : Op ι σ π Empty Empty :=
  (code s p).unlocked s

/-- What is left of a state when no mutex is left. -/
def forget (c : Config ι σ π μ Empty) : Config ι σ π Empty Empty :=
  placed (fun _ => none) c.shared (points c)

variable [DecidableEq ι] {code : σ → π → Op ι σ π μ Empty} {c c' : Config ι σ π μ Empty}
  {shared s' : σ} {start : ι → π} {i : ι} {p q : π}

omit [DecidableEq ι] in
theorem forget_threads (hi : c.threads i = .running p) : (forget c).threads i = .running p :=
  congrArg Status.running (points_of_running hi)

omit [DecidableEq ι] in
theorem halted_forget {s : σ} (h : Halted code s (c.threads i)) :
    Halted (unlocked code) s ((forget c).threads i) := by
  have hrunning := running_of_halted h
  rw [forget_threads hrunning]
  rw [hrunning] at h
  cases hop : code s (points c i) with
  | halt => simp [Halted, unlocked, hop, Op.unlocked, isHalt]
  | _ => simp [Halted, hop, isHalt] at h

theorem forget_update {o : μ → Option ι} :
    forget ⟨o, s', Function.update c.threads i (.running q)⟩ =
      placed (fun _ => none) s' (Function.update (points c) i q) :=
  congrArg (placed _ s') (point_comp_update c.threads i (.running q))

variable [Fintype ι]

/-- A thread that takes or gives back a mutex does nothing without it. -/
theorem reachable_forget_run {o : μ → Option ι}
    (h : (program (unlocked code) shared start).Reachable (forget c))
    (hi : c.threads i = .running p) (hop : unlocked code c.shared p = .run s' q) :
    (program (unlocked code) shared start).Reachable
      (forget ⟨o, s', Function.update c.threads i (.running q)⟩) := by
  rw [forget_update]
  refine h.step (.run i none) ((step_run (forget_threads hi) hop).trans (congrArg some ?_))
  exact turn_placed (fun _ => none) c.shared s' (points c) i q

/-- Every state of the program is one of the program without locks. -/
theorem reachable_forget [DecidableEq μ] (h : (program code shared start).Reachable c) :
    (program (unlocked code) shared start).Reachable (forget c) := by
  induction h with
  | init => exact .init
  | @step c c' a hc hs ih =>
      have hmove := move_of_step hs
      cases hmove with
      | lock thread op => exact reachable_forget_run ih thread (by rw [unlocked, op]; rfl)
      | unlock thread op => exact reachable_forget_run ih thread (by rw [unlocked, op]; rfl)
      | run thread op => exact reachable_forget_run ih thread (by rw [unlocked, op]; rfl)
      | @join i j p q thread op halted =>
          rw [forget_update]
          have hop : unlocked code c.shared p = .join j q := by rw [unlocked, op]; rfl
          refine ih.step (.run i none) ((step_join (forget_threads thread) hop
            (halted_forget halted)).trans (congrArg some ?_))
          exact turn_placed (fun _ => none) c.shared c.shared (points c) i q
      | @relock i m q thread =>
          have hrunning := running_of_points (i := i) not_wait hc rfl
          rw [thread] at hrunning
          cases hrunning
      | wait | signalNone | signal | broadcast | spurious => exact isEmptyElim ‹Empty›

/-- Where there are no mutexes, each step of a thread takes it to its next point. -/
theorem exists_next_of_step {code : σ → π → Op ι σ π Empty Empty} {c c' : Config ι σ π Empty Empty}
    {w : Option ι} (h : step code c (.run i w) = some c') :
    ∃ q, (code c.shared (points c i)).next? = some q ∧
      c'.shared = (code c.shared (points c i)).after c.shared ∧
      points c' = Function.update (points c) i q := by
  cases hi : c.threads i with
  | asleep cond m q => exact isEmptyElim m
  | woken m q => exact isEmptyElim m
  | running p =>
      rw [points_of_running hi]
      simp only [step, hi] at h
      cases hop : code c.shared p <;> simp only [hop, exec] at h
      case run s' q =>
        cases h
        exact ⟨q, rfl, rfl, point_comp_update c.threads i (.running q)⟩
      case join j q =>
        split at h
        · cases h
          exact ⟨q, rfl, rfl, point_comp_update c.threads i (.running q)⟩
        · cases h
      case halt => cases h
      all_goals exact isEmptyElim ‹Empty›

end Pthread

end PthreadBenchmark
