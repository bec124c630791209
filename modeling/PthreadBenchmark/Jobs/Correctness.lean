import PthreadBenchmark.Jobs.Model
import PthreadBenchmark.Shared.PthreadRules
import PthreadBenchmark.Shared.Replay

/-! # The summary does not depend on the number of display threads

Every thread calls `addToSummary` with the same completion times in the same order. The
threads are writers that replay one log. -/

namespace PthreadBenchmark.Jobs

open Pthread

variable {υ : Type*} [DecidableEq υ] {n : ℕ} {jobs : List (Job υ)}
  {c : Config (Fin n) (Shared υ) (Point υ) Mutex Empty}

/-! ## Completions -/

/-- The users of the jobs with their completion times, for one processor that is free from
`time` on. -/
def completions (time : ℤ) : List (Job υ) → List (υ × ℤ)
  | [] => []
  | job :: next =>
    let finish := max time job.arrival + max 0 job.duration
    (job.user, finish) :: completions finish next

def Display.entry (d : Display υ) : υ × ℤ := (d.user, d.timeLastCalculated)

theorem displayLoop_eq (k : ℕ) (time : ℤ) : displayLoop k time = time + k := by
  induction k generalizing time with
  | zero => simp [displayLoop]
  | succ k ih =>
      rw [displayLoop, ih]
      push_cast
      omega

theorem displayLoop_toNat (time duration : ℤ) :
    displayLoop duration.toNat time = time + max 0 duration := by
  rw [displayLoop_eq]
  omega

theorem arrive_eq (time arrival : ℤ) : arrive time arrival = max time arrival := by
  unfold arrive
  split <;> omega

theorem map_addToSummary (ds : List (Display υ)) (name : υ) (time : ℤ) :
    (addToSummary ds name time).map Display.entry = upsert (ds.map Display.entry) name time := by
  induction ds with
  | nil => rfl
  | cons d ds ih =>
      by_cases hd : d.user = name
      · simp [addToSummary, upsert, Display.entry, hd]
      · simp [addToSummary, upsert, Display.entry, hd, ih]

/-- What a thread at this point will still write into the summary. -/
def remaining (jobs : List (Job υ)) : Point υ → List (υ × ℤ)
  | .headLock | .headRead => completions 0 jobs
  | .headUnlock placeholder => completions 0 placeholder
  | .loop placeholder time => completions time placeholder
  | .jobLock job next time | .jobUnlock job next time =>
    (job.user, time + max 0 job.duration) :: completions (time + max 0 job.duration) next
  | .summaryLock name next time | .summaryBody name next time =>
    (name, time) :: completions time next
  | .summaryUnlock next time | .nextLock next time | .nextUnlock next time =>
    completions time next
  | .exited => []

/-! ## Steps -/

/-- Only the body of `addToSummary` touches the summary and what remains to be written. -/
theorem code_cases {s : Shared υ} {p q : Point υ} (hhead : s.head = jobs)
    (h : (code (ι := Fin n) s p).next? = some q) :
    (∃ name next time, p = .summaryBody name next time ∧ q = .summaryUnlock next time ∧
      (code (ι := Fin n) s p).after s =
        { s with frontDisplay := addToSummary s.frontDisplay name time }) ∨
      ((code (ι := Fin n) s p).after s = s ∧ remaining jobs q = remaining jobs p) := by
  cases p with
  | summaryBody name next time =>
      cases h
      exact .inl ⟨name, next, time, rfl, rfl, rfl⟩
  | headRead =>
      cases h
      exact .inr ⟨rfl, by simp [remaining, hhead]⟩
  | loop placeholder time =>
      cases placeholder with
      | nil =>
          cases h
          exact .inr ⟨rfl, rfl⟩
      | cons job next =>
          cases h
          exact .inr ⟨rfl, by simp [remaining, completions, arrive_eq]⟩
  | jobUnlock job next time =>
      cases h
      exact .inr ⟨rfl, by simp [remaining, displayLoop_toNat]⟩
  | exited => cases h
  | headLock | headUnlock | jobLock | summaryLock | summaryUnlock | nextLock | nextUnlock =>
      cases h
      exact .inr ⟨rfl, rfl⟩

theorem replay_of_reachable (h : (program n jobs).Reachable c) :
    Replay (completions 0 jobs) (c.shared.frontDisplay.map Display.entry)
      fun i => remaining jobs (points c i) := by
  refine (points_invariant (P := fun s ps => s.head = jobs ∧ Replay (completions 0 jobs)
    (s.frontDisplay.map Display.entry) fun i => remaining jobs (ps i)) h
    ⟨rfl, Replay.start _⟩ ?_).2
  rintro s ps i q ⟨hhead, hreplay⟩ hq
  have hupdate : (fun j => remaining jobs (Function.update ps i q j)) =
      Function.update (fun j => remaining jobs (ps j)) i (remaining jobs q) :=
    Function.comp_update (remaining jobs) ps i q
  rcases code_cases hhead hq with ⟨name, next, time, hp, rfl, hafter⟩ | ⟨hafter, hsame⟩
  · rw [hafter, hupdate]
    refine ⟨hhead, ?_⟩
    rw [map_addToSummary]
    exact hreplay.write (by rw [hp]; rfl)
  · rw [hafter, hupdate, hsame, Function.update_eq_self]
    exact ⟨hhead, hreplay⟩

/-! ## Result -/

theorem remaining_of_joined (h : Joined c) (i : Fin n) : remaining jobs (points c i) = [] := by
  have hhalt := isHalt_of_halted (h i)
  cases hp : points c i with
  | exited => rfl
  | loop placeholder time =>
      rw [hp] at hhalt
      cases placeholder <;> cases hhalt
  | _ =>
      rw [hp] at hhalt
      cases hhalt

/-- For any jobs, any positive number of display threads and any interleaving: when the
threads have been joined, the summary has one entry for each user, in the order of the
users' first jobs, with the completion time of the last job; one display thread alone
leaves the same. -/
theorem summary_correct (n : ℕ) (hn : 1 ≤ n) (jobs : List (Job υ))
    (c : Config (Fin n) (Shared υ) (Point υ) Mutex Empty) (h : (program n jobs).Reachable c)
    (hjoined : Joined c) :
    c.shared.frontDisplay.map Display.entry = summary (completions 0 jobs) ∧
      ∀ c₁, (program 1 jobs).Reachable c₁ → Joined c₁ →
        c.shared.frontDisplay = c₁.shared.frontDisplay := by
  have : Nonempty (Fin n) := ⟨⟨0, hn⟩⟩
  have hsummary := (replay_of_reachable h).finish (remaining_of_joined hjoined)
  refine ⟨hsummary, fun c₁ h₁ hjoined₁ => ?_⟩
  have hsummary₁ := (replay_of_reachable h₁).finish (remaining_of_joined hjoined₁)
  refine List.map_injective_iff.mpr ?_ (hsummary.trans hsummary₁.symm)
  rintro ⟨u, t⟩ ⟨u', t'⟩ heq
  simpa [Display.entry] using heq

/-- Two threads on two jobs of one user: thread `i` puts an old time back before it
writes the last one. -/
def twoThreads (i j : Fin 2) : Option (Config (Fin 2) (Shared ℕ) (Point ℕ) Mutex Empty) :=
  (program 2 [⟨7, 1, 2⟩, ⟨7, 0, 4⟩]).exec (program 2 [⟨7, 1, 2⟩, ⟨7, 0, 4⟩]).init
    (List.replicate 6 (.run i none) ++ List.replicate 20 (.run j none) ++
      List.replicate 14 (.run i none))

theorem summary_correct_two : ∃ c, twoThreads 0 1 = some c ∧
    c.shared.frontDisplay.map Display.entry = summary [(7, 3), (7, 7)] := by
  have hrun : (twoThreads 0 1).isSome = true := by decide
  have hjoined : Joined ((twoThreads 0 1).get hrun) := by
    intro i
    match i with
    | 0 => rfl
    | 1 => rfl
  exact ⟨(twoThreads 0 1).get hrun, (Option.some_get hrun).symm,
    (summary_correct 2 (by decide) _ _ (System.Reachable.init.exec (Option.some_get hrun).symm)
      hjoined).1⟩

end PthreadBenchmark.Jobs
