import PthreadBenchmark.Shared.PthreadProgress

/-! # Programs that come to rest

Where each operation brings a measure down, a program that goes on as long as it can gets stuck.
A thread that signals pays for the thread that it wakes. -/

namespace PthreadBenchmark

namespace Pthread

variable {ι σ π μ κ : Type*}

/-- The rank of a thread: `r` at the point where it runs, `a` at the point behind the wait in which
it sleeps. -/
def restRank (r a : π → ℕ) : Status π μ κ → ℕ
  | .running p => r p
  | .asleep _ _ p => a p
  | .woken _ p => r p + 1

theorem restRank_wake_le [DecidableEq κ] {r a : π → ℕ} {gain : ℕ}
    (hgain : ∀ x, r x + 1 ≤ a x + gain) (cond : κ) (t : Status π μ κ) :
    restRank r a (wake cond t) ≤ restRank r a t + gain := by
  cases t with
  | running p => exact Nat.le_add_right _ _
  | woken m p => exact Nat.le_add_right _ _
  | asleep c m p =>
      simp only [wake]
      split
      · exact hgain p
      · exact Nat.le_add_right _ _

variable [Fintype ι]

/-- The operation lowers the rank of its thread and the potential of the shared variables, together
and by more than what is gained by the threads that it wakes. -/
def Lowers (r a : π → ℕ) (potential : σ → ℕ) (c : Config ι σ π μ κ) (p : π) :
    Op ι σ π μ κ → Prop
  | .lock _ q | .unlock _ q | .join _ q => r q < r p
  | .wait _ _ q => a q < r p
  | .signal cond q =>
    r q < r p ∧ ∀ j m x, c.threads j = .asleep cond m x → r q + r x + 1 < r p + a x
  | .broadcast _ q => ∃ gain, (∀ x, r x + 1 ≤ a x + gain) ∧ r q + Fintype.card ι * gain < r p
  | .run s' q => potential s' + r q < potential c.shared + r p
  | .halt => True

variable [DecidableEq ι] [DecidableEq μ] [DecidableEq κ] {code : σ → π → Op ι σ π μ κ}
  {c c' : Config ι σ π μ κ} {i : ι} {target : Option ι} {r a : π → ℕ} {potential : σ → ℕ}

/-- A step of a thread lowers the measure. -/
theorem lt_of_step
    (hlower : ∀ p, c.threads i = .running p → Lowers r a potential c p (code c.shared p))
    (h : step code c (.run i target) = some c') :
    potential c'.shared + weight (restRank r a) c'.threads <
      potential c.shared + weight (restRank r a) c.threads := by
  cases hi : c.threads i with
  | asleep cond m next => simp [step, hi] at h
  | woken m next =>
      simp only [step, hi, exec] at h
      split at h
      · cases h
        exact Nat.add_lt_add_left (weight_update_lt (by rw [hi]; exact Nat.lt_succ_self _)) _
      · cases h
  | running p =>
      have hlow := hlower p hi
      have hmove : ∀ q, weight (restRank r a) (Function.update c.threads i (.running q)) + r p =
          weight (restRank r a) c.threads + r q := by
        intro q
        have hweight := weight_update (restRank r a) c.threads i (.running q)
        rwa [hi] at hweight
      simp only [step, hi] at h
      cases hop : code c.shared p <;> simp only [hop, exec] at h hlow
      case lock m next =>
        have hnext := hmove next
        split at h
        · cases h
          simp only [Lowers] at hlow ⊢
          omega
        · cases h
      case unlock m next =>
        have hnext := hmove next
        split at h
        · cases h
          simp only [Lowers] at hlow ⊢
          omega
        · cases h
      case wait cond m next =>
        have hnext := weight_update (restRank r a) c.threads i (.asleep cond m next)
        rw [hi] at hnext
        simp only [restRank] at hnext
        split at h
        · cases h
          simp only [Lowers] at hlow ⊢
          omega
        · cases h
      case signal cond next =>
        have hnext := hmove next
        cases target with
        | none =>
            simp only at h
            split at h
            · cases h
            · cases h
              simp only [Lowers] at hlow ⊢
              omega
        | some j =>
            simp only at h
            split at h
            · next hasleep =>
                cases h
                obtain ⟨m, x, hj⟩ := exists_asleep hasleep
                have hne : i ≠ j := by
                  intro heq
                  subst heq
                  rw [hi] at hj
                  cases hj
                have hpays := hlow.2 j m x hj
                have hwoken := weight_update (restRank r a) c.threads j (wake cond (c.threads j))
                have hsender := weight_update (restRank r a)
                  (Function.update c.threads j (wake cond (c.threads j))) i (.running next)
                rw [Function.update_of_ne hne, hi] at hsender
                simp only [hj, wake, if_true, restRank] at hwoken hsender ⊢
                omega
            · cases h
      case broadcast cond next =>
        cases h
        obtain ⟨gain, hgain, hpays⟩ := hlow
        have hall := weight_le_add fun j => restRank_wake_le hgain cond (c.threads j)
        have hsender := weight_update (restRank r a) (fun j => wake cond (c.threads j)) i
          (.running next)
        have hself : wake cond (.running p : Status π μ κ) = .running p := rfl
        simp only [hi, hself, restRank] at hsender ⊢
        omega
      case run s next =>
        cases h
        have hnext := hmove next
        simp only [Lowers] at hlow ⊢
        omega
      case join j next =>
        have hnext := hmove next
        split at h
        · cases h
          simp only [Lowers] at hlow ⊢
          omega
        · cases h
      case halt => cases h

/-- From each reachable state the threads can go on until the program is stuck. -/
theorem exists_stuck (potential : σ → ℕ) {shared : σ} {start : ι → π}
    (hlower : ∀ c, (program code shared start).Reachable c → ∀ i p, c.threads i = .running p →
      Lowers r a potential c p (code c.shared p))
    (h : (program code shared start).Reachable c) :
    ∃ ls c', (program code shared start).exec c ls = some c' ∧ Stuck code c' := by
  have hrun : ∃ ls c', (∀ l ∈ ls, True) ∧ (program code shared start).exec c ls = some c' ∧
      Stuck code c' :=
    h.exists_exec_final (fun c => potential c.shared + weight (restRank r a) c.threads)
    fun c hc hgoes => by
      obtain ⟨i, target, hstep⟩ : ∃ i target, step code c (.run i target) ≠ none := by
        simpa only [Stuck, not_forall] using hgoes
      obtain ⟨c', hc'⟩ := Option.ne_none_iff_exists'.mp hstep
      exact ⟨.run i target, c', trivial, hc', lt_of_step (hlower c hc i) hc'⟩
  obtain ⟨ls, c', -, hexec, hstuck⟩ := hrun
  exact ⟨ls, c', hexec, hstuck⟩

/-- Without condition variables and joins the threads can go on until all have halted. -/
theorem exists_halted [IsEmpty κ] {inside : π → μ → Prop} (hflat : Flat inside code)
    (hjoin : ∀ s p j q, code s p ≠ .join j q) (potential : σ → ℕ) {shared : σ} {start : ι → π}
    (hstart : ∀ i m, ¬ inside (start i) m)
    (hlower : ∀ c, (program code shared start).Reachable c → ∀ i p, c.threads i = .running p →
      Lowers r a potential c p (code c.shared p))
    (h : (program code shared start).Reachable c) :
    ∃ ls c', (program code shared start).exec c ls = some c' ∧
      ∀ i, Halted code c'.shared (c'.threads i) := by
  obtain ⟨ls, c', hexec, hstuck⟩ := exists_stuck potential hlower h
  have howned := owned_of_reachable hflat.tracks hstart (h.exec hexec)
  refine ⟨ls, c', hexec, fun i => ?_⟩
  rcases hstuck.halted_or_asleep hflat howned hjoin i with hhalted | ⟨cond, -⟩
  · exact hhalted
  · exact isEmptyElim cond

/-! ## A thread that brings the program on -/

/-- A thread that is not at a mutex that is taken goes on. -/
theorem Flat.exists_next [IsEmpty κ] {inside : π → μ → Prop} {p q : π} (hflat : Flat inside code)
    (hjoin : ∀ s p j q, code s p ≠ .join j q) (howned : Owned inside c)
    (hi : c.threads i = .running p) (hfree : ∀ m q, code c.shared p = .lock m q → c.owner m = none)
    (hq : (code c.shared p).next? = some q) :
    ∃ c', step code c (.run i none) = some c' ∧ c'.shared = (code c.shared p).after c.shared ∧
      c'.threads = Function.update c.threads i (.running q) := by
  cases hop : code c.shared p with
  | lock m q' =>
      rw [hop] at hq
      cases hq
      exact ⟨_, step_lock hi hop (hfree m q hop), rfl, rfl⟩
  | unlock m q' =>
      have hin := hflat.proper c.shared p
      rw [hop] at hq hin
      cases hq
      exact ⟨_, step_unlock hi hop (howned.owner_of_inside hi hin), rfl, rfl⟩
  | run s q' =>
      rw [hop] at hq
      cases hq
      exact ⟨_, step_run hi hop, rfl, rfl⟩
  | join j q' => exact absurd hop (hjoin _ _ _ _)
  | halt =>
      rw [hop] at hq
      cases hq
  | wait cond | signal cond | broadcast cond => exact isEmptyElim cond

/-- A mutex that no thread is inside of is free. -/
theorem free_of_not_inside [IsEmpty κ] {inside : π → μ → Prop} {m : μ} {shared : σ} {start : ι → π}
    (htracks : ∀ s p, Tracks inside p (code s p)) (hstart : ∀ i m, ¬ inside (start i) m)
    (h : (program code shared start).Reachable c) (hnone : ∀ i, ¬ inside (points c i) m) :
    c.owner m = none := by
  have howned := owned_of_reachable htracks hstart h
  cases hown : c.owner m with
  | none => rfl
  | some i =>
      have hholds := (howned.owner i m).mp hown
      rw [running_of_points not_wait h (i := i) rfl] at hholds
      exact absurd hholds (hnone i)

/-- The next step of the thread is possible and brings the measure down. -/
def Helps (code : σ → π → Op ι σ π μ κ) (measure : σ → (ι → π) → ℕ) (c : Config ι σ π μ κ)
    (i : ι) : Prop :=
  ∃ q, (∀ m q, code c.shared (points c i) = .lock m q → c.owner m = none) ∧
    (code c.shared (points c i)).next? = some q ∧
    measure ((code c.shared (points c i)).after c.shared) (Function.update (points c) i q) <
      measure c.shared (points c)

/-- The rule for programs whose threads may go round in loops: as long as the aim is not reached
there is a thread whose next step brings the measure down. -/
theorem exists_final_of_helpful [IsEmpty κ] {inside : π → μ → Prop} (hflat : Flat inside code)
    (hjoin : ∀ s p j q, code s p ≠ .join j q) {shared : σ} {start : ι → π}
    (hstart : ∀ i m, ¬ inside (start i) m) (measure : σ → (ι → π) → ℕ)
    {Final : Config ι σ π μ κ → Prop}
    (hhelp : ∀ c, (program code shared start).Reachable c → ¬ Final c →
      ∃ i, Helps code measure c i)
    (h : (program code shared start).Reachable c) :
    ∃ ls c', (program code shared start).exec c ls = some c' ∧ Final c' := by
  have hrun : ∃ ls c', (∀ l ∈ ls, True) ∧ (program code shared start).exec c ls = some c' ∧
      Final c' :=
    h.exists_exec_final (fun c => measure c.shared (points c)) fun c hc hfinal => by
      obtain ⟨i, q, hfree, hq, hlt⟩ := hhelp c hc hfinal
      have howned := owned_of_reachable hflat.tracks hstart hc
      have hi := running_of_points not_wait hc (i := i) rfl
      obtain ⟨c', hstep, hshared, hthreads⟩ := hflat.exists_next hjoin howned hi hfree hq
      have hpoints : points c' = Function.update (points c) i q := by
        funext j
        rw [points, hthreads]
        exact congrFun (point_comp_update c.threads i (.running q)) j
      exact ⟨.run i none, c', trivial, hstep, by rwa [hshared, hpoints]⟩
  obtain ⟨ls, c', -, hexec, hfinal⟩ := hrun
  exact ⟨ls, c', hexec, hfinal⟩

end Pthread

end PthreadBenchmark
