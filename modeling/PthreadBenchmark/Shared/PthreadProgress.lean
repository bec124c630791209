import PthreadBenchmark.Shared.PthreadRules
import Mathlib.Data.Fintype.Lattice

/-! # Progress of programs with mutexes and condition variables

A thread that cannot go on has halted, sleeps, joins a thread that has not halted, or wants
a mutex that is owned. Where mutexes are taken in ascending order, not all threads can want one. -/

namespace PthreadBenchmark

namespace System

variable {σ ℓ : Type*} {S : System σ ℓ}

/-- If every state that is not final has an allowed step that makes its rank smaller, some run
of allowed steps leads from each state with a rank to a final one. -/
theorem exists_exec_final {Final : σ → Prop} {Allowed : ℓ → Prop} {R : σ → ℕ → Prop}
    (hstep : ∀ s n, R s n → ¬ Final s →
      ∃ l s' n', Allowed l ∧ S.step s l = some s' ∧ R s' n' ∧ n' < n)
    {s : σ} {n : ℕ} (hs : R s n) :
    ∃ ls s', (∀ l ∈ ls, Allowed l) ∧ S.exec s ls = some s' ∧ Final s' := by
  induction n using Nat.strong_induction_on generalizing s with
  | _ n ih =>
      by_cases hfinal : Final s
      · exact ⟨[], s, by simp, rfl, hfinal⟩
      · obtain ⟨l, s', n', hallowed, hl, hranked, hlt⟩ := hstep s n hs hfinal
        obtain ⟨ls, t, hls, hexec, ht⟩ := ih n' hlt hranked
        refine ⟨l :: ls, t, ?_, by rw [exec_cons, hl, Option.bind_some, hexec], ht⟩
        exact List.forall_mem_cons.mpr ⟨hallowed, hls⟩

/-- The rule for a measure of the reachable states. -/
theorem Reachable.exists_exec_final {Final : σ → Prop} {Allowed : ℓ → Prop} (measure : σ → ℕ)
    (hstep : ∀ s, S.Reachable s → ¬ Final s →
      ∃ l s', Allowed l ∧ S.step s l = some s' ∧ measure s' < measure s)
    {s : σ} (hs : S.Reachable s) :
    ∃ ls s', (∀ l ∈ ls, Allowed l) ∧ S.exec s ls = some s' ∧ Final s' := by
  apply System.exists_exec_final (R := fun s n => S.Reachable s ∧ measure s = n) _ ⟨hs, rfl⟩
  intro s n hranked hfinal
  obtain ⟨hs, hn⟩ := hranked
  obtain ⟨l, s', hallowed, hl, hlt⟩ := hstep s hs hfinal
  exact ⟨l, s', measure s', hallowed, hl, ⟨hs.step l hl, rfl⟩, by omega⟩

end System

namespace Pthread

variable {ι σ π μ κ : Type*} {code : σ → π → Op ι σ π μ κ} {c c' : Config ι σ π μ κ} {i : ι}
  {p q : π} {m : μ} {cond : κ} {inside : π → μ → Prop}

/-- A thread that is inside of a mutex owns it. -/
theorem Owned.owner_of_inside (howned : Owned inside c) (hi : c.threads i = .running p)
    (hin : inside p m) : c.owner m = some i :=
  (howned.owner i m).mpr (by rw [hi]; exact hin)

/-- A mutex is given back only inside of it. -/
def Proper (inside : π → μ → Prop) (p : π) : Op ι σ π μ κ → Prop
  | .unlock m _ => inside p m
  | _ => True

/-- The operation does not depend on other threads. -/
def Flows : Op ι σ π μ κ → Prop
  | .lock _ _ | .join _ _ | .halt => False
  | _ => True

/-- Each point is inside of at most one mutex, and the operations inside of it are possible. -/
structure Flat (inside : π → μ → Prop) (code : σ → π → Op ι σ π μ κ) : Prop where
  tracks : ∀ s p, Tracks inside p (code s p)
  proper : ∀ s p, Proper inside p (code s p)
  unique : ∀ {p m m'}, inside p m → inside p m' → m = m'
  flows : ∀ {s p m}, inside p m → Flows (code s p)

/-- The owner of a mutex is running inside of it. -/
theorem Flat.running_of_owner (hflat : Flat inside code) (howned : Owned inside c)
    (hown : c.owner m = some i) : ∃ p, c.threads i = .running p ∧ inside p m := by
  have hholds := (howned.owner i m).mp hown
  have hreturns := howned.returns i
  cases hi : c.threads i with
  | running p => exact ⟨p, rfl, by rwa [hi] at hholds⟩
  | asleep cond m' p =>
      rw [hi] at hholds hreturns
      exact absurd (hflat.unique hholds.2 hreturns) hholds.1
  | woken m' p =>
      rw [hi] at hholds hreturns
      exact absurd (hflat.unique hholds.2 hreturns) hholds.1

/-- The thread wants the mutex next. -/
def Wants (code : σ → π → Op ι σ π μ κ) (s : σ) (m : μ) : Status π μ κ → Prop
  | .running p => ∃ q, code s p = .lock m q
  | .woken m' _ => m' = m
  | .asleep _ _ _ => False

variable [Fintype ι]

/-! ## Mutexes in ascending order -/

/-- If each thread takes its mutexes in ascending order and halts without one, then of the
threads that have not halted one does not want an owned mutex. -/
theorem exists_not_waiting (rank : μ → ℕ) (howned : Owned inside c)
    (hhalted : ∀ i, Halted code c.shared (c.threads i) → ∀ m, ¬ Holds inside m (c.threads i))
    (hrank : ∀ i m m', Wants code c.shared m (c.threads i) → Holds inside m' (c.threads i) →
      rank m' < rank m)
    (hsome : ∃ i, ¬ Halted code c.shared (c.threads i)) :
    ∃ i, ¬ Halted code c.shared (c.threads i) ∧
      ∀ m, Wants code c.shared m (c.threads i) → c.owner m = none := by
  classical
  by_contra hall
  have hwants : ∀ i, ¬ Halted code c.shared (c.threads i) →
      ∃ m j, Wants code c.shared m (c.threads i) ∧ c.owner m = some j := by
    intro i hi
    by_contra hnone
    refine hall ⟨i, hi, fun m hm => ?_⟩
    cases hown : c.owner m with
    | none => rfl
    | some j => exact absurd ⟨m, j, hm, hown⟩ hnone
  -- an unfinished thread whose wanted mutex is of the highest rank
  obtain ⟨i₀, hi₀⟩ := hsome
  obtain ⟨m₀, -⟩ := hwants i₀ hi₀
  have : Nonempty μ := ⟨m₀⟩
  have : Nonempty ι := ⟨i₀⟩
  choose! wanted holder hw using hwants
  obtain ⟨i, hi, hmax⟩ := Finset.exists_max_image
    (Finset.univ.filter fun i => ¬ Halted code c.shared (c.threads i))
    (fun i => rank (wanted i)) ⟨i₀, by simpa using hi₀⟩
  have hi' : ¬ Halted code c.shared (c.threads i) := by simpa using hi
  obtain ⟨-, hown⟩ := hw i hi'
  have hholds := (howned.owner (holder i) (wanted i)).mp hown
  have hj : ¬ Halted code c.shared (c.threads (holder i)) :=
    fun hhalt => hhalted _ hhalt _ hholds
  have hlt := hrank _ _ _ (hw _ hj).1 hholds
  have hle := hmax (holder i) (by simpa using hj)
  omega

variable [DecidableEq ι] [DecidableEq μ] [DecidableEq κ]

/-! ## Steps that are possible -/

theorem step_lock (hi : c.threads i = .running p) (hop : code c.shared p = .lock m q)
    (hfree : c.owner m = none) :
    step code c (.run i none) = some ⟨Function.update c.owner m (some i), c.shared,
      Function.update c.threads i (.running q)⟩ := by
  simp [step, hi, hop, exec, hfree]

theorem step_unlock (hi : c.threads i = .running p) (hop : code c.shared p = .unlock m q)
    (hown : c.owner m = some i) :
    step code c (.run i none) = some ⟨Function.update c.owner m none, c.shared,
      Function.update c.threads i (.running q)⟩ := by
  simp [step, hi, hop, exec, hown]

theorem step_wait (hi : c.threads i = .running p) (hop : code c.shared p = .wait cond m q)
    (hown : c.owner m = some i) :
    step code c (.run i none) = some ⟨Function.update c.owner m none, c.shared,
      Function.update c.threads i (.asleep cond m q)⟩ := by
  simp [step, hi, hop, exec, hown]

theorem step_broadcast (hi : c.threads i = .running p)
    (hop : code c.shared p = .broadcast cond q) :
    step code c (.run i none) = some ⟨c.owner, c.shared,
      Function.update (fun j => wake cond (c.threads j)) i (.running q)⟩ := by
  simp [step, hi, hop, exec]

theorem step_run {s : σ} (hi : c.threads i = .running p) (hop : code c.shared p = .run s q) :
    step code c (.run i none) = some ⟨c.owner, s, Function.update c.threads i (.running q)⟩ := by
  simp [step, hi, hop, exec]

theorem step_join {j : ι} (hi : c.threads i = .running p) (hop : code c.shared p = .join j q)
    (hhalted : Halted code c.shared (c.threads j)) :
    step code c (.run i none) = some ⟨c.owner, c.shared,
      Function.update c.threads i (.running q)⟩ := by
  simp [step, hi, hop, exec, hhalted]

theorem step_relock (hi : c.threads i = .woken m q) (hfree : c.owner m = none) :
    step code c (.run i none) = some ⟨Function.update c.owner m (some i), c.shared,
      Function.update c.threads i (.running q)⟩ := by
  simp [step, hi, exec, hfree]

/-- A signal is always possible. -/
theorem exists_step_signal (hi : c.threads i = .running p)
    (hop : code c.shared p = .signal cond q) :
    ∃ target c', step code c (.run i target) = some c' := by
  by_cases hasleep : ∃ j, AsleepOn cond (c.threads j)
  · obtain ⟨j, hj⟩ := hasleep
    exact ⟨some j, _, by simp [step, hi, hop, exec, hj]; rfl⟩
  · exact ⟨none, _, by simp [step, hi, hop, exec, hasleep]; rfl⟩

/-! ## Steps that lower a measure -/

/-- The operation is possible and lowers the rank of its thread `i`, by more than what it adds
to the ranks of the threads that it wakes, `gain` for each. -/
def Descends (rank : Status π μ κ → ℕ) (gain : ℕ) (c : Config ι σ π μ κ) (i : ι) (p : π) :
    Op ι σ π μ κ → Prop
  | .lock m q => c.owner m = none ∧ rank (.running q) < rank (.running p)
  | .unlock m q => c.owner m = some i ∧ rank (.running q) < rank (.running p)
  | .wait cond m q => c.owner m = some i ∧ rank (.asleep cond m q) < rank (.running p)
  | .signal _ q => rank (.running q) + gain < rank (.running p)
  | .broadcast _ q => rank (.running q) + Fintype.card ι * gain < rank (.running p)
  | .run _ q => rank (.running q) < rank (.running p)
  | .join _ _ | .halt => False

theorem exists_step_of_descends {rank : Status π μ κ → ℕ} {gain : ℕ}
    (hwake : ∀ cond t, rank (wake cond t) ≤ rank t + gain) (hi : c.threads i = .running p)
    (h : Descends rank gain c i p (code c.shared p)) :
    ∃ target c', step code c (.run i target) = some c' ∧
      weight rank c'.threads < weight rank c.threads := by
  cases hop : code c.shared p with
  | lock m q =>
      rw [hop] at h
      exact ⟨none, _, step_lock hi hop h.1, weight_update_lt (by rw [hi]; exact h.2)⟩
  | unlock m q =>
      rw [hop] at h
      exact ⟨none, _, step_unlock hi hop h.1, weight_update_lt (by rw [hi]; exact h.2)⟩
  | wait cond m q =>
      rw [hop] at h
      exact ⟨none, _, step_wait hi hop h.1, weight_update_lt (by rw [hi]; exact h.2)⟩
  | run s q =>
      rw [hop] at h
      exact ⟨none, _, step_run hi hop, weight_update_lt (by rw [hi]; exact h)⟩
  | broadcast cond q =>
      rw [hop] at h
      refine ⟨none, _, step_broadcast hi hop, ?_⟩
      have hall := weight_le_add fun j => hwake cond (c.threads j)
      have hmove := weight_update rank (fun j => wake cond (c.threads j)) i (.running q)
      have hself : wake cond (.running p : Status π μ κ) = .running p := rfl
      simp only [Descends, hi, hself] at h hmove ⊢
      omega
  | signal cond q =>
      rw [hop] at h
      obtain ⟨target, c', hstep⟩ := exists_step_signal hi hop
      refine ⟨target, c', hstep, ?_⟩
      simp only [step, hi, hop, exec] at hstep
      cases target with
      | none =>
          simp only at hstep
          split at hstep
          · cases hstep
          · cases hstep
            exact weight_update_lt (by rw [hi]; exact (Nat.le_add_right _ _).trans_lt h)
      | some j =>
          simp only at hstep
          split at hstep
          · next hasleep =>
              cases hstep
              have hne : i ≠ j := by
                intro heq
                subst heq
                rw [hi] at hasleep
                exact hasleep
              have hwoken := weight_update rank c.threads j (wake cond (c.threads j))
              have hmove := weight_update rank
                (Function.update c.threads j (wake cond (c.threads j))) i (.running q)
              have hgain := hwake cond (c.threads j)
              rw [Function.update_of_ne hne, hi] at hmove
              simp only [Descends] at h ⊢
              omega
          · cases hstep
  | join j q =>
      rw [hop] at h
      exact h.elim
  | halt =>
      rw [hop] at h
      exact h.elim

/-- A woken thread goes on. -/
theorem exists_step_of_woken {rank : Status π μ κ → ℕ} (hi : c.threads i = .woken m q)
    (hfree : c.owner m = none) (hrank : rank (.running q) < rank (.woken m q)) :
    ∃ target c', step code c (.run i target) = some c' ∧
      weight rank c'.threads < weight rank c.threads :=
  ⟨none, _, step_relock hi hfree, weight_update_lt (by rw [hi]; exact hrank)⟩

/-! ## Threads that cannot go on -/

/-- No thread can go on. Spurious wakeups do not count. -/
def Stuck (code : σ → π → Op ι σ π μ κ) (c : Config ι σ π μ κ) : Prop :=
  ∀ i target, step code c (.run i target) = none

/-- The reasons for which a thread cannot go on. -/
inductive Blocked (code : σ → π → Op ι σ π μ κ) (c : Config ι σ π μ κ) (i : ι) : Prop where
  | halted (h : Halted code c.shared (c.threads i))
  | asleep {cond : κ} (h : AsleepOn cond (c.threads i))
  | mutex {m : μ} {j : ι} (wants : Wants code c.shared m (c.threads i)) (own : c.owner m = some j)
  | join {p q : π} {j : ι} (thread : c.threads i = .running p) (op : code c.shared p = .join j q)
      (running : ¬ Halted code c.shared (c.threads j))

theorem blocked_of_no_step (htracks : ∀ s p, Tracks inside p (code s p))
    (hproper : ∀ s p, Proper inside p (code s p)) (howned : Owned inside c)
    (h : ∀ target, step code c (.run i target) = none) : Blocked code c i := by
  have hno : ∀ {target c'}, step code c (.run i target) ≠ some c' := by
    intro target c' heq
    rw [h target] at heq
    cases heq
  cases hi : c.threads i with
  | asleep cond m q =>
      have hasleep : AsleepOn cond (c.threads i) := by
        rw [hi]
        rfl
      exact .asleep hasleep
  | woken m q =>
      cases hown : c.owner m with
      | none => exact absurd (step_relock hi hown) hno
      | some j => exact .mutex (m := m) (by rw [hi]; rfl) hown
  | running p =>
      have htrack := htracks c.shared p
      have hprop := hproper c.shared p
      cases hop : code c.shared p with
      | halt => exact .halted (by simp [hi, Halted, hop, isHalt])
      | lock m q =>
          cases hown : c.owner m with
          | none => exact absurd (step_lock hi hop hown) hno
          | some j => exact .mutex (m := m) (by rw [hi]; exact ⟨q, hop⟩) hown
      | unlock m q =>
          rw [hop] at hprop
          exact absurd (step_unlock hi hop (howned.owner_of_inside hi hprop)) hno
      | wait cond m q =>
          rw [hop] at htrack
          exact absurd (step_wait hi hop (howned.owner_of_inside hi htrack.1)) hno
      | signal cond q =>
          obtain ⟨target, c', hstep⟩ := exists_step_signal hi hop
          exact absurd hstep hno
      | broadcast cond q => exact absurd (step_broadcast hi hop) hno
      | run s q => exact absurd (step_run hi hop) hno
      | join j q =>
          refine .join hi hop fun hhalted => ?_
          exact @hno none _ (by simp [step, hi, hop, exec, hhalted]; rfl)

/-! ## One mutex at a time -/

theorem Flat.exists_step_of_inside (hflat : Flat inside code) (howned : Owned inside c)
    (hi : c.threads i = .running p) (hin : inside p m) :
    ∃ target c', step code c (.run i target) = some c' := by
  by_contra hnone
  have hno : ∀ target, step code c (.run i target) = none := by
    intro target
    cases hstep : step code c (.run i target) with
    | none => rfl
    | some c' => exact absurd ⟨target, c', hstep⟩ hnone
  have hflows := hflat.flows (s := c.shared) hin
  cases blocked_of_no_step hflat.tracks hflat.proper howned hno with
  | halted h =>
      simp only [hi, Halted] at h
      cases hop : code c.shared p <;> rw [hop] at h hflows <;> first | exact hflows | cases h
  | asleep h =>
      rw [hi] at h
      exact h
  | mutex wants own =>
      rw [hi] at wants
      obtain ⟨q, hop⟩ := wants
      rw [hop] at hflows
      exact hflows
  | join thread op running =>
      obtain rfl : p = _ := Status.running.inj (hi.symm.trans thread)
      rw [op] at hflows
      exact hflows

/-- Where no thread can go on, no mutex is owned. -/
theorem Stuck.free (hflat : Flat inside code) (howned : Owned inside c) (h : Stuck code c)
    (m : μ) : c.owner m = none := by
  cases hown : c.owner m with
  | none => rfl
  | some i =>
      obtain ⟨p, hi, hin⟩ := hflat.running_of_owner howned hown
      obtain ⟨target, c', hstep⟩ := hflat.exists_step_of_inside howned hi hin
      rw [h i target] at hstep
      cases hstep

/-- Where no thread can go on and none joins another one, the threads have halted or sleep. -/
theorem Stuck.halted_or_asleep (hflat : Flat inside code) (howned : Owned inside c)
    (hjoin : ∀ s p j q, code s p ≠ .join j q) (h : Stuck code c) (i : ι) :
    Halted code c.shared (c.threads i) ∨ ∃ cond, AsleepOn cond (c.threads i) := by
  cases blocked_of_no_step hflat.tracks hflat.proper howned (h i) with
  | halted h => exact .inl h
  | asleep h => exact .inr ⟨_, h⟩
  | @mutex m j wants own =>
      rw [h.free hflat howned m] at own
      cases own
  | join thread op running => exact absurd op (hjoin _ _ _ _)

end Pthread

end PthreadBenchmark
