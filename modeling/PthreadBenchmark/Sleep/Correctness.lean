import PthreadBenchmark.Sleep.Model

/-! # When the deadline is the current time plus the duration -/

namespace PthreadBenchmark.Sleep

open Concurio.Absolute (Timeval)

variable {deadline t : Timespec} {sec nsec : ℤ} {usecs : UInt32}

/-- The time in nanoseconds. -/
def Timespec.value (t : Timespec) : ℤ := t.tvSec * 1000000000 + t.tvNsec

def Timespec.Normal (t : Timespec) : Prop := 0 ≤ t.tvNsec ∧ t.tvNsec < 1000000000

instance (t : Timespec) : Decidable t.Normal :=
  inferInstanceAs (Decidable (0 ≤ t.tvNsec ∧ t.tvNsec < 1000000000))

/-- Every deadline that is handed to `pthread_cond_timedwait` is the time `due`, in nanoseconds. -/
def Due (due : ℤ) (events : List Event) : Prop :=
  ∀ deadline, .timedwait deadline ∈ events → deadline.value = due ∧ deadline.Normal

/-! ## The calls that are made -/

theorem timedwait_mem_waits (results : List ℤ) :
    .timedwait t ∈ waits deadline results ↔ t = deadline := by
  induction results with
  | nil => simp [waits]
  | cons result results ih =>
      rw [waits, List.mem_cons]
      split
      · simp [ih]
      · simp

theorem timedwait_not_mem_finish (r : Returns) : .timedwait t ∉ finish r := by
  rw [finish]
  split <;> simp

theorem due_pthreadUsleep (due : ℤ) (now : Timespec) (results : List ℤ) :
    Due due (pthreadUsleep usecs now results) ↔
      (usleepDeadline usecs now).value = due ∧ (usleepDeadline usecs now).Normal := by
  simp [Due, pthreadUsleep, timedwait_mem_waits]

/-- There is no deadline if the mutex cannot be locked. -/
theorem due_thrSleep (due : ℤ) (now : Timeval) (r : Returns) :
    Due due (thrSleep sec nsec now r) ↔
      r.lock ≠ 0 ∨ (thrSleepDeadline sec nsec now).value = due ∧
        (thrSleepDeadline sec nsec now).Normal := by
  have hmem (t : Timespec) : .timedwait t ∈ thrSleep sec nsec now r ↔
      r.lock = 0 ∧ t = thrSleepDeadline sec nsec now := by
    rw [thrSleep]
    by_cases hlock : r.lock = 0
    · simp only [hlock, ne_eq, not_true_eq_false, if_false, List.mem_cons, reduceCtorEq, false_or,
        Event.timedwait.injEq, true_and, or_iff_left_iff_imp]
      intro hrest
      split at hrest
      · split at hrest
        · simp [timedwait_not_mem_finish] at hrest
        · simp at hrest
      · exact absurd hrest (timedwait_not_mem_finish r)
    · simp [hlock]
  simp only [Due, hmem]
  by_cases hlock : r.lock = 0 <;> simp [hlock]

/-! ## The deadlines -/

/-- The carry is right, so only the product can be wrong. -/
theorem usleepDeadline_spec {now : Timespec} (hnow : now.Normal) :
    (usleepDeadline usecs now).value = now.value + (usecs * 1000).toNat ∧
      (usleepDeadline usecs now).Normal := by
  obtain ⟨h0, h1⟩ := hnow
  have hproduct : 0 ≤ ((usecs * 1000).toNat : ℤ) := Int.natCast_nonneg _
  simp only [usleepDeadline, ge_iff_le]
  split
  · rw [Int.tdiv_eq_ediv_of_nonneg (by omega), Int.tmod_eq_emod_of_nonneg (by omega)]
    simp only [Timespec.value, Timespec.Normal]
    omega
  · simp only [Timespec.value, Timespec.Normal]
    omega

theorem toNat_mul_thousand (usecs : UInt32) :
    (usecs * 1000).toNat = usecs.toNat * 1000 ↔ usecs.toNat ≤ 4294967 := by
  rw [UInt32.toNat_mul]
  have hlt := usecs.toNat_lt
  simp only [UInt32.reduceToNat, Nat.reducePow] at hlt ⊢
  omega

/-- The carry is left out for a sum of exactly one second. -/
theorem thrSleepDeadline_iff {now : Timeval} (hnow : now.Normal) (hnsec : 0 ≤ nsec) :
    ((thrSleepDeadline sec nsec now).value = now.value * 1000 + (sec * 1000000000 + nsec) ∧
      (thrSleepDeadline sec nsec now).Normal) ↔
      now.tvUsec * 1000 + nsec % 1000000000 ≠ 1000000000 := by
  obtain ⟨h0, h1⟩ := hnow
  simp only [thrSleepDeadline, Int.tdiv_eq_ediv_of_nonneg hnsec, Int.tmod_eq_emod_of_nonneg hnsec]
  split <;> simp only [Timespec.value, Timespec.Normal, Concurio.Absolute.Timeval.value] <;> omega

/-! ## Result -/

/-- For any current time whose fraction is below a second and any duration. The deadline of
`pthread_usleep` is that time plus the duration, and its fraction below a second, if and only if the
product does not wrap. That of `thr_sleep`, if there is one, is if and only if the two fractions do
not add up to exactly one second. -/
theorem due_iff (usecs : UInt32) (now : Timespec) (results : List ℤ) (sec nsec : ℤ)
    (clock : Timeval) (r : Returns) (hnow : now.Normal) (hclock : clock.Normal) (hnsec : 0 ≤ nsec) :
    (Due (now.value + usecs.toNat * 1000) (pthreadUsleep usecs now results) ↔
      usecs.toNat ≤ 4294967) ∧
    (Due (clock.value * 1000 + (sec * 1000000000 + nsec)) (thrSleep sec nsec clock r) ↔
      r.lock ≠ 0 ∨ clock.tvUsec * 1000 + nsec % 1000000000 ≠ 1000000000) := by
  constructor
  · have hdeadline : (usleepDeadline usecs now).value = now.value + (usecs * 1000).toNat ∧
        (usleepDeadline usecs now).Normal := usleepDeadline_spec hnow
    obtain ⟨hvalue, hnormal⟩ := hdeadline
    rw [due_pthreadUsleep, hvalue, and_iff_left hnormal, add_right_inj, ← toNat_mul_thousand]
    exact_mod_cast Iff.rfl
  · rw [due_thrSleep, thrSleepDeadline_iff hclock hnsec]

/-- Both sleep for a second and a half. -/
theorem due_iff_second :
    Due 2400000000 (pthreadUsleep 1500000 ⟨0, 900000000⟩ [110]) ∧
      Due 2400000000 (thrSleep 1 500000000 ⟨0, 900000⟩ ⟨0, 110, 0⟩) := by
  obtain ⟨husleep, hsleep⟩ := due_iff 1500000 ⟨0, 900000000⟩ [110] 1 500000000 ⟨0, 900000⟩
    ⟨0, 110, 0⟩ (by decide) (by decide) (by decide)
  exact ⟨husleep.mpr (by decide), hsleep.mpr (by decide)⟩

/-- `pthread_usleep` sleeps for 704 nanoseconds instead of 4.294968 seconds, and the deadline of
`thr_sleep` has a billion nanoseconds. -/
theorem deadline_wrong :
    pthreadUsleep 4294968 ⟨0, 0⟩ [110] = [.lock, .timedwait ⟨0, 704⟩, .unlock] ∧
      ¬ Due 4294968000 (pthreadUsleep 4294968 ⟨0, 0⟩ [110]) ∧
      ¬ Due 1000000000 (thrSleep 0 500000000 ⟨0, 500000⟩ ⟨0, 110, 0⟩) := by
  refine ⟨by decide, fun h => ?_, fun h => ?_⟩
  · exact absurd (h ⟨0, 704⟩ (by decide)).1 (by decide)
  · exact absurd (h ⟨0, 1000000000⟩ (by decide)).2 (by decide)

end PthreadBenchmark.Sleep
