import PthreadBenchmark.Shared.Pthread
import PthreadBenchmark.Shared.PthreadRest

/-! # Threads that count with a lock

In `withmutex.c` each increment, a load and a store, is made under a mutex. -/

namespace PthreadBenchmark.Increments

inductive Mutex where
  | mutex1
  deriving DecidableEq, Repr

inductive LockedPoint where
  | loop (i : ℕ)
  | load (i : ℕ)
  | store (i value : ℕ)
  | unlock (i : ℕ)
  | exited
  deriving DecidableEq, Repr

/-- `increment_counter`. The amount is that of the thread. -/
structure Thread where
  amount : ℕ
  point : LockedPoint
  deriving DecidableEq, Repr

def incrementCounter {ι : Type*} (counter : ℕ) : Thread → Op ι ℕ Thread Mutex Empty
  | ⟨amount, .loop i⟩ =>
    if i < amount then .lock .mutex1 ⟨amount, .load i⟩ else .run counter ⟨amount, .exited⟩
  | ⟨amount, .load i⟩ => .run counter ⟨amount, .store i counter⟩
  | ⟨amount, .store i value⟩ => .run (value + 1) ⟨amount, .unlock i⟩
  | ⟨amount, .unlock i⟩ => .unlock .mutex1 ⟨amount, .loop (i + 1)⟩
  | ⟨_, .exited⟩ => .halt

/-- A round of `main`, which sets the counter to 0 before. -/
def lockedProgram {threads : ℕ} (amount : Fin threads → ℕ) :
    System (Config (Fin threads) ℕ Thread Mutex Empty) (Action (Fin threads)) :=
  Pthread.program incrementCounter 0 fun i => ⟨amount i, .loop 0⟩

open Pthread

variable {threads : ℕ} {amount : Fin threads → ℕ} {counter : ℕ} {ps : Fin threads → Thread}
  {i : Fin threads} {t q : Thread} {c : Config (Fin threads) ℕ Thread Mutex Empty}

def inside (t : Thread) (_ : Mutex) : Prop :=
  match t.point with
  | .load _ | .store _ _ | .unlock _ => True
  | .loop _ | .exited => False

/-- How often the thread has stored. -/
def Thread.stored (t : Thread) : ℕ :=
  match t.point with
  | .loop i | .load i | .store i _ => i
  | .unlock i => i + 1
  | .exited => t.amount

/-- The thread has its rounds ahead, and has loaded what the counter is. -/
def Thread.Fits (counter : ℕ) (t : Thread) : Prop :=
  match t.point with
  | .loop i => i ≤ t.amount
  | .load i | .unlock i => i < t.amount
  | .store i value => i < t.amount ∧ value = counter
  | .exited => True

structure Exact (amount : Fin threads → ℕ) (counter : ℕ) (ps : Fin threads → Thread) : Prop where
  amount : ∀ i, (ps i).amount = amount i
  fits : ∀ i, (ps i).Fits counter
  total : counter = weight Thread.stored ps

/-! ## The lock -/

theorem flat : Flat inside (incrementCounter (ι := Fin threads)) where
  tracks counter t := by
    obtain ⟨amount, point⟩ := t
    cases point with
    | loop i =>
        simp only [incrementCounter]
        split
        · exact fun m => by cases m; simp [inside]
        · exact fun _ => Iff.rfl
    | unlock i => exact fun m => by cases m; simp [inside]
    | load i | store i value => exact fun _ => Iff.rfl
    | exited => trivial
  proper counter t := by
    obtain ⟨amount, point⟩ := t
    cases point with
    | loop i =>
        simp only [incrementCounter]
        split <;> trivial
    | load | store | unlock | exited => trivial
  unique _ _ := rfl
  flows {counter t m} hin := by
    obtain ⟨amount, point⟩ := t
    cases point with
    | loop i | exited => exact hin.elim
    | load | store | unlock => trivial

theorem not_inside_start (i : Fin threads) (m : Mutex) : ¬ inside ⟨amount i, .loop 0⟩ m := id

theorem not_join (counter : ℕ) (t : Thread) (j : Fin threads) (q : Thread) :
    incrementCounter counter t ≠ .join j q := by
  obtain ⟨amount, point⟩ := t
  cases point with
  | loop i =>
      simp only [incrementCounter]
      split <;> simp
  | load | store | unlock | exited => simp [incrementCounter]

/-! ## The total -/

/-- A step that stores nothing. -/
theorem Exact.move (h : Exact amount counter ps) (hamount : q.amount = (ps i).amount)
    (hstored : q.stored = (ps i).stored) (hfits : q.Fits counter) :
    Exact amount counter (Function.update ps i q) where
  amount := by
    apply (Function.forall_update_iff ps fun i t => t.amount = amount i).mpr
    exact ⟨hamount.trans (h.amount i), fun j _ => h.amount j⟩
  fits := by
    apply (Function.forall_update_iff ps fun _ t => t.Fits counter).mpr
    exact ⟨hfits, fun j _ => h.fits j⟩
  total := by
    have hweight := weight_update Thread.stored ps i q
    have htotal := h.total
    omega

/-- The other threads, which are not inside of the mutex, rely on nothing. -/
theorem Thread.Fits.of_not_inside {counter' : ℕ} (h : t.Fits counter)
    (hout : ¬ inside t .mutex1) : t.Fits counter' := by
  obtain ⟨amount, point⟩ := t
  cases point with
  | store i value => exact absurd trivial hout
  | _ => exact h

theorem Exact.step (h : Exact amount counter ps)
    (hunique : ∀ j m, inside (ps i) m → inside (ps j) m → j = i)
    (hq : (incrementCounter (ι := Fin threads) counter (ps i)).next? = some q) :
    Exact amount ((incrementCounter (ι := Fin threads) counter (ps i)).after counter)
      (Function.update ps i q) := by
  have hfits := h.fits i
  obtain ⟨n, point, hp⟩ : ∃ n point, ps i = ⟨n, point⟩ := ⟨_, _, rfl⟩
  rw [hp] at hq hfits hunique ⊢
  cases point with
  | loop k =>
      simp only [incrementCounter] at hq ⊢
      by_cases hk : k < n
      · rw [if_pos hk] at hq ⊢
        cases hq
        exact h.move (by rw [hp]) (by rw [hp]; rfl) hk
      · rw [if_neg hk] at hq ⊢
        cases hq
        have heq : n = k := le_antisymm (not_lt.mp hk) hfits
        exact h.move (by rw [hp]) (by rw [hp]; exact heq) trivial
  | load k =>
      cases hq
      exact h.move (by rw [hp]) (by rw [hp]; rfl) ⟨hfits, rfl⟩
  | store k value =>
      cases hq
      obtain ⟨hk, rfl⟩ := hfits
      constructor
      · apply (Function.forall_update_iff ps fun i t => t.amount = amount i).mpr
        exact ⟨by rw [← h.amount i, hp], fun j _ => h.amount j⟩
      · apply (Function.forall_update_iff ps fun _ t => t.Fits (value + 1)).mpr
        refine ⟨hk, fun j hj => (h.fits j).of_not_inside fun hin => ?_⟩
        exact hj (hunique j .mutex1 trivial hin)
      · have hweight := weight_update Thread.stored ps i ⟨n, .unlock k⟩
        have htotal := h.total
        rw [hp] at hweight
        simp only [Thread.stored] at hweight
        change value + 1 = _
        omega
  | unlock k =>
      cases hq
      exact h.move (by rw [hp]) (by rw [hp]; rfl) hfits
  | exited => cases hq

theorem exact_of_reachable (h : (lockedProgram amount).Reachable c) :
    Exact amount c.shared (points c) := by
  refine exclusive_invariant flat.tracks not_wait not_inside_start h ?_
    fun _ _ _ _ hexact hunique hq => hexact.step hunique hq
  exact ⟨fun _ => rfl, fun _ => Nat.zero_le _, by simp [weight, Thread.stored]⟩

/-! ## Results -/

/-- All threads have left their loops. -/
def AllLeft (c : Config (Fin threads) ℕ Thread Mutex Empty) : Prop :=
  ∀ i, (points c i).point = .exited

def Thread.rank (t : Thread) : ℕ :=
  match t.point with
  | .loop i => 4 * (t.amount - i) + 1
  | .load i => 4 * (t.amount - i)
  | .store i _ => 4 * (t.amount - i) - 1
  | .unlock i => 4 * (t.amount - i) - 2
  | .exited => 0

theorem Thread.Fits.lowers (h : t.Fits c.shared) :
    Lowers Thread.rank (fun _ => 0) (fun _ => 0) c t
      (incrementCounter (ι := Fin threads) c.shared t) := by
  obtain ⟨n, point⟩ := t
  cases point with
  | loop k =>
      simp only [incrementCounter]
      by_cases hk : k < n
      · rw [if_pos hk]
        simp only [Lowers, Thread.rank]
        omega
      · rw [if_neg hk]
        simp only [Lowers, Thread.rank]
        omega
  | load k =>
      have hk : k < n := h
      simp only [incrementCounter, Lowers, Thread.rank]
      omega
  | store k value =>
      have hk : k < n := h.1
      simp only [incrementCounter, Lowers, Thread.rank]
      omega
  | unlock k =>
      have hk : k < n := h
      simp only [incrementCounter, Lowers, Thread.rank]
      omega
  | exited => trivial

/-- From each state in reach the threads go on until all have left their loops. -/
theorem exists_allLeft (h : (lockedProgram amount).Reachable c) :
    ∃ ls c', (lockedProgram amount).exec c ls = some c' ∧ AllLeft c' := by
  obtain ⟨ls, c', hexec, hhalted⟩ := exists_halted flat not_join (fun _ => 0) not_inside_start
    (fun b hb i t hi => by
      have hfits := (exact_of_reachable hb).fits i
      rw [points_of_running hi] at hfits
      exact hfits.lowers) h
  refine ⟨ls, c', hexec, fun i => ?_⟩
  have hhalt := isHalt_of_halted (hhalted i)
  obtain ⟨n, point, hp⟩ : ∃ n point, points c' i = ⟨n, point⟩ := ⟨_, _, rfl⟩
  rw [hp] at hhalt ⊢
  cases point with
  | exited => rfl
  | loop k =>
      simp only [incrementCounter] at hhalt
      split at hhalt <;> cases hhalt
  | load | store | unlock => cases hhalt

theorem shared_of_allLeft (h : (lockedProgram amount).Reachable c) (hleft : AllLeft c) :
    c.shared = ∑ i, amount i := by
  have hexact := exact_of_reachable h
  rw [hexact.total]
  refine Finset.sum_congr rfl fun i _ => ?_
  rw [Thread.stored, hleft i]
  exact hexact.amount i

/-- For any number of threads and any amounts: where all threads have left their loops the counter
is the sum of all amounts, and from every state in reach the threads go on until they have. -/
theorem counter_exact (amount : Fin threads → ℕ) (h : (lockedProgram amount).Reachable c) :
    (AllLeft c → c.shared = ∑ i, amount i) ∧
      ∃ ls c', (lockedProgram amount).exec c ls = some c' ∧ AllLeft c' ∧
        c'.shared = ∑ i, amount i := by
  obtain ⟨ls, c', hexec, hleft⟩ := exists_allLeft h
  exact ⟨shared_of_allLeft h, ls, c', hexec, hleft, shared_of_allLeft (h.exec hexec) hleft⟩

/-- Two threads with the amounts 1 and 2. The first one stands in front of its store. -/
def twoAmounts (i : Fin 2) : Option (Config (Fin 2) ℕ Thread Mutex Empty) :=
  (lockedProgram fun j : Fin 2 => j + 1).exec (lockedProgram fun j : Fin 2 => j + 1).init
    (List.replicate 2 (.run i none))

theorem counter_exact_two : ∃ c, twoAmounts 0 = some c ∧
    (points c 0).point = .store 0 0 ∧
    ∃ ls c', (lockedProgram fun j : Fin 2 => j + 1).exec c ls = some c' ∧ AllLeft c' ∧
      c'.shared = 3 := by
  have hrun : (twoAmounts 0).isSome = true := by decide
  refine ⟨(twoAmounts 0).get hrun, (Option.some_get hrun).symm, rfl, ?_⟩
  exact (counter_exact (fun j : Fin 2 => j + 1)
    (System.Reachable.init.exec (Option.some_get hrun).symm)).2

end PthreadBenchmark.Increments
