import PthreadBenchmark.Shared.Transition
import Mathlib.Data.Int.Notation
import Mathlib.Data.Nat.Fib.Basic
import Mathlib.Logic.Function.Basic

/-! # The threads of `FibonacciSequence.c`

A thread starts one thread for each of the two numbers before its own, waits for the first and then
for the second, and stores their sum. -/

namespace PthreadBenchmark.Fibonacci

/-- A thread with the threads that it has started and not yet joined. What a thread returns is a
pointer, made from an `int`. -/
inductive Thread where
  | fibonacci (n : ℤ)
  | created (n : ℤ) (thread1 : Thread)
  | join1 (n : ℤ) (thread1 thread2 : Thread)
  | join2 (n : ℤ) (res1 : BitVec 64) (thread2 : Thread)
  | store (n : ℤ) (result : BitVec 32)
  | returned (res : BitVec 64)
  deriving DecidableEq, Repr

/-- `threads` counts the calls of `pthread_create`. -/
structure Shared where
  fibCache : Fin 1000 → BitVec 32
  threads : ℕ

/-- Which of the threads moves: the one at hand, or one below its first or second one. -/
inductive Child where
  | thread1
  | thread2
  deriving DecidableEq, Repr

/-- `(void*) (size_t) n` -/
def pointer (n : BitVec 32) : BitVec 64 := n.signExtend 64

/-- A thread that would store outside of `fib_cache` has no step. -/
def step : Thread → Shared → List Child → Option (Thread × Shared)
  | .fibonacci n, s, [] =>
    if n ≤ 1 then some (.returned (pointer (BitVec.ofInt 32 n)), s)
    else some (.created n (.fibonacci (n - 1)), { s with threads := s.threads + 1 })
  | .created n t, s, [] =>
    some (.join1 n t (.fibonacci (n - 2)), { s with threads := s.threads + 1 })
  | .created n t, s, .thread1 :: path => (step t s path).map fun r => (.created n r.1, r.2)
  | .join1 n t u, s, [] =>
    match t with
    | .returned res1 => some (.join2 n res1 u, s)
    | _ => none
  | .join1 n t u, s, .thread1 :: path => (step t s path).map fun r => (.join1 n r.1 u, r.2)
  | .join1 n t u, s, .thread2 :: path => (step u s path).map fun r => (.join1 n t r.1, r.2)
  | .join2 n res1 u, s, [] =>
    match u with
    | .returned res2 => some (.store n ((res1 + res2).setWidth 32), s)
    | _ => none
  | .join2 n res1 u, s, .thread2 :: path => (step u s path).map fun r => (.join2 n res1 r.1, r.2)
  | .store n result, s, [] =>
    if h : 0 ≤ n ∧ n < 1000 then
      some (.returned (pointer result),
        { s with fibCache := Function.update s.fibCache ⟨n.toNat, by omega⟩ result })
    else none
  | _, _, _ => none

/-- `main` starts the thread of `n`. -/
def program (n : ℤ) : System (Thread × Shared) (List Child) where
  init := (.fibonacci n, ⟨fun _ => 0, 1⟩)
  step s path := step s.1 s.2 path

/-! ## What the threads compute

Threads of the same number store the same value, so that it does not matter in which order they
store. No thread looks into the cache, and the number of threads grows with the result. -/

open Thread

variable {n : ℕ} {k : ℤ} {t t' u u' : Thread} {s s' : Shared} {cache cache' : Fin 1000 → BitVec 32}
  {path : List Child}

/-- The Fibonacci number as an `int`. -/
def fib32 (n : ℕ) : BitVec 32 := BitVec.ofNat 32 (Nat.fib n)

/-- All Fibonacci numbers up to `n` are in the cache, from the first that needs a sum. -/
def Cached (cache : Fin 1000 → BitVec 32) (n : ℕ) : Prop :=
  ∀ i : Fin 1000, 2 ≤ i.val → i.val ≤ n → cache i = fib32 i

/-- The thread computes the Fibonacci number of `n`. -/
def Computes (cache : Fin 1000 → BitVec 32) : Thread → ℕ → Prop
  | .fibonacci k, n => k = n
  | .created k t, n => k = n ∧ 2 ≤ n ∧ Computes cache t (n - 1)
  | .join1 k t u, n =>
    k = n ∧ 2 ≤ n ∧ Computes cache t (n - 1) ∧ Computes cache u (n - 2)
  | .join2 k res1 u, n =>
    k = n ∧ 2 ≤ n ∧ (res1 = pointer (fib32 (n - 1)) ∧ Cached cache (n - 1)) ∧
      Computes cache u (n - 2)
  | .store k result, n => k = n ∧ 2 ≤ n ∧ result = fib32 n ∧ Cached cache (n - 1)
  | .returned res, n => res = pointer (fib32 n) ∧ Cached cache n

/-- Only Fibonacci numbers up to `n` have been stored. -/
def Extends (n : ℕ) (cache cache' : Fin 1000 → BitVec 32) : Prop :=
  ∀ i : Fin 1000, cache' i = cache i ∨ 2 ≤ i.val ∧ i.val ≤ n ∧ cache' i = fib32 i

theorem Extends.refl (n : ℕ) (cache : Fin 1000 → BitVec 32) : Extends n cache cache :=
  fun _ => .inl rfl

theorem Extends.mono {m : ℕ} (h : Extends m cache cache') (hle : m ≤ n) :
    Extends n cache cache' :=
  fun i => (h i).imp_right fun ⟨hlow, hhigh, heq⟩ => ⟨hlow, hhigh.trans hle, heq⟩

theorem Extends.trans {cache'' : Fin 1000 → BitVec 32} (h : Extends n cache cache')
    (h' : Extends n cache' cache'') : Extends n cache cache'' := by
  intro i
  rcases h' i with heq | hnew
  · rw [heq]
    exact h i
  · exact .inr hnew

theorem Cached.extends {m : ℕ} (h : Cached cache n) (hext : Extends m cache cache') :
    Cached cache' n := by
  intro i hlow hhigh
  rcases hext i with heq | ⟨-, -, heq⟩
  · rw [heq]
    exact h i hlow hhigh
  · exact heq

theorem Computes.extends {m : ℕ} (h : Computes cache t n) (hext : Extends m cache cache') :
    Computes cache' t n := by
  induction t generalizing n with
  | fibonacci k => exact h
  | created k t ih => exact ⟨h.1, h.2.1, ih h.2.2⟩
  | join1 k t u iht ihu => exact ⟨h.1, h.2.1, iht h.2.2.1, ihu h.2.2.2⟩
  | join2 k res1 u ih => exact ⟨h.1, h.2.1, ⟨h.2.2.1.1, h.2.2.1.2.extends hext⟩, ih h.2.2.2⟩
  | store k result => exact ⟨h.1, h.2.1, h.2.2.1, h.2.2.2.extends hext⟩
  | returned res => exact ⟨h.1, h.2.extends hext⟩

theorem fib32_add (hn : 2 ≤ n) : fib32 (n - 1) + fib32 (n - 2) = fib32 n := by
  obtain ⟨m, rfl⟩ := Nat.exists_eq_add_of_le' hn
  rw [fib32, fib32, fib32, ← BitVec.ofNat_add, Nat.fib_add_two, Nat.add_comm (Nat.fib m)]
  rfl

theorem setWidth_pointer (a : BitVec 32) : (pointer a).setWidth 32 = a := by
  ext i hi
  have hwide : i < 64 := by omega
  simp [pointer, BitVec.getElem_signExtend, hi, hwide]

theorem sum_pointer (hn : 2 ≤ n) :
    (pointer (fib32 (n - 1)) + pointer (fib32 (n - 2))).setWidth 32 = fib32 n := by
  rw [BitVec.setWidth_add _ _ (by decide), setWidth_pointer, setWidth_pointer, fib32_add hn]

/-! ## Steps -/

theorem toNat_lt {n : ℤ} (h : 0 ≤ n ∧ n < 1000) : n.toNat < 1000 := by
  omega

/-- What a step can do: a step of the thread at hand, or of one below it. -/
inductive Steps : Thread → Shared → Thread → Shared → Prop
  | small {n : ℤ} {s : Shared} (h : n ≤ 1) :
      Steps (.fibonacci n) s (.returned (pointer (BitVec.ofInt 32 n))) s
  | create1 {n : ℤ} {s : Shared} (h : 1 < n) :
      Steps (.fibonacci n) s (.created n (.fibonacci (n - 1))) { s with threads := s.threads + 1 }
  | create2 (n : ℤ) (t : Thread) (s : Shared) :
      Steps (.created n t) s (.join1 n t (.fibonacci (n - 2))) { s with threads := s.threads + 1 }
  | join1 (n : ℤ) (res1 : BitVec 64) (u : Thread) (s : Shared) :
      Steps (.join1 n (.returned res1) u) s (.join2 n res1 u) s
  | join2 (n : ℤ) (res1 res2 : BitVec 64) (s : Shared) :
      Steps (.join2 n res1 (.returned res2)) s (.store n ((res1 + res2).setWidth 32)) s
  | store {n : ℤ} {result : BitVec 32} {s : Shared} (h : 0 ≤ n ∧ n < 1000) :
      Steps (.store n result) s (.returned (pointer result))
        { s with fibCache := Function.update s.fibCache ⟨n.toNat, toNat_lt h⟩ result }
  | alone (n : ℤ) {t t' : Thread} {s s' : Shared} (h : Steps t s t' s') :
      Steps (.created n t) s (.created n t') s'
  | first (n : ℤ) {t t' : Thread} (u : Thread) {s s' : Shared} (h : Steps t s t' s') :
      Steps (.join1 n t u) s (.join1 n t' u) s'
  | second (n : ℤ) (t : Thread) {u u' : Thread} {s s' : Shared} (h : Steps u s u' s') :
      Steps (.join1 n t u) s (.join1 n t u') s'
  | last (n : ℤ) (res1 : BitVec 64) {u u' : Thread} {s s' : Shared} (h : Steps u s u' s') :
      Steps (.join2 n res1 u) s (.join2 n res1 u') s'

theorem exists_of_map {α β : Type} {o : Option (α × β)} {f : α → α} {a : α} {b : β}
    (h : (o.map fun r => (f r.1, r.2)) = some (a, b)) : ∃ a', o = some (a', b) ∧ f a' = a := by
  obtain ⟨⟨a', b'⟩, ho, heq⟩ := Option.map_eq_some_iff.mp h
  obtain ⟨ha, rfl⟩ := Prod.mk.inj heq
  exact ⟨a', ho, ha⟩

theorem steps_of_step (h : step t s path = some (t', s')) : Steps t s t' s' := by
  induction t generalizing path t' s' with
  | fibonacci n =>
      cases path with
      | cons child path => simp [step] at h
      | nil =>
          simp only [step] at h
          split at h
          · cases h
            exact .small ‹_›
          · cases h
            exact .create1 (not_le.mp ‹_›)
  | created n t ih =>
      match path with
      | [] =>
          cases h
          exact .create2 n t s
      | .thread1 :: path =>
          rw [step] at h
          obtain ⟨t₁, ht, rfl⟩ := exists_of_map h
          exact .alone n (ih ht)
      | .thread2 :: path => simp [step] at h
  | join1 n t u iht ihu =>
      match path with
      | [] =>
          cases t <;> simp only [step, reduceCtorEq] at h
          cases h
          exact .join1 n _ u s
      | .thread1 :: path =>
          rw [step] at h
          obtain ⟨t₁, ht, rfl⟩ := exists_of_map (f := fun t => Thread.join1 n t u) h
          exact .first n u (iht ht)
      | .thread2 :: path =>
          rw [step] at h
          obtain ⟨u₁, hu, rfl⟩ := exists_of_map h
          exact .second n t (ihu hu)
  | join2 n res1 u ih =>
      match path with
      | [] =>
          cases u <;> simp only [step, reduceCtorEq] at h
          cases h
          exact .join2 n res1 _ s
      | .thread1 :: path => simp [step] at h
      | .thread2 :: path =>
          rw [step] at h
          obtain ⟨u₁, hu, rfl⟩ := exists_of_map h
          exact .last n res1 (ih hu)
  | store n result =>
      cases path with
      | cons child path => simp [step] at h
      | nil =>
          simp only [step] at h
          split at h
          · cases h
            exact .store ‹_›
          · cases h
  | returned res => simp [step] at h

/-! ## Every run computes the Fibonacci number -/

theorem Steps.extends_of_computes (h : Steps t s t' s') (hcomputes : Computes s.fibCache t n) :
    Extends n s.fibCache s'.fibCache ∧ Computes s'.fibCache t' n := by
  induction h generalizing n with
  | small h =>
      obtain rfl := hcomputes
      have hfib : Nat.fib n = n := by
        obtain rfl | rfl : n = 0 ∨ n = 1 := by omega
        · rfl
        · rfl
      refine ⟨.refl _ _, ?_, fun i hlow hhigh => by omega⟩
      rw [fib32, hfib]
      rfl
  | create1 h =>
      obtain rfl := hcomputes
      exact ⟨.refl _ _, rfl, by omega, by simp only [Computes]; omega⟩
  | create2 k t s =>
      obtain ⟨rfl, hn, ht⟩ := hcomputes
      exact ⟨.refl _ _, rfl, hn, ht, by simp only [Computes]; omega⟩
  | join1 k res1 u s =>
      obtain ⟨rfl, hn, ht, hu⟩ := hcomputes
      exact ⟨.refl _ _, rfl, hn, ht, hu⟩
  | join2 k res1 res2 s =>
      obtain ⟨rfl, hn, ⟨rfl, hcached⟩, rfl, -⟩ := hcomputes
      exact ⟨.refl _ _, rfl, hn, sum_pointer hn, hcached⟩
  | @store k result s h =>
      obtain ⟨rfl, hn, rfl, hcached⟩ := hcomputes
      have hext : Extends n s.fibCache
          (Function.update s.fibCache ⟨(n : ℤ).toNat, by omega⟩ (fib32 n)) := by
        intro i
        by_cases hi : i = ⟨(n : ℤ).toNat, by omega⟩
        · subst hi
          exact .inr ⟨hn, le_rfl, Function.update_self ..⟩
        · exact .inl (Function.update_of_ne hi ..)
      refine ⟨hext, rfl, fun i hlow hhigh => ?_⟩
      rcases hhigh.eq_or_lt with heq | hlt
      · have hi : i = ⟨(n : ℤ).toNat, by omega⟩ := Fin.ext heq
        rw [heq, hi]
        exact Function.update_self ..
      · exact hcached.extends hext i hlow (by omega)
  | alone k h ih =>
      obtain ⟨rfl, hn, ht⟩ := hcomputes
      obtain ⟨hext, ht'⟩ := ih ht
      exact ⟨hext.mono (Nat.sub_le ..), rfl, hn, ht'⟩
  | first k u h ih =>
      obtain ⟨rfl, hn, ht, hu⟩ := hcomputes
      obtain ⟨hext, ht'⟩ := ih ht
      exact ⟨hext.mono (Nat.sub_le ..), rfl, hn, ht', hu.extends hext⟩
  | second k t h ih =>
      obtain ⟨rfl, hn, ht, hu⟩ := hcomputes
      obtain ⟨hext, hu'⟩ := ih hu
      exact ⟨hext.mono (Nat.sub_le ..), rfl, hn, ht.extends hext, hu'⟩
  | last k res1 h ih =>
      obtain ⟨rfl, hn, ⟨hres, hcached⟩, hu⟩ := hcomputes
      obtain ⟨hext, hu'⟩ := ih hu
      exact ⟨hext.mono (Nat.sub_le ..), rfl, hn, ⟨hres, hcached.extends hext⟩, hu'⟩

/-- How many steps the threads have before them. -/
def rest : Thread → ℕ
  | .fibonacci n => 6 * Nat.fib (n.toNat + 1) - 5
  | .created n t => rest t + (6 * Nat.fib ((n - 2).toNat + 1) - 5) + 4
  | .join1 _ t u => rest t + rest u + 3
  | .join2 _ _ u => rest u + 2
  | .store _ _ => 1
  | .returned _ => 0

/-- How many threads are still to be created. -/
def unborn : Thread → ℕ
  | .fibonacci n => 2 * Nat.fib (n.toNat + 1) - 2
  | .created n t => unborn t + (2 * Nat.fib ((n - 2).toNat + 1) - 2) + 1
  | .join1 _ t u => unborn t + unborn u
  | .join2 _ _ u => unborn u
  | .store _ _ | .returned _ => 0

theorem Steps.rest_eq (h : Steps t s t' s') (hcomputes : Computes s.fibCache t n) :
    rest t' + 1 = rest t ∧ s'.threads + unborn t' = s.threads + unborn t := by
  induction h generalizing n with
  | small h =>
      obtain rfl := hcomputes
      obtain rfl | rfl : n = 0 ∨ n = 1 := by omega
      · exact ⟨rfl, rfl⟩
      · exact ⟨rfl, rfl⟩
  | create1 h =>
      obtain rfl := hcomputes
      obtain ⟨m, rfl⟩ := Nat.exists_eq_add_of_le' (show 2 ≤ n by omega)
      have hfib : Nat.fib (m + 2 + 1) = Nat.fib (m + 1) + Nat.fib (m + 1 + 1) := Nat.fib_add_two
      have hpos₁ : 0 < Nat.fib (m + 1) := Nat.fib_pos.mpr (Nat.succ_pos _)
      have hpos₂ : 0 < Nat.fib (m + 1 + 1) := Nat.fib_pos.mpr (Nat.succ_pos _)
      have h₀ : ((m + 2 : ℕ) : ℤ).toNat = m + 2 := rfl
      have h₁ : (((m + 2 : ℕ) : ℤ) - 1).toNat = m + 1 := by omega
      have h₂ : (((m + 2 : ℕ) : ℤ) - 2).toNat = m := by omega
      simp only [rest, unborn, h₀, h₁, h₂]
      omega
  | create2 k t s =>
      refine ⟨rfl, ?_⟩
      simp only [unborn]
      omega
  | join1 k res1 u s =>
      simp only [rest, unborn]
      omega
  | join2 k res1 res2 s => exact ⟨rfl, rfl⟩
  | store h => exact ⟨rfl, rfl⟩
  | alone k h ih =>
      have hchild := ih hcomputes.2.2
      simp only [rest, unborn]
      omega
  | first k u h ih =>
      have hchild := ih hcomputes.2.2.1
      simp only [rest, unborn]
      omega
  | second k t h ih =>
      have hchild := ih hcomputes.2.2.2
      simp only [rest, unborn]
      omega
  | last k res1 h ih =>
      have hchild := ih hcomputes.2.2.2
      simp only [rest, unborn]
      omega

/-- As long as the thread has not returned, it or one below it can go on. -/
theorem exists_step (hn : n < 1000) (hcomputes : Computes s.fibCache t n)
    (hrun : ∀ res, t ≠ .returned res) : ∃ path t' s', step t s path = some (t', s') := by
  induction t generalizing n with
  | fibonacci k =>
      refine ⟨[], ?_⟩
      simp only [step]
      split <;> exact ⟨_, _, rfl⟩
  | created k t ih => exact ⟨[], _, _, rfl⟩
  | join1 k t u iht ihu =>
      obtain ⟨rfl, hn2, ht, hu⟩ := hcomputes
      by_cases hret : ∃ res, t = .returned res
      · obtain ⟨res, rfl⟩ := hret
        exact ⟨[], _, _, rfl⟩
      · obtain ⟨path, t', s', hstep⟩ := iht (by omega) ht (not_exists.mp hret)
        exact ⟨.thread1 :: path, _, _, by rw [step, hstep]; rfl⟩
  | join2 k res1 u ih =>
      obtain ⟨rfl, hn2, -, hu⟩ := hcomputes
      by_cases hret : ∃ res, u = .returned res
      · obtain ⟨res, rfl⟩ := hret
        exact ⟨[], _, _, rfl⟩
      · obtain ⟨path, u', s', hstep⟩ := ih (by omega) hu (not_exists.mp hret)
        exact ⟨.thread2 :: path, _, _, by rw [step, hstep]; rfl⟩
  | store k result =>
      obtain ⟨rfl, -⟩ := hcomputes
      have hrange : 0 ≤ (n : ℤ) ∧ (n : ℤ) < 1000 := by omega
      exact ⟨[], _, _, by rw [step, dif_pos hrange]⟩
  | returned res => exact absurd rfl (hrun res)

/-! ## Results -/

theorem of_exec {r r' : Thread × Shared} {ls : List (List Child)}
    (h : (program n).exec r ls = some r') (hcomputes : Computes r.2.fibCache r.1 n) :
    Extends n r.2.fibCache r'.2.fibCache ∧ Computes r'.2.fibCache r'.1 n ∧
      rest r'.1 + ls.length = rest r.1 ∧
      r'.2.threads + unborn r'.1 = r.2.threads + unborn r.1 := by
  induction ls generalizing r with
  | nil =>
      obtain rfl : r = r' := by simpa using h
      exact ⟨.refl _ _, hcomputes, rfl, rfl⟩
  | cons path ls ih =>
      rw [System.exec_cons] at h
      obtain ⟨⟨t, s⟩, hstep, hexec⟩ := Option.bind_eq_some_iff.mp h
      have hsteps := steps_of_step hstep
      obtain ⟨hext, hnext⟩ := hsteps.extends_of_computes hcomputes
      obtain ⟨hrest, hunborn⟩ := hsteps.rest_eq hcomputes
      obtain ⟨hext', hlast, hrest', hunborn'⟩ := ih hexec hnext
      refine ⟨hext.trans hext', hlast, ?_, hunborn'.trans hunborn⟩
      rw [List.length_cons]
      simp only at hrest'
      omega

/-- In whatever order the threads run, the first one returns the Fibonacci number of `n`, as an
`int`. Then the numbers from 2 to `n` are in the cache, and no other cell has been touched on the
way. No thread is ever stuck, every run ends after the same number of steps, and the number of
threads is nearly twice the Fibonacci number behind that of `n`. -/
theorem fibonacci_correct (hn : n < 1000) {ls : List (List Child)}
    (h : (program n).exec (program n).init ls = some (t, s)) :
    (∀ i : Fin 1000, s.fibCache i = 0 ∨ 2 ≤ i.val ∧ i.val ≤ n ∧ s.fibCache i = fib32 i) ∧
      (∀ res, t = .returned res →
        res = pointer (fib32 n) ∧ (∀ i : Fin 1000, 2 ≤ i.val → i.val ≤ n → s.fibCache i = fib32 i) ∧
          ls.length + 5 = 6 * Nat.fib (n + 1) ∧ s.threads + 1 = 2 * Nat.fib (n + 1)) ∧
      ((∀ res, t ≠ .returned res) →
        ls.length + 5 < 6 * Nat.fib (n + 1) ∧ ∃ path r, (program n).step (t, s) path = some r) := by
  have hinit : Computes (program n).init.2.fibCache (program n).init.1 n := rfl
  obtain ⟨hext, hcomputes, hrest, hunborn⟩ := of_exec h hinit
  have hpos : 0 < Nat.fib (n + 1) := Nat.fib_pos.mpr n.succ_pos
  have hrest₀ : rest (program n).init.1 = 6 * Nat.fib (n + 1) - 5 := rfl
  have hunborn₀ : unborn (program n).init.1 = 2 * Nat.fib (n + 1) - 2 := rfl
  have hthreads : (program n).init.2.threads = 1 := rfl
  refine ⟨hext, ?_, fun hrun => ⟨?_, ?_⟩⟩
  · rintro res rfl
    obtain ⟨hres, hcached⟩ := hcomputes
    have hzero : rest (.returned res) = 0 := rfl
    have hnone : unborn (.returned res) = 0 := rfl
    simp only at hrest hunborn
    exact ⟨hres, hcached, by omega, by omega⟩
  · have hleft : 0 < rest t := by
      cases t with
      | fibonacci k =>
          have hk : 0 < Nat.fib (k.toNat + 1) := Nat.fib_pos.mpr (Nat.succ_pos _)
          simp only [rest]
          omega
      | returned res => exact absurd rfl (hrun res)
      | _ => exact Nat.succ_pos _
    simp only at hrest
    omega
  · obtain ⟨path, t', s', hstep⟩ := exists_step hn hcomputes hrun
    exact ⟨path, (t', s'), hstep⟩

/-- Three threads compute the number of 2 in seven steps. -/
theorem fibonacci_correct_two : ∃ t s, (program (2 : ℕ)).exec (program (2 : ℕ)).init
    [[], [], [.thread2], [.thread1], [], [], []] = some (t, s) ∧ t = .returned 1 ∧
      s.threads = 3 := by
  obtain ⟨t, s, hrun, ht⟩ : ∃ t s, (program (2 : ℕ)).exec (program (2 : ℕ)).init
      [[], [], [.thread2], [.thread1], [], [], []] = some (t, s) ∧ t = .returned 1 :=
    ⟨_, _, rfl, rfl⟩
  have hend := (fibonacci_correct (by decide) hrun).2.1 1 ht
  exact ⟨t, s, hrun, ht, Nat.succ.inj hend.2.2.2⟩

end PthreadBenchmark.Fibonacci
