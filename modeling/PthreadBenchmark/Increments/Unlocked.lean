import PthreadBenchmark.Shared.Pthread
import PthreadBenchmark.Shared.PthreadRules
import PthreadBenchmark.Shared.PthreadRuns
import Mathlib.Algebra.BigOperators.Fin

/-! # Threads that count without a lock

In `pth_mutex2.c`, `shared_data_mutex.c` and `W9mutex1.c` all threads increment a counter without a
lock. An increment is a load and a store. -/

namespace PthreadBenchmark.Increments

/-- Points of a thread, with the number of its increments and what it has loaded. -/
inductive Point where
  | loop (i : ℕ)
  | load (i : ℕ)
  | store (i value : ℕ)
  | exited
  deriving DecidableEq, Repr

def code {ι : Type*} (rounds counter : ℕ) : Point → Op ι ℕ Point Empty Empty
  | .loop i => .run counter (if i < rounds then .load i else .exited)
  | .load i => .run counter (.store i counter)
  | .store i value => .run (value + 1) (.loop (i + 1))
  | .exited => .halt

def program (threads rounds : ℕ) :
    System (Config (Fin threads) ℕ Point Empty Empty) (Action (Fin threads)) :=
  Pthread.program (code rounds) 0 fun _ => .loop 0

/-- `execute` of `pth_mutex2.c`, which calls `incPublico` in each round, in the four threads of
`main`. -/
def execute : System (Config (Fin 4) ℕ Point Empty Empty) (Action (Fin 4)) := program 4 100000

/-- `entry_point` of `shared_data_mutex.c` in its two threads. -/
def entryPoint : System (Config (Fin 2) ℕ Point Empty Empty) (Action (Fin 2)) := program 2 10000000

/-- `functionC` of `W9mutex1.c`, which counts once, in its two threads. -/
def functionC : System (Config (Fin 2) ℕ Point Empty Empty) (Action (Fin 2)) := program 2 1

/-! ## What the counter may be at the end

Without a lock an increment can take back all that the other threads have counted since its load.
But the load of the last increment of a thread comes behind its first store. -/

open Pthread

variable {threads rounds : ℕ} {counter v : ℕ} {ps : Fin threads → Point} {i : Fin threads}
  {p q : Point} {c : Config (Fin threads) ℕ Point Empty Empty}

/-! ## Bounds -/

/-- How often the thread has stored. -/
def Point.stored (rounds : ℕ) : Point → ℕ
  | .loop i | .load i | .store i _ => i
  | .exited => rounds

/-- `total` is the number of all stores. -/
def Point.Fits (rounds total : ℕ) : Point → Prop
  | .loop i => i ≤ rounds
  | .load i => i < rounds
  | .store i value => i < rounds ∧ value ≤ total ∧ (0 < i → 0 < value)
  | .exited => True

structure Bounded (rounds counter : ℕ) (ps : Fin threads → Point) : Prop where
  fits : ∀ i, (ps i).Fits rounds (weight (Point.stored rounds) ps)
  le_total : counter ≤ weight (Point.stored rounds) ps
  pos : 0 < weight (Point.stored rounds) ps → 0 < counter
  last : (∀ i, (ps i).stored rounds = rounds) → min rounds 2 ≤ counter

theorem Point.Fits.mono {total total' : ℕ} (h : p.Fits rounds total) (hle : total ≤ total') :
    p.Fits rounds total' := by
  cases p with
  | store i value => exact ⟨h.1, h.2.1.trans hle, h.2.2⟩
  | _ => exact h

/-- A step that stores nothing. -/
theorem Bounded.move (h : Bounded rounds counter ps)
    (hstored : q.stored rounds = (ps i).stored rounds)
    (hfits : q.Fits rounds (weight (Point.stored rounds) ps)) :
    Bounded rounds counter (Function.update ps i q) := by
  have hweight := weight_update (Point.stored rounds) ps i q
  have htotal : weight (Point.stored rounds) (Function.update ps i q) =
      weight (Point.stored rounds) ps := by omega
  have hall : ∀ j, (Function.update ps i q j).stored rounds = (ps j).stored rounds := by
    apply (Function.forall_update_iff ps fun j p => p.stored rounds = (ps j).stored rounds).mpr
    exact ⟨hstored, fun _ _ => rfl⟩
  constructor
  · rw [htotal]
    apply (Function.forall_update_iff ps fun _ p =>
      p.Fits rounds (weight (Point.stored rounds) ps)).mpr
    exact ⟨hfits, fun j _ => h.fits j⟩
  · rw [htotal]
    exact h.le_total
  · rw [htotal]
    exact h.pos
  · intro hdone
    exact h.last fun j => (hall j).symm.trans (hdone j)

theorem Bounded.store {k value : ℕ} (h : Bounded rounds counter ps)
    (hp : ps i = .store k value) :
    Bounded rounds (value + 1) (Function.update ps i (.loop (k + 1))) := by
  have hfits := h.fits i
  rw [hp] at hfits
  obtain ⟨hk, hvalue, hpos⟩ := hfits
  have hweight := weight_update (Point.stored rounds) ps i (.loop (k + 1))
  rw [hp] at hweight
  simp only [Point.stored] at hweight
  constructor
  · apply (Function.forall_update_iff ps fun _ p => p.Fits rounds _).mpr
    exact ⟨hk, fun j _ => (h.fits j).mono (by omega)⟩
  · omega
  · omega
  · intro hdone
    -- all threads have stored for the last time, this one just now
    have hlast := hdone i
    rw [Function.update_self] at hlast
    simp only [Point.stored] at hlast
    by_cases hk0 : 0 < k
    · have := hpos hk0
      omega
    · omega

theorem Bounded.step (h : Bounded rounds counter ps)
    (hq : (code (ι := Fin threads) rounds counter (ps i)).next? = some q) :
    Bounded rounds ((code (ι := Fin threads) rounds counter (ps i)).after counter)
      (Function.update ps i q) := by
  have hfits := h.fits i
  cases hp : ps i with
  | loop k =>
      rw [hp] at hq hfits
      cases hq
      by_cases hk : k < rounds
      · rw [if_pos hk]
        exact h.move (by rw [hp]; rfl) hk
      · rw [if_neg hk]
        have heq : rounds = k := le_antisymm (not_lt.mp hk) hfits
        exact h.move (by rw [hp]; exact heq) trivial
  | load k =>
      rw [hp] at hq hfits
      cases hq
      refine h.move (by rw [hp]; rfl) ⟨hfits, h.le_total, fun hk => h.pos ?_⟩
      have hle := le_weight (Point.stored rounds) ps i
      rw [hp] at hle
      exact hk.trans_le hle
  | store k value =>
      rw [hp] at hq
      cases hq
      exact h.store hp
  | exited =>
      rw [hp] at hq
      cases hq

theorem bounded_of_reachable (h : (program threads rounds).Reachable c) (hthreads : 0 < threads) :
    Bounded rounds c.shared (points c) := by
  have hzero : weight (Point.stored rounds) (fun _ : Fin threads => Point.loop 0) = 0 := by
    simp [weight, Point.stored]
  refine points_invariant h ⟨fun _ => Nat.zero_le _, ?_, ?_, fun hdone => ?_⟩
    fun _ _ _ _ hbounded hq => hbounded.step hq
  · rw [hzero]
  · rw [hzero]
    exact id
  · have hrounds : 0 = rounds := hdone ⟨0, hthreads⟩
    omega

/-- All threads have left their loops. -/
def AllExited (c : Config (Fin threads) ℕ Point Empty Empty) : Prop :=
  ∀ i, c.threads i = .running .exited

theorem bounds_of_allExited (hthreads : 0 < threads) (h : (program threads rounds).Reachable c)
    (hexited : AllExited c) : min rounds 2 ≤ c.shared ∧ c.shared ≤ threads * rounds := by
  have hbounded := bounded_of_reachable h hthreads
  have hpoints : points c = fun _ => .exited := funext fun i => points_of_running (hexited i)
  rw [hpoints] at hbounded
  refine ⟨hbounded.last fun _ => rfl, hbounded.le_total.trans_eq ?_⟩
  simp [weight, Point.stored]

/-! ## Runs to every value between -/

section Runs

variable {G : Config (Fin threads) ℕ Point Empty Empty → Prop} {o : Empty → Option (Fin threads)}
  {k n : ℕ} {l : Finset (Fin threads)} {d e : Fin threads → ℕ}

theorem leads_load (hp : ps i = .loop k) (hk : k < rounds)
    (h : (program threads rounds).Leads G
      (placed o counter (Function.update ps i (.store k counter)))) :
    (program threads rounds).Leads G (placed o counter ps) := by
  have hloop : code (ι := Fin threads) rounds counter (ps i) = .run counter (.load k) := by
    rw [hp, code, if_pos hk]
  have hload : code (ι := Fin threads) rounds counter (Function.update ps i (.load k) i) =
      .run counter (.store k counter) := by
    rw [Function.update_self]
    rfl
  refine leads_placed_run i hloop (leads_placed_run i hload ?_)
  rwa [Function.update_idem]

theorem leads_store (hp : ps i = .store k v)
    (h : (program threads rounds).Leads G
      (placed o (v + 1) (Function.update ps i (.loop (k + 1))))) :
    (program threads rounds).Leads G (placed o counter ps) :=
  leads_placed_run i (by rw [hp]; rfl) h

theorem leads_increment (hp : ps i = .loop k) (hk : k < rounds)
    (h : (program threads rounds).Leads G
      (placed o (counter + 1) (Function.update ps i (.loop (k + 1))))) :
    (program threads rounds).Leads G (placed o counter ps) := by
  refine leads_load hp hk (leads_store (Function.update_self ..) ?_)
  rwa [Function.update_idem]

theorem leads_increments (n : ℕ) (hp : ps i = .loop k) (hk : k + n ≤ rounds)
    (h : (program threads rounds).Leads G
      (placed o (counter + n) (Function.update ps i (.loop (k + n))))) :
    (program threads rounds).Leads G (placed o counter ps) := by
  induction n generalizing counter ps k with
  | zero =>
      rw [Nat.add_zero, Nat.add_zero, ← hp, Function.update_eq_self] at h
      exact h
  | succ n ih =>
      refine leads_increment hp (by omega) (ih (Function.update_self ..) (by omega) ?_)
      have hcounter : counter + 1 + n = counter + (n + 1) := by omega
      have hround : k + 1 + n = k + (n + 1) := by omega
      rwa [Function.update_idem, hcounter, hround]

/-- The threads of `l` go on to their rounds `e`, one after the other. -/
theorem leads_others (hp : ∀ j ∈ l, ps j = .loop (d j))
    (hle : ∀ j ∈ l, d j ≤ e j ∧ e j ≤ rounds)
    (h : (program threads rounds).Leads G
      (placed o (counter + ∑ j ∈ l, (e j - d j))
        fun j => if j ∈ l then .loop (e j) else ps j)) :
    (program threads rounds).Leads G (placed o counter ps) := by
  induction l using Finset.induction_on generalizing ps counter with
  | empty => simpa using h
  | insert a l ha ih =>
      obtain ⟨hlow, hhigh⟩ := hle a (Finset.mem_insert_self a l)
      refine leads_increments (e a - d a) (hp a (Finset.mem_insert_self a l)) (by omega) ?_
      rw [Nat.add_sub_cancel' hlow]
      have hne : ∀ j ∈ l, j ≠ a := fun j hj heq => ha (heq ▸ hj)
      refine ih (fun j hj => ?_) (fun j hj => hle j (Finset.mem_insert_of_mem hj)) ?_
      · rw [Function.update_of_ne (hne j hj)]
        exact hp j (Finset.mem_insert_of_mem hj)
      · rw [Finset.sum_insert ha, ← Nat.add_assoc] at h
        convert h using 2
        funext j
        by_cases hja : j = a
        · subst hja
          simp [ha]
        · simp [hja]

/-- All threads leave their loops. -/
theorem leads_exited (hp : ∀ j ∈ l, ps j = .loop rounds)
    (h : (program threads rounds).Leads G
      (placed o counter fun j => if j ∈ l then .exited else ps j)) :
    (program threads rounds).Leads G (placed o counter ps) := by
  induction l using Finset.induction_on generalizing ps with
  | empty => simpa using h
  | insert a l ha ih =>
      have hloop : code (ι := Fin threads) rounds counter (ps a) = .run counter .exited := by
        rw [hp a (Finset.mem_insert_self a l), code, if_neg (lt_irrefl rounds)]
      refine leads_placed_run a hloop (ih (fun j hj => ?_) ?_)
      · have hja : j ≠ a := by
          rintro rfl
          exact ha hj
        rw [Function.update_of_ne hja]
        exact hp j (Finset.mem_insert_of_mem hj)
      · convert h using 2
        funext j
        by_cases hja : j = a
        · subst hja
          simp [ha]
        · simp [hja]

/-- All threads go through their rounds from `d` on and leave their loops. -/
theorem leads_end (hp : ∀ j, ps j = .loop (d j)) (hle : ∀ j, d j ≤ rounds) :
    (program threads rounds).Leads
      (fun c => AllExited c ∧ c.shared = counter + ∑ j, (rounds - d j)) (placed o counter ps) := by
  refine leads_others (l := Finset.univ) (e := fun _ => rounds) (fun j _ => hp j)
    (fun j _ => ⟨hle j, le_rfl⟩) (leads_exited (l := Finset.univ) (fun j hj => if_pos hj) ?_)
  exact .here ⟨fun j => by simp [placed], rfl⟩

theorem sum_update (a : Fin threads) :
    ∑ j, (rounds - Function.update d a k j) =
      (rounds - k) + ∑ j ∈ Finset.univ.erase a, (rounds - d j) := by
  rw [← Finset.add_sum_erase _ _ (Finset.mem_univ a), Function.update_self]
  congr 1
  refine Finset.sum_congr rfl fun j hj => ?_
  rw [Function.update_of_ne (Finset.ne_of_mem_erase hj)]

/-- The first increment of the thread `a` takes back those that the others have made before. -/
theorem leads_lost (a : Fin threads) (hrounds : 1 ≤ rounds) (hd : ∀ j, d j ≤ rounds) :
    (program threads rounds).Leads
      (fun c => AllExited c ∧
        c.shared = rounds + ∑ j ∈ Finset.univ.erase a, (rounds - d j))
      (placed o 0 fun _ => .loop 0) := by
  refine leads_load (i := a) rfl hrounds ?_
  refine leads_others (l := Finset.univ.erase a) (d := fun _ => 0) (e := d) (fun j hj => ?_)
    (fun j _ => ⟨Nat.zero_le _, hd j⟩) (leads_store (i := a) (k := 0) (v := 0) ?_ ?_)
  · exact Function.update_of_ne (Finset.ne_of_mem_erase hj) _ _
  · simp
  · have hsum : rounds + ∑ j ∈ Finset.univ.erase a, (rounds - d j) =
        0 + 1 + ∑ j, (rounds - Function.update d a 1 j) := by
      rw [sum_update]
      omega
    rw [hsum]
    refine leads_end (fun j => ?_) fun j => ?_
    · by_cases hj : j = a
      · subst hj
        simp only [Function.update_self]
      · simp [hj]
    · by_cases hj : j = a
      · subst hj
        rwa [Function.update_self]
      · rw [Function.update_of_ne hj]
        exact hd j

/-- The last increment of the thread `b` takes back all but one of those of the thread `a`, which
has taken back those of all others. -/
theorem leads_low {a b : Fin threads} (hab : b ≠ a) (hk : k < rounds) (hrounds : 2 ≤ rounds) :
    (program threads rounds).Leads (fun c => AllExited c ∧ c.shared = 2 + k)
      (placed o 0 fun _ => .loop 0) := by
  refine leads_load (i := a) rfl (by omega) ?_
  refine leads_others (l := Finset.univ.erase a) (d := fun _ => 0)
    (e := Function.update (fun _ => rounds) b (rounds - 1)) (fun j hj => ?_) (fun j _ => ?_) ?_
  · exact Function.update_of_ne (Finset.ne_of_mem_erase hj) _ _
  · by_cases hj : j = b
    · subst hj
      simp
    · simp [hj]
  refine leads_store (i := a) (k := 0) (v := 0) (by simp) ?_
  refine leads_increments (i := a) k (k := 1) (by simp) (by omega) ?_
  refine leads_load (i := b) (k := rounds - 1) (by simp [hab]) (by omega) ?_
  refine leads_increments (i := a) (rounds - 1 - k) (k := 1 + k) (by simp [hab.symm]) (by omega) ?_
  refine leads_store (i := b) (k := rounds - 1) (v := 1 + k) (by simp [hab]) ?_
  have hsum : 2 + k = 1 + k + 1 + ∑ _j : Fin threads, (rounds - rounds) := by
    simp only [Nat.sub_self, Finset.sum_const_zero]
    omega
  rw [hsum]
  refine leads_end (fun j => ?_) fun j => le_rfl
  by_cases hjb : j = b
  · subst hjb
    rw [Function.update_self, Nat.sub_add_cancel (by omega)]
  · rw [Function.update_of_ne hjb]
    by_cases hja : j = a
    · subst hja
      have hround : 1 + k + (rounds - 1 - k) = rounds := by omega
      rw [Function.update_self, hround]
    · simp [hja, hjb]

/-- The other threads can make any number of increments. -/
theorem exists_sum_eq (l : Finset (Fin threads)) (hn : n ≤ l.card * rounds) :
    ∃ d : Fin threads → ℕ, (∀ j, d j ≤ rounds) ∧ ∑ j ∈ l, (rounds - d j) = n := by
  induction n with
  | zero => exact ⟨fun _ => rounds, fun _ => le_rfl, by simp⟩
  | succ n ih =>
      obtain ⟨d, hd, hsum⟩ := ih (by omega)
      have hlt : ∑ j ∈ l, (rounds - d j) < ∑ _j ∈ l, rounds := by
        rw [hsum, Finset.sum_const, smul_eq_mul]
        exact hn
      obtain ⟨j, hj, hpos⟩ := Finset.exists_lt_of_sum_lt hlt
      refine ⟨Function.update d j (d j - 1), fun k => ?_, ?_⟩
      · by_cases hk : k = j
        · subst hk
          rw [Function.update_self]
          exact (Nat.sub_le _ _).trans (hd k)
        · rw [Function.update_of_ne hk]
          exact hd k
      · rw [← Finset.add_sum_erase l _ hj] at hsum ⊢
        rw [Function.update_self]
        have hrest : ∑ k ∈ l.erase j, (rounds - Function.update d j (d j - 1) k) =
            ∑ k ∈ l.erase j, (rounds - d k) := by
          refine Finset.sum_congr rfl fun k hk => ?_
          rw [Function.update_of_ne (Finset.ne_of_mem_erase hk)]
        have hle := hd j
        omega

end Runs

/-! ## Results -/

/-- At the end the counter of at least two threads may be any number from two, or one if each thread
counts once, to the number of all increments, and no other one. -/
theorem final_iff (hthreads : 2 ≤ threads) (hrounds : 1 ≤ rounds) (v : ℕ) :
    (∃ c, (program threads rounds).Reachable c ∧ AllExited c ∧ c.shared = v) ↔
      min rounds 2 ≤ v ∧ v ≤ threads * rounds := by
  constructor
  · rintro ⟨c, hc, hexited, rfl⟩
    exact bounds_of_allExited (by omega) hc hexited
  · rintro ⟨hlow, hhigh⟩
    let a : Fin threads := ⟨0, by omega⟩
    let b : Fin threads := ⟨1, hthreads⟩
    by_cases hv : rounds ≤ v
    · have hcard : (Finset.univ.erase a).card = threads - 1 := by simp
      have hle : v - rounds ≤ (Finset.univ.erase a).card * rounds := by
        rw [hcard, Nat.sub_mul]
        omega
      obtain ⟨d, hd, hsum⟩ := exists_sum_eq (Finset.univ.erase a) hle
      obtain ⟨c, hc, hexited, hshared⟩ := (leads_lost (o := fun _ => none) a hrounds hd).reachable
        .init
      exact ⟨c, hc, hexited, by omega⟩
    · have hba : b ≠ a := by simp [a, b]
      have hk : v - 2 < rounds := by omega
      have htwo : 2 ≤ rounds := by omega
      obtain ⟨c, hc, hexited, hshared⟩ := (leads_low (o := fun _ => none) hba hk htwo).reachable
        .init
      exact ⟨c, hc, hexited, by omega⟩

/-- In `pth_mutex2.c` two may be left of 400000. -/
theorem final_iff_execute : ∃ c, execute.Reachable c ∧ AllExited c ∧ c.shared = 2 :=
  (final_iff (by decide) (by decide) 2).mpr (by decide)

end PthreadBenchmark.Increments
