import PthreadBenchmark.WatchCount.Model
import PthreadBenchmark.Shared.PthreadProgress
import Mathlib.Data.Fintype.Option
import Mathlib.Algebra.BigOperators.Option

/-! # The watcher is woken and adds its 125 once -/

namespace PthreadBenchmark.WatchCount

open Pthread

variable {n totalCount countLimit : ℕ} {s : Shared} {p q : Point} {ps : Option (Fin n) → Point}
  {c : Config (Option (Fin n)) Shared Point Mutex Cond}

/-! ## Counting -/

/-- The increments that a thread at this point has made. -/
def Point.increments (totalCount : ℕ) : Point → ℕ
  | .incLoop i | .incBody i => i
  | .incSignal i | .incUnlock i => i + 1
  | .incExit => totalCount
  | .watchLock | .watchTest | .watchUpdate | .watchUnlock | .watchExit => 0

def Point.updates : Point → ℕ
  | .watchUnlock | .watchExit => 1
  | _ => 0

/-- The points of the watcher and of the other threads. -/
def Point.Fits (totalCount : ℕ) (p : Point) : Option (Fin n) → Prop
  | none => match p with
    | .watchLock | .watchTest | .watchUpdate | .watchUnlock | .watchExit => True
    | _ => False
  | some _ => match p with
    | .incLoop i => i ≤ totalCount
    | .incBody i | .incSignal i | .incUnlock i => i < totalCount
    | .incExit => True
    | _ => False

structure Counted (totalCount countLimit : ℕ) (s : Shared) (ps : Option (Fin n) → Point) :
    Prop where
  fits : ∀ i, (ps i).Fits totalCount i
  count : s.count = s.increments + 125 * s.updates
  increments : s.increments = weight (Point.increments totalCount) ps
  updates : s.updates = weight Point.updates ps
  reached : ps none = .watchUpdate ∨ 0 < s.updates → countLimit ≤ s.increments

theorem counted_start :
    Counted totalCount countLimit ⟨0, 0, 0⟩ (start : Option (Fin n) → Point) where
  fits i := by cases i <;> simp [start, Point.Fits]
  count := rfl
  increments := ((weight_eq_zero_iff ..).mpr fun i => by cases i <;> rfl).symm
  updates := ((weight_eq_zero_iff ..).mpr fun i => by cases i <;> rfl).symm
  reached h := by simp [start] at h

/-- Only the watcher updates. -/
theorem Counted.updates_eq (h : Counted totalCount countLimit s ps) :
    s.updates = (ps none).updates := by
  rw [h.updates]
  apply weight_eq_of_forall_ne none
  intro i hi
  cases i with
  | none => exact absurd rfl hi
  | some i =>
      have hfits := h.fits (some i)
      cases hp : ps (some i) <;> rw [hp] at hfits <;> first | rfl | exact hfits.elim

/-- What a step of the code does to the counters, and what it has tested. -/
inductive Edge (totalCount countLimit : ℕ) (s : Shared) : Point → Shared → Point → Prop where
  | stay {p q : Point} (increments : q.increments totalCount = p.increments totalCount)
      (updates : q.updates = p.updates) (ne : q ≠ .watchUpdate) :
      Edge totalCount countLimit s p s q
  | increment {p q : Point} (increments : q.increments totalCount = p.increments totalCount + 1)
      (updates : q.updates = p.updates) (ne : q ≠ .watchUpdate) :
      Edge totalCount countLimit s p
        { s with count := s.count + 1, increments := s.increments + 1 } q
  | reach (le : countLimit ≤ s.count) : Edge totalCount countLimit s .watchTest s .watchUpdate
  | update :
      Edge totalCount countLimit s .watchUpdate
        { s with count := s.count + 125, updates := s.updates + 1 } .watchUnlock

theorem edge_of_next {i : Option (Fin n)} (hfits : p.Fits totalCount i)
    (h : (code (n := n) totalCount countLimit s p).next? = some q) :
    q.Fits totalCount i ∧ Edge totalCount countLimit s p
      ((code (n := n) totalCount countLimit s p).after s) q := by
  cases i with
  | none =>
      cases p with
      | watchLock | watchUnlock =>
          cases h
          exact ⟨trivial, .stay rfl rfl (by simp)⟩
      | watchTest =>
          simp only [code] at h ⊢
          split at h
          · next hlt =>
              cases h
              rw [if_pos hlt]
              exact ⟨trivial, .stay rfl rfl (by simp)⟩
          · next hge =>
              cases h
              rw [if_neg hge]
              exact ⟨trivial, .reach (Nat.le_of_not_lt hge)⟩
      | watchUpdate =>
          cases h
          exact ⟨trivial, .update⟩
      | watchExit => cases h
      | incLoop | incBody | incSignal | incUnlock | incExit => exact hfits.elim
  | some i =>
      cases p with
      | incLoop k =>
          simp only [code] at h ⊢
          split at h
          · next hlt =>
              cases h
              rw [if_pos hlt]
              exact ⟨hlt, .stay rfl rfl (by simp)⟩
          · next hge =>
              cases h
              rw [if_neg hge]
              exact ⟨trivial, .stay (le_antisymm (Nat.le_of_not_lt hge) hfits) rfl (by simp)⟩
      | incBody k =>
          simp only [code, Op.next?, Option.some.injEq] at h
          split at h <;> subst h <;> exact ⟨hfits, .increment rfl rfl (by simp)⟩
      | incSignal k =>
          cases h
          exact ⟨hfits, .stay rfl rfl (by simp)⟩
      | incUnlock k =>
          cases h
          exact ⟨Nat.succ_le_of_lt hfits, .stay rfl rfl (by simp)⟩
      | incExit => cases h
      | watchLock | watchTest | watchUpdate | watchUnlock | watchExit => exact hfits.elim

theorem Counted.step (h : Counted totalCount countLimit s ps) {i : Option (Fin n)} {s' : Shared}
    (hfits : q.Fits totalCount i) (hedge : Edge totalCount countLimit s (ps i) s' q) :
    Counted totalCount countLimit s' (Function.update ps i q) := by
  have hincrements := weight_update (Point.increments totalCount) ps i q
  have hupdates := weight_update Point.updates ps i q
  have hcount := h.count
  have hsum := h.increments
  have hsum' := h.updates
  have hall : ∀ j, (Function.update ps i q j).Fits totalCount j :=
    (Function.forall_update_iff ps fun j p => p.Fits totalCount j).mpr
      ⟨hfits, fun j _ => h.fits j⟩
  have hnone : q ≠ .watchUpdate → Function.update ps i q none = .watchUpdate →
      ps none = .watchUpdate := by
    intro hne hq
    by_cases hi : none = i
    · subst hi
      rw [Function.update_self] at hq
      exact absurd hq hne
    · rwa [Function.update_of_ne hi] at hq
  generalize hp : ps i = p at hedge hincrements hupdates
  cases hedge with
  | stay increments updates ne =>
      refine ⟨hall, hcount, by omega, by omega, ?_⟩
      exact fun hor => h.reached (hor.imp_left (hnone ne))
  | increment increments updates ne =>
      refine ⟨hall, ?_, by simp only; omega, by simp only; omega, ?_⟩
      · simp only
        omega
      · intro hor
        have hreached := h.reached (hor.imp_left (hnone ne))
        simp only
        omega
  | reach le =>
      refine ⟨hall, hcount, ?_, ?_, fun _ => ?_⟩
      · simp only [Point.increments] at hincrements
        omega
      · simp only [Point.updates] at hupdates
        omega
      · by_cases hpos : 0 < s.updates
        · exact h.reached (.inr hpos)
        · omega
  | update =>
      refine ⟨hall, by simp only; omega, ?_, ?_, fun _ => ?_⟩
      · simp only [Point.increments] at hincrements ⊢
        omega
      · simp only [Point.updates] at hupdates ⊢
        omega
      · cases i with
        | none => exact h.reached (.inl hp)
        | some i =>
            have hfits' := h.fits (some i)
            rw [hp] at hfits'
            exact hfits'.elim

theorem counted_of_reachable (h : (program n totalCount countLimit).Reachable c) :
    Counted totalCount countLimit c.shared (points c) := by
  apply points_invariant h counted_start
  intro s ps i q hcounted hq
  obtain ⟨hfits, hedge⟩ := edge_of_next (hcounted.fits i) hq
  exact hcounted.step hfits hedge

/-! ## Mutual exclusion -/

def inside (p : Point) (_ : Mutex) : Prop :=
  match p with
  | .incBody _ | .incSignal _ | .incUnlock _ | .watchTest | .watchUpdate | .watchUnlock => True
  | .incLoop _ | .incExit | .watchLock | .watchExit => False

theorem flat : Flat inside (code (n := n) totalCount countLimit) where
  tracks s p := by
    cases p with
    | incLoop i =>
        simp only [code]
        split
        · intro m
          simp [inside]
        · exact fun _ => Iff.rfl
    | incBody i =>
        intro m
        by_cases hlimit : s.count + 1 = countLimit <;> simp [inside, hlimit]
    | watchTest =>
        simp only [code]
        split
        · exact ⟨trivial, fun _ => Iff.rfl⟩
        · exact fun _ => Iff.rfl
    | incUnlock | watchLock | watchUnlock =>
        intro m
        simp [inside]
    | incSignal | watchUpdate => exact fun _ => Iff.rfl
    | incExit | watchExit => trivial
  proper s p := by
    cases p with
    | incLoop | watchTest =>
        simp only [code]
        split <;> trivial
    | _ => trivial
  unique _ _ := rfl
  flows {s p m} hin := by
    cases p with
    | watchTest =>
        simp only [code]
        split <;> trivial
    | incBody | incSignal | incUnlock | watchUpdate | watchUnlock => trivial
    | incLoop | incExit | watchLock | watchExit => exact hin.elim

/-! ## Wakeups -/

/-- Threads that are about to signal or, after a wait, to test the counter. -/
def wakeupCredit : Point → ℕ
  | .incSignal _ | .watchTest | .watchUpdate => 1
  | .watchUnlock | .watchExit => 2
  | .incLoop _ | .incBody _ | .incUnlock _ | .incExit | .watchLock => 0

/-- The counter comes to the limit in steps of one, and then a signal is sent. -/
theorem pays (s : Shared) (p : Point) :
    Pays .countThresholdCv (fun s => if countLimit ≤ s.count then 1 else 0) wakeupCredit s p
      (code (n := n) totalCount countLimit s p) := by
  cases p with
  | incLoop i =>
      simp only [code]
      split <;> exact le_rfl
  | incBody i =>
      simp only [code, Pays]
      by_cases hlimit : s.count + 1 = countLimit
      · rw [if_pos hlimit, if_pos hlimit.ge, if_neg (by omega)]
        exact le_rfl
      · rw [if_neg hlimit]
        simp only [wakeupCredit]
        split_ifs <;> omega
  | incSignal i => simp [code, Pays, wakeupCredit]
  | watchTest =>
      simp only [code]
      split
      · simp [Pays, wakeupCredit, *]
      · exact le_rfl
  | watchUpdate =>
      simp only [code, Pays, wakeupCredit]
      split_ifs <;> omega
  | watchLock => exact Nat.zero_le _
  | incUnlock | watchUnlock => exact le_rfl
  | incExit | watchExit => trivial

/-- The thread has counted to the limit and has still to signal. -/
def ToSignal (t : Status Point Mutex Cond) : Prop := ∃ i, t = .running (.incSignal i)

/-- Only the watcher waits, and then it tests the counter again. -/
theorem waits (h : (program n totalCount countLimit).Reachable c) (i : Option (Fin n)) :
    Waits (fun _ _ q => q = .watchTest) (c.threads i) := by
  apply waits_of_reachable _ h
  intro s p cond m q hop
  cases p with
  | watchTest =>
      simp only [code] at hop
      split at hop
      · cases hop
        rfl
      · cases hop
  | incLoop i =>
      simp only [code] at hop
      split at hop <;> cases hop
  | _ => cases hop

/-- A thread that counts does not sleep. -/
theorem running_some (h : (program n totalCount countLimit).Reachable c) (i : Fin n) :
    ∃ p, c.threads (some i) = .running p := by
  rcases (waits h (some i)).running_or with hrunning | hresting
  · exact ⟨_, hrunning⟩
  · have hfits := (counted_of_reachable h).fits (some i)
    rw [hresting] at hfits
    exact hfits.elim

/-- While the watcher sleeps at the limit, somebody has still to signal. -/
theorem exists_toSignal (h : (program n totalCount countLimit).Reachable c)
    (hasleep : AsleepOn .countThresholdCv (c.threads none)) (hcount : countLimit ≤ c.shared.count) :
    ∃ i, ToSignal (c.threads i) := by
  have hneed := (covered_of_reachable pays h).need_le hasleep
  rw [if_pos hcount] at hneed
  obtain ⟨j, hj⟩ := exists_of_weight_pos (lt_of_lt_of_le Nat.one_pos hneed)
  cases j with
  | none =>
      obtain ⟨m, q, ht⟩ := exists_asleep hasleep
      rw [ht] at hj
      exact absurd hj (Nat.lt_irrefl 0)
  | some j =>
      obtain ⟨p, ht⟩ := running_some h j
      have hfits := (counted_of_reachable h).fits (some j)
      rw [points_of_running ht] at hfits
      rw [ht] at hj
      cases p with
      | incSignal k => exact ⟨some j, k, ht⟩
      | incLoop | incBody | incUnlock | incExit => exact absurd hj (Nat.lt_irrefl 0)
      | watchLock | watchTest | watchUpdate | watchUnlock | watchExit => exact hfits.elim

/-! ## Result -/

/-- No thread can go on without a spurious wakeup. -/
def Final (totalCount countLimit : ℕ) (c : Config (Option (Fin n)) Shared Point Mutex Cond) :
    Prop := Stuck (code totalCount countLimit) c

theorem point_of_halted {i : Option (Fin n)}
    (h : Halted (code (n := n) totalCount countLimit) c.shared (c.threads i)) :
    points c i = .incExit ∨ points c i = .watchExit := by
  have hhalt := isHalt_of_halted h
  cases hp : points c i with
  | incExit => exact .inl rfl
  | watchExit => exact .inr rfl
  | incLoop | watchTest =>
      simp only [hp, code] at hhalt
      split at hhalt <;> cases hhalt
  | _ =>
      rw [hp] at hhalt
      cases hhalt

theorem not_join (s : Shared) (p : Point) (j : Option (Fin n)) (q : Point) :
    code totalCount countLimit s p ≠ .join j q := by
  intro hop
  cases p with
  | incLoop | watchTest =>
      simp only [code] at hop
      split at hop <;> cases hop
  | _ => cases hop

theorem owned_of_program (h : (program n totalCount countLimit).Reachable c) : Owned inside c := by
  apply owned_of_reachable flat.tracks _ h
  intro i m
  cases i <;> exact id

/-- In a final state all increments have been made. -/
theorem exited_of_final (h : (program n totalCount countLimit).Reachable c)
    (hfinal : Final totalCount countLimit c) (i : Fin n) :
    c.threads (some i) = .running .incExit := by
  obtain ⟨p, ht⟩ := running_some h i
  have hpoint : points c (some i) = p := points_of_running ht
  rcases hfinal.halted_or_asleep flat (owned_of_program h) not_join (some i) with
    hhalted | ⟨cond, hasleep⟩
  · rcases point_of_halted hhalted with hexit | hexit
    · rw [ht, ← hpoint, hexit]
    · have hfits := (counted_of_reachable h).fits (some i)
      rw [hexit] at hfits
      exact hfits.elim
  · rw [ht] at hasleep
    exact hasleep.elim

theorem increments_of_final (h : (program n totalCount countLimit).Reachable c)
    (hfinal : Final totalCount countLimit c) : c.shared.increments = n * totalCount := by
  have hcounted := counted_of_reachable h
  have hsome : ∀ i : Fin n, points c (some i) = .incExit :=
    fun i => points_of_running (exited_of_final h hfinal i)
  have hnone : (points c none).increments totalCount = 0 := by
    have hfits := hcounted.fits none
    cases hp : points c none <;> rw [hp] at hfits <;> first | rfl | exact hfits.elim
  rw [hcounted.increments, weight, Fintype.sum_option, hnone]
  simp [hsome, Point.increments]

/-- The watcher does not sleep in a final state if the limit can be reached. -/
theorem updates_of_final (hlimit : countLimit ≤ n * totalCount)
    (h : (program n totalCount countLimit).Reachable c) (hfinal : Final totalCount countLimit c) :
    c.shared.updates = 1 := by
  have hcounted := counted_of_reachable h
  rw [hcounted.updates_eq]
  rcases hfinal.halted_or_asleep flat (owned_of_program h) not_join none with
    hhalted | ⟨cond, hasleep⟩
  · rcases point_of_halted hhalted with hexit | hexit
    · have hfits := hcounted.fits none
      rw [hexit] at hfits
      exact hfits.elim
    · rw [hexit]
      rfl
  · have hreached : countLimit ≤ c.shared.count := by
      have hcount := hcounted.count
      have hincrements := increments_of_final h hfinal
      omega
    obtain ⟨i, k, ht⟩ := exists_toSignal h (by cases cond; exact hasleep) hreached
    cases i with
    | none =>
        rw [ht] at hasleep
        exact hasleep.elim
    | some i =>
        rw [exited_of_final h hfinal i] at ht
        cases ht

/-- For any number of threads, any counts and any limit that can be reached, and any
interleaving: the counter is right, the watcher updates it at most once and not before the
limit, it does not sleep at the limit unless the signal is still to be sent, and in the end
everything has been counted. -/
theorem watch_correct (n totalCount countLimit : ℕ) (hlimit : countLimit ≤ n * totalCount)
    (c : Config (Option (Fin n)) Shared Point Mutex Cond)
    (h : (program n totalCount countLimit).Reachable c) :
    (c.shared.count = c.shared.increments + (if c.shared.updates = 0 then 0 else 125) ∧
      c.shared.updates ≤ 1 ∧ (0 < c.shared.updates → countLimit ≤ c.shared.increments)) ∧
    ¬ (AsleepOn .countThresholdCv (c.threads none) ∧ countLimit ≤ c.shared.count ∧
      ∀ i, ¬ ToSignal (c.threads i)) ∧
    (Final totalCount countLimit c → c.shared.count = n * totalCount + 125) := by
  have hcounted := counted_of_reachable h
  have hcount := hcounted.count
  have hupdates : c.shared.updates ≤ 1 := by
    rw [hcounted.updates_eq]
    cases points c none <;> simp [Point.updates]
  refine ⟨⟨?_, hupdates, fun hpos => hcounted.reached (.inr hpos)⟩, ?_, ?_⟩
  · split <;> omega
  · intro hall
    obtain ⟨hasleep, hreached, hno⟩ := hall
    obtain ⟨i, hi⟩ := exists_toSignal h hasleep hreached
    exact hno i hi
  · intro hfinal
    rw [hcount, increments_of_final h hfinal, updates_of_final hlimit h hfinal]

/-- The watcher falls asleep, and thread `i` counts to one. -/
def countToOne (i : Fin 1) : List (Action (Option (Fin 1))) :=
  List.replicate 2 (Action.run none none) ++ List.replicate 2 (Action.run (some i) none)

/-- The signal, the exit of thread `i`, and the update of the watcher. -/
def wakeWatcher (i : Fin 1) : List (Action (Option (Fin 1))) :=
  .run (some i) (some none) :: (List.replicate 2 (Action.run (some i) none) ++
    List.replicate 4 (Action.run none none))

def runOne (schedule : List (Action (Option (Fin 1)))) :
    Option (Config (Option (Fin 1)) Shared Point Mutex Cond) :=
  (program 1 1 1).exec (program 1 1 1).init schedule

theorem watch_correct_one : ∃ c, runOne (countToOne 0 ++ wakeWatcher 0) = some c ∧
    c.shared.count = 1 * 1 + 125 := by
  have hrun : (runOne (countToOne 0 ++ wakeWatcher 0)).isSome = true := by decide
  have hfinal : Final 1 1 ((runOne (countToOne 0 ++ wakeWatcher 0)).get hrun) := by
    intro i target
    match i with
    | none => rfl
    | some 0 => rfl
  exact ⟨_, (Option.some_get hrun).symm, (watch_correct 1 1 1 le_rfl _
    (System.Reachable.init.exec (Option.some_get hrun).symm)).2.2 hfinal⟩

/-- Between the increment and the signal the watcher still sleeps. -/
theorem asleep_at_limit : ∃ c, (program 1 1 1).Reachable c ∧
    AsleepOn .countThresholdCv (c.threads none) ∧ 1 ≤ c.shared.count := by
  have hrun : (runOne (countToOne 0)).isSome = true := by decide
  exact ⟨(runOne (countToOne 0)).get hrun, System.Reachable.init.exec (Option.some_get hrun).symm,
    rfl, le_rfl⟩

end PthreadBenchmark.WatchCount
