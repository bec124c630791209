import PthreadBenchmark.ThreadCondVar.Model
import PthreadBenchmark.Shared.PthreadReturns
import Mathlib.Data.Fintype.Option
import Mathlib.Algebra.BigOperators.Option

/-! # How often the watcher adds its 125

It adds once where it comes in time to sleep and no spurious wakeup lets it go on before the
limit. -/

namespace PthreadBenchmark.ThreadCondVar

open Pthread

variable {tCount countLimit : ℕ} {s : Shared} {q : Point} {ps : Tid → Point} {i : Tid}
  {sl sl' : Tid → Option Cond} {w w' : Watched Tid Shared Point Mutex Cond}

/-- No thread can go on without a spurious wakeup. -/
def Final (tCount countLimit : ℕ) (c : Config Tid Shared Point Mutex Cond) : Prop :=
  Stuck (code tCount countLimit) c

/-- The watcher has left its loop. -/
def Left (ps : Tid → Point) : Prop := ps none = .watchUnlock ∨ ps none = .watchExit

/-- The watcher adds its 125 not before the limit and exactly once up to the end of its loop, and
in the end everything has been counted. -/
structure Correct (tCount countLimit : ℕ) (c : Config Tid Shared Point Mutex Cond) : Prop where
  reached : ∀ k ∈ c.shared.updatedAt, countLimit ≤ k
  atMostOnce : c.shared.updatedAt.length ≤ 1
  once : Left (points c) → c.shared.updatedAt.length = 1
  total : Final tCount countLimit c → c.shared.count = 2 * tCount + 125

/-- The watcher does not find the counter at the limit in its first test. -/
def InTime (countLimit : ℕ) (s : Shared) (ps : Tid → Point) (i : Tid) : Prop :=
  ps i = .watchTest → s.updatedAt = [] → s.count < countLimit

instance (countLimit : ℕ) (s : Shared) (ps : Tid → Point) (i : Tid) :
    Decidable (InTime countLimit s ps i) := inferInstanceAs (Decidable (_ → _))

/-- Behind a wait that has ended without a signal the watcher goes on only when the threads have
counted to the limit. -/
def Timely (countLimit : ℕ) (s : Shared) (_ : Tid → Point) (_ : Tid) : Prop :=
  countLimit ≤ s.increments

instance (countLimit : ℕ) (s : Shared) (ps : Tid → Point) (i : Tid) :
    Decidable (Timely countLimit s ps i) := inferInstanceAs (Decidable (_ ≤ _))

/-! ## Counting -/

/-- The increments that a thread at this point has made. -/
def Point.increments (tCount : ℕ) : Point → ℕ
  | .incLoop i | .incBody i => i
  | .incSignal i | .incUnlock i => i + 1
  | .incExit => tCount
  | .watchLock | .watchTest | .watchUpdate | .watchUnlock | .watchExit => 0

/-- The points of the watcher and of the other threads. -/
def Point.Fits (tCount : ℕ) : Tid → Point → Prop
  | none, .watchLock | none, .watchTest | none, .watchUpdate | none, .watchUnlock
  | none, .watchExit => True
  | some _, .incLoop i => i ≤ tCount
  | some _, .incBody i | some _, .incSignal i | some _, .incUnlock i => i < tCount
  | some _, .incExit => True
  | _, _ => False

/-- How often the watcher can have updated the counter. -/
def Point.Updates : Point → ℕ → Prop
  | .watchLock, k | .watchUpdate, k => k = 0
  | .watchTest, k => k ≤ 1
  | .watchUnlock, k | .watchExit, k => k = 1
  | _, _ => True

structure Counted (tCount countLimit : ℕ) (s : Shared) (ps : Tid → Point) : Prop where
  fits : ∀ i, (ps i).Fits tCount i
  count : s.count = s.increments + 125 * s.updatedAt.length
  increments : s.increments = weight (Point.increments tCount) ps
  updates : (ps none).Updates s.updatedAt.length
  reached : ∀ k ∈ s.updatedAt, countLimit ≤ k ∧ k ≤ s.increments

theorem counted_start : Counted tCount countLimit ⟨0, 0, []⟩ start where
  fits i := by cases i <;> simp [start, Point.Fits]
  count := rfl
  increments := ((weight_eq_zero_iff ..).mpr fun i => by cases i <;> rfl).symm
  updates := rfl
  reached k hk := by cases hk

/-- A step of a thread that counts. -/
theorem Counted.step_some (h : Counted tCount countLimit s ps) {j : Fin 2}
    (hq : (code tCount countLimit s (ps (some j))).next? = some q) :
    Counted tCount countLimit ((code tCount countLimit s (ps (some j))).after s)
      (Function.update ps (some j) q) := by
  have hfits := h.fits (some j)
  have hweight := weight_update (Point.increments tCount) ps (some j) q
  have hcount := h.count
  have hincrements := h.increments
  have hmove : ∀ k, q.Fits tCount (some j) →
      q.increments tCount = (ps (some j)).increments tCount + k →
      Counted tCount countLimit
        { s with count := s.count + k, increments := s.increments + k }
        (Function.update ps (some j) q) := by
    intro k hqfits hk
    refine ⟨?_, by simp only; omega, by simp only; omega, ?_, fun x hx => ?_⟩
    · exact (Function.forall_update_iff ps fun i p => p.Fits tCount i).mpr
        ⟨hqfits, fun i _ => h.fits i⟩
    · rw [Function.update_of_ne (by simp)]
      exact h.updates
    · obtain ⟨hreached, hle⟩ := h.reached x hx
      exact ⟨hreached, Nat.le_add_right_of_le hle⟩
  cases hp : ps (some j) <;> rw [hp] at hq hfits hmove
  case incLoop k =>
    simp only [code] at hq ⊢
    by_cases hlt : k < tCount
    · rw [if_pos hlt] at hq ⊢
      cases hq
      exact hmove 0 hlt rfl
    · rw [if_neg hlt] at hq ⊢
      cases hq
      exact hmove 0 trivial (le_antisymm (Nat.le_of_not_lt hlt) hfits)
  case incBody k =>
    cases hq
    apply hmove 1 <;> split <;> first | exact hfits | rfl
  case incSignal k =>
    cases hq
    exact hmove 0 hfits rfl
  case incUnlock k =>
    cases hq
    exact hmove 0 (Nat.succ_le_of_lt hfits) rfl
  case incExit => cases hq
  case watchLock | watchTest | watchUpdate | watchUnlock | watchExit => exact hfits.elim

/-- The watcher has updated the counter only where it has come to the limit. -/
theorem Counted.eq_nil_of_lt (h : Counted tCount countLimit s ps) (hlt : s.count < countLimit) :
    s.updatedAt = [] := by
  by_contra hne
  obtain ⟨k, hk⟩ := List.exists_mem_of_ne_nil _ hne
  obtain ⟨hreached, hle⟩ := h.reached k hk
  have hcount := h.count
  omega

/-- A step of the watcher in time. -/
theorem Counted.step_none (h : Counted tCount countLimit s ps)
    (hgood : InTime countLimit s ps none)
    (hreached : ps none = .watchUpdate → countLimit ≤ s.increments)
    (hq : (code tCount countLimit s (ps none)).next? = some q) :
    Counted tCount countLimit ((code tCount countLimit s (ps none)).after s)
      (Function.update ps none q) := by
  have hfits := h.fits none
  have hweight := weight_update (Point.increments tCount) ps none q
  have hcount := h.count
  have hincrements := h.increments
  have hupdates := h.updates
  have hmove : q.Fits tCount none → (ps none).increments tCount = q.increments tCount →
      q.Updates s.updatedAt.length → Counted tCount countLimit s (Function.update ps none q) := by
    intro hqfits hqinc hqupdates
    refine ⟨?_, hcount, by omega, hqupdates, h.reached⟩
    exact (Function.forall_update_iff ps fun i p => p.Fits tCount i).mpr
      ⟨hqfits, fun i _ => h.fits i⟩
  cases hp : ps none <;> rw [hp] at hq hfits hupdates hmove
  case watchLock =>
    cases hq
    exact hmove trivial rfl (Nat.le_of_eq hupdates |>.trans Nat.one_pos.le)
  case watchTest =>
    simp only [code] at hq ⊢
    by_cases hlt : s.count < countLimit
    · rw [if_pos hlt] at hq ⊢
      cases hq
      have hnil := h.eq_nil_of_lt hlt
      exact hmove trivial rfl (by simp [hnil, Point.Updates])
    · rw [if_neg hlt] at hq ⊢
      cases hq
      have hne : s.updatedAt ≠ [] := fun hnil => hlt (hgood hp hnil)
      have hpos := List.length_pos_of_ne_nil hne
      exact hmove trivial rfl (le_antisymm hupdates hpos)
  case watchUpdate =>
    cases hq
    have hlimit := hreached hp
    rw [hp] at hweight
    simp only [Point.Updates, Point.increments] at hupdates hweight
    refine ⟨?_, ?_, ?_, ?_, ?_⟩
    · exact (Function.forall_update_iff ps fun i p => p.Fits tCount i).mpr
        ⟨trivial, fun i _ => h.fits i⟩
    · simp only [code, Op.after, List.length_append, List.length_singleton]
      omega
    · simp only [code, Op.after]
      omega
    · simp [Point.Updates, code, Op.after, hupdates]
    · intro k hk
      rcases List.mem_append.mp hk with hk | hk
      · exact h.reached k hk
      · obtain rfl : k = s.increments := List.mem_singleton.mp hk
        exact ⟨hlimit, le_rfl⟩
  case watchUnlock =>
    cases hq
    exact hmove trivial rfl hupdates
  case watchExit => cases hq
  case incLoop | incBody | incSignal | incUnlock | incExit => exact hfits.elim

/-! ## Mutual exclusion -/

def inside (p : Point) (_ : Mutex) : Prop :=
  match p with
  | .incBody _ | .incSignal _ | .incUnlock _ | .watchTest | .watchUpdate | .watchUnlock => True
  | .incLoop _ | .incExit | .watchLock | .watchExit => False

theorem flat : Flat inside (code tCount countLimit) where
  tracks s p := by
    cases p with
    | incLoop i =>
        simp only [code]
        split
        · intro m
          simp [inside]
        · exact fun _ => Iff.rfl
    | incBody i =>
        intro m
        by_cases hlimit : s.count + 1 = countLimit <;> simp [inside, hlimit]
    | watchTest =>
        simp only [code]
        split
        · exact ⟨trivial, fun _ => Iff.rfl⟩
        · exact fun _ => Iff.rfl
    | incUnlock | watchLock | watchUnlock =>
        intro m
        simp [inside]
    | incSignal | watchUpdate => exact fun _ => Iff.rfl
    | incExit | watchExit => trivial
  proper s p := by
    cases p with
    | incLoop | watchTest =>
        simp only [code]
        split <;> trivial
    | _ => trivial
  unique _ _ := rfl
  flows {s p m} hin := by
    cases p with
    | watchTest =>
        simp only [code]
        split <;> trivial
    | incBody | incSignal | incUnlock | watchUpdate | watchUnlock => trivial
    | incLoop | incExit | watchLock | watchExit => exact hin.elim

theorem not_inside_start (i : Tid) (m : Mutex) : ¬ inside (start i) m := by
  cases i <;> exact id

theorem eq_watchUpdate_of_wait (s : Shared) (p : Point) (cond : Cond) (m : Mutex) (q : Point)
    (h : code tCount countLimit s p = .wait cond m q) : q = .watchUpdate := by
  cases p with
  | watchTest =>
      simp only [code] at h
      split at h
      · cases h
        rfl
      · cases h
  | incLoop =>
      simp only [code] at h
      split at h <;> cases h
  | _ => cases h

/-! ## Signals -/

/-- Who signals has counted to the limit, and the watcher has been told so where its wait is
over. -/
structure Signalled (tCount countLimit : ℕ) (s : Shared) (ps : Tid → Point)
    (sl : Tid → Option Cond) : Prop where
  counted : Counted tCount countLimit s ps
  signals : ∀ i k, ps i = .incSignal k → countLimit ≤ s.increments
  waits : ∀ i cond, sl i = some cond → ps i = .watchUpdate
  woken : ∀ i, ps i = .watchUpdate → sl i = none → countLimit ≤ s.increments

theorem signalled_start : Signalled tCount countLimit ⟨0, 0, []⟩ start fun _ => none where
  counted := counted_start
  signals i k h := by cases i <;> cases h
  waits i cond h := by cases h
  woken i h := by cases i <;> cases h

/-- A step that leaves the waits alone. -/
theorem Signalled.update (h : Signalled tCount countLimit s ps sl) {s' : Shared}
    (hcounted : Counted tCount countLimit s' (Function.update ps i q)) (hawake : sl i = none)
    (hle : s.increments ≤ s'.increments) (hq : q ≠ .watchUpdate)
    (hsignal : ∀ k, q = .incSignal k → countLimit ≤ s'.increments) :
    Signalled tCount countLimit s' (Function.update ps i q) sl := by
  refine ⟨hcounted, fun j k hj => ?_, fun j cond hj => ?_, fun j hj hsl => ?_⟩ <;>
    by_cases hji : j = i
  · subst hji
    rw [Function.update_self] at hj
    exact hsignal k hj
  · rw [Function.update_of_ne hji] at hj
    exact (h.signals j k hj).trans hle
  · subst hji
    rw [hawake] at hj
    cases hj
  · rw [Function.update_of_ne hji]
    exact h.waits j cond hj
  · subst hji
    rw [Function.update_self] at hj
    exact absurd hj hq
  · rw [Function.update_of_ne hji] at hj
    exact (h.woken j hj hsl).trans hle

/-- A wait is over: by a signal, or when the watcher goes on in time. -/
theorem Signalled.wake (h : Signalled tCount countLimit s ps sl)
    (hreached : countLimit ≤ s.increments) (j : Tid) :
    Signalled tCount countLimit s ps (Function.update sl j none) := by
  refine ⟨h.counted, h.signals, fun k cond hk => ?_, fun _ _ _ => hreached⟩
  by_cases hkj : k = j
  · subst hkj
    rw [Function.update_self] at hk
    cases hk
  · rw [Function.update_of_ne hkj] at hk
    exact h.waits k cond hk

/-- A wait begins. -/
theorem Signalled.sleep (h : Signalled tCount countLimit s ps sl) {cond : Cond}
    (hcounted : Counted tCount countLimit s (Function.update ps i .watchUpdate)) :
    Signalled tCount countLimit s (Function.update ps i .watchUpdate)
      (Function.update sl i (some cond)) := by
  refine ⟨hcounted, fun j k hj => ?_, fun j cond' hj => ?_, fun j hj hsl => ?_⟩ <;>
    by_cases hji : j = i
  · rw [hji, Function.update_self] at hj
    cases hj
  · rw [Function.update_of_ne hji] at hj
    exact h.signals j k hj
  · rw [hji, Function.update_self]
  · rw [Function.update_of_ne hji] at hj ⊢
    exact h.waits j cond' hj
  · rw [hji, Function.update_self] at hsl
    cases hsl
  · rw [Function.update_of_ne hji] at hj hsl
    exact h.woken j hj hsl

/-- A step keeps what has been counted. -/
theorem Signalled.counted_step (h : Signalled tCount countLimit s ps sl) (hawake : sl i = none)
    (hgood : InTime countLimit s ps i)
    (hq : (code tCount countLimit s (ps i)).next? = some q) :
    Counted tCount countLimit ((code tCount countLimit s (ps i)).after s)
      (Function.update ps i q) := by
  cases i with
  | none => exact h.counted.step_none hgood (fun hp => h.woken none hp hawake) hq
  | some j => exact h.counted.step_some hq

theorem Signalled.step (h : Signalled tCount countLimit s ps sl) (hawake : sl i = none)
    (hgood : InTime countLimit s ps i)
    (hq : (code tCount countLimit s (ps i)).next? = some q)
    (hsleeps : Sleeps i sl sl' (code tCount countLimit s (ps i))) :
    Signalled tCount countLimit ((code tCount countLimit s (ps i)).after s)
      (Function.update ps i q) sl' := by
  have hcounted := h.counted_step hawake hgood hq
  cases hp : ps i <;> rw [hp] at hq hsleeps hcounted
  case incBody k =>
    cases hsleeps
    cases hq
    refine h.update hcounted hawake (Nat.le_succ _) (by split <;> simp) fun j hj => ?_
    -- the counter has no update in it where it comes to the limit
    split at hj
    · next heq =>
        have hcount := h.counted.count
        rw [h.counted.eq_nil_of_lt (by omega), List.length_nil] at hcount
        simp only [code, Op.after]
        omega
    · cases hj
  case incSignal k =>
    cases hq
    have hreached := h.signals i k hp
    have hmoved : Signalled tCount countLimit s (Function.update ps i (.incUnlock k)) sl :=
      h.update hcounted hawake le_rfl (by simp) fun _ _ => hreached
    rcases hsleeps with rfl | ⟨j, -, rfl⟩
    · exact hmoved
    · exact hmoved.wake hreached j
  case watchTest =>
    simp only [code] at hq hsleeps hcounted ⊢
    by_cases hlt : s.count < countLimit
    · rw [if_pos hlt] at hq hsleeps hcounted ⊢
      cases hq
      cases hsleeps
      exact h.sleep hcounted
    · rw [if_neg hlt] at hq hsleeps hcounted ⊢
      cases hq
      cases hsleeps
      exact h.update hcounted hawake le_rfl (by simp) fun _ hk => by cases hk
  case incLoop k =>
    simp only [code] at hq hsleeps hcounted ⊢
    by_cases hlt : k < tCount
    · rw [if_pos hlt] at hq hsleeps hcounted ⊢
      cases hq
      cases hsleeps
      exact h.update hcounted hawake le_rfl (by simp) fun _ hk => by cases hk
    · rw [if_neg hlt] at hq hsleeps hcounted ⊢
      cases hq
      cases hsleeps
      exact h.update hcounted hawake le_rfl (by simp) fun _ hk => by cases hk
  case incUnlock | watchLock | watchUpdate | watchUnlock =>
    cases hq
    cases hsleeps
    exact h.update hcounted hawake le_rfl (by simp) fun _ hk => by cases hk
  case incExit | watchExit => cases hq

/-- The program with a record of the waits that have ended without a signal. -/
abbrev watched (tCount countLimit : ℕ) :
    System (Watched Tid Shared Point Mutex Cond) (Action Tid) :=
  watchedProgram (code tCount countLimit) ⟨0, 0, []⟩ start

abbrev InTimeRun (tCount countLimit : ℕ) : Watched Tid Shared Point Mutex Cond → Prop :=
  (watched tCount countLimit).ReachableBy (GoesOn (InTime countLimit) (Timely countLimit))

theorem InTimeRun.reachable_config (h : InTimeRun tCount countLimit w) :
    (program tCount countLimit).Reachable w.config :=
  Pthread.reachable_config h.reachable

theorem signalled_of_inTime (h : InTimeRun tCount countLimit w) :
    Signalled tCount countLimit w.config.shared (points w.config) (waiting w) := by
  apply returning_invariant flat.tracks eq_watchUpdate_of_wait not_inside_start h signalled_start
  · intro s ps sl sl' i q hinv hawake hgood _ hq hsleeps
    exact hinv.step hawake hgood hq hsleeps
  · intro s ps sl i cond hinv htimely _
    exact hinv.wake htimely i

theorem counted_of_inTime (h : InTimeRun tCount countLimit w) :
    Counted tCount countLimit w.config.shared (points w.config) :=
  (signalled_of_inTime h).counted

/-! ## Wakeups -/

/-- Threads that are about to signal or, behind a wait, to update. -/
def wakeupCredit : Point → ℕ
  | .incSignal _ | .watchUpdate => 1
  | .watchTest | .watchUnlock | .watchExit => 2
  | .incLoop _ | .incBody _ | .incUnlock _ | .incExit | .watchLock => 0

/-- The threads come to the limit in steps of one, and then a signal is sent. -/
theorem pays (s : Shared) (p : Point) :
    Pays .countThresholdCv (fun s => if countLimit ≤ s.count then 1 else 0) wakeupCredit s p
      (code tCount countLimit s p) := by
  cases p with
  | incLoop i =>
      simp only [code]
      split <;> exact le_rfl
  | incBody i =>
      simp only [code, Pays]
      by_cases hlimit : s.count + 1 = countLimit
      · rw [if_pos hlimit, if_pos hlimit.ge, if_neg (by omega)]
        exact le_rfl
      · rw [if_neg hlimit]
        simp only [wakeupCredit]
        split_ifs <;> omega
  | incSignal i => exact le_rfl
  | watchTest =>
      simp only [code]
      split
      · simp [Pays, wakeupCredit, *]
      · exact le_rfl
  | watchUpdate =>
      simp only [code, Pays, wakeupCredit]
      split_ifs <;> omega
  | watchLock => exact Nat.zero_le _
  | incUnlock | watchUnlock => exact le_rfl
  | incExit | watchExit => trivial

/-- A thread that counts does not sleep. -/
theorem running_some (h : InTimeRun tCount countLimit w) (j : Fin 2) :
    ∃ p, w.config.threads (some j) = .running p := by
  have hwaits := waits_of_reachable (W := fun _ _ q => q = .watchUpdate) eq_watchUpdate_of_wait
    h.reachable_config (some j)
  rcases hwaits.running_or with hrunning | hresting
  · exact ⟨_, hrunning⟩
  · have hfits := (counted_of_inTime h).fits (some j)
    rw [hresting] at hfits
    exact hfits.elim

theorem not_join (s : Shared) (p : Point) (j : Tid) (q : Point) :
    code tCount countLimit s p ≠ .join j q := by
  intro hop
  cases p with
  | incLoop | watchTest =>
      simp only [code] at hop
      split at hop <;> cases hop
  | _ => cases hop

theorem point_of_halted (h : Halted (code tCount countLimit) c.shared (c.threads i)) :
    points c i = .incExit ∨ points c i = .watchExit := by
  have hhalt := isHalt_of_halted h
  cases hp : points c i with
  | incExit => exact .inl rfl
  | watchExit => exact .inr rfl
  | incLoop | watchTest =>
      simp only [hp, code] at hhalt
      split at hhalt <;> cases hhalt
  | _ =>
      rw [hp] at hhalt
      cases hhalt

theorem halted_or_asleep (h : InTimeRun tCount countLimit w)
    (hfinal : Final tCount countLimit w.config) (i : Tid) :
    Halted (code tCount countLimit) w.config.shared (w.config.threads i) ∨
      ∃ cond, AsleepOn cond (w.config.threads i) :=
  hfinal.halted_or_asleep flat (owned_of_reachable flat.tracks not_inside_start h.reachable_config)
    not_join i

/-- In a final state all increments have been made. -/
theorem exited_of_final (h : InTimeRun tCount countLimit w)
    (hfinal : Final tCount countLimit w.config) (j : Fin 2) :
    w.config.threads (some j) = .running .incExit := by
  obtain ⟨p, ht⟩ := running_some h j
  have hpoint : points w.config (some j) = p := points_of_running ht
  rcases halted_or_asleep h hfinal (some j) with hhalted | ⟨cond, hasleep⟩
  · rcases point_of_halted hhalted with hexit | hexit
    · rw [ht, ← hpoint, hexit]
    · have hfits := (counted_of_inTime h).fits (some j)
      rw [hexit] at hfits
      exact hfits.elim
  · rw [ht] at hasleep
    exact hasleep.elim

theorem Counted.increments_none (h : Counted tCount countLimit s ps) :
    (ps none).increments tCount = 0 := by
  have hfits := h.fits none
  cases hp : ps none <;> rw [hp] at hfits <;> first | rfl | exact hfits.elim

theorem increments_of_final (h : InTimeRun tCount countLimit w)
    (hfinal : Final tCount countLimit w.config) : w.config.shared.increments = 2 * tCount := by
  have hcounted := counted_of_inTime h
  have hsome : ∀ j : Fin 2, points w.config (some j) = .incExit :=
    fun j => points_of_running (exited_of_final h hfinal j)
  rw [hcounted.increments, weight, Fintype.sum_option, hcounted.increments_none]
  simp [hsome, Point.increments]

/-- The watcher does not sleep in a final state. -/
theorem updates_of_final (hlimit : countLimit ≤ 2 * tCount) (h : InTimeRun tCount countLimit w)
    (hfinal : Final tCount countLimit w.config) : w.config.shared.updatedAt.length = 1 := by
  have hcounted := counted_of_inTime h
  rcases halted_or_asleep h hfinal none with hhalted | ⟨cond, hasleep⟩
  · have hupdates := hcounted.updates
    rcases point_of_halted hhalted with hexit | hexit
    · have hfits := hcounted.fits none
      rw [hexit] at hfits
      exact hfits.elim
    · rw [hexit] at hupdates
      exact hupdates
  · have hreached : countLimit ≤ w.config.shared.count := by
      have hcount := hcounted.count
      have hincrements := increments_of_final h hfinal
      omega
    cases cond
    have hneed := (covered_of_reachable pays h.reachable_config).need_le hasleep
    rw [if_pos hreached] at hneed
    obtain ⟨i, hi⟩ := exists_of_weight_pos (lt_of_lt_of_le Nat.one_pos hneed)
    cases i with
    | none =>
        obtain ⟨m, q, ht⟩ := exists_asleep hasleep
        rw [ht] at hi
        exact absurd hi (Nat.lt_irrefl 0)
    | some j =>
        rw [exited_of_final h hfinal j] at hi
        exact absurd hi (Nat.lt_irrefl 0)

/-! ## Results -/

theorem correct_of_inTime (hlimit : countLimit ≤ 2 * tCount)
    (h : InTimeRun tCount countLimit w) : Correct tCount countLimit w.config := by
  have hcounted := counted_of_inTime h
  have hupdates := hcounted.updates
  refine ⟨fun k hk => (hcounted.reached k hk).1, ?_, ?_, fun hfinal => ?_⟩
  · have hfits := hcounted.fits none
    cases hp : points w.config none <;> rw [hp] at hfits hupdates <;>
      simp only [Point.Updates, Point.Fits] at hfits hupdates <;> omega
  · intro hleft
    rcases hleft with hp | hp <;> rw [hp] at hupdates <;> exact hupdates
  · rw [hcounted.count, increments_of_final h hfinal, updates_of_final hlimit h hfinal]

/-- The first step out of time already shows. -/
theorem not_correct_of_not_inTime (h : InTimeRun tCount countLimit w) {a : Action Tid}
    (hs : (watched tCount countLimit).step w a = some w')
    (hbad : ¬ GoesOn (InTime countLimit) (Timely countLimit) w a) :
    ¬ Correct tCount countLimit w'.config := by
  have hinv := signalled_of_inTime h
  obtain ⟨i, q, hq, hpoints, hshared, hlate | ⟨⟨cond, hcond⟩, hearly⟩⟩ :=
    exists_of_not_goesOn h.reachable hs hbad
  · simp only [InTime, Classical.not_imp] at hlate
    obtain ⟨hp, hnil, hge⟩ := hlate
    have hfits := hinv.counted.fits i
    intro hcorrect
    rw [hp] at hq hshared hfits
    cases i with
    | some j => exact hfits.elim
    | none =>
        simp only [code, if_neg hge] at hq hshared
        cases hq
        have hone := hcorrect.once (.inl (by rw [hpoints, Function.update_self]))
        rw [hshared] at hone
        simp [Op.after, hnil] at hone
  · rw [hinv.waits i cond hcond] at hshared
    intro hcorrect
    apply hearly
    apply hcorrect.reached
    rw [hshared]
    simp [code, Op.after]

/-- The watcher sleeps, wakes up without a signal and adds its 125. -/
def spuriousUpdate : List (Action Tid) :=
  [.run none none, .run none none, .spurious none, .run none none, .run none none]

/-- No limit that can be missed is safe from a spurious wakeup. -/
theorem exists_not_correct (hlimit : 1 ≤ countLimit) :
    ∃ c, (program tCount countLimit).Reachable c ∧ ¬ Correct tCount countLimit c := by
  have hrun : ∃ c, (program tCount countLimit).exec (program tCount countLimit).init
      spuriousUpdate = some c ∧ c.shared.updatedAt = [0] := by
    simp [spuriousUpdate, System.exec_cons, program, Pthread.program, step, exec, code, start,
      Nat.lt_of_lt_of_le Nat.one_pos hlimit]
  obtain ⟨c, hexec, hupdated⟩ := hrun
  refine ⟨c, System.Reachable.init.exec hexec, fun hcorrect => ?_⟩
  have hreached := hcorrect.reached 0 (by simp [hupdated])
  omega

/-- For any counts and any limit that can be reached: in every run that is in time the watcher adds
its 125 exactly once, not before the limit, and the final value is right, whatever the interleaving
is; the first step that is not in time leads to a state that is not correct. For no limit all runs
are in time. -/
theorem updates_correct (tCount countLimit : ℕ) (hpos : 1 ≤ countLimit)
    (hlimit : countLimit ≤ 2 * tCount) :
    (∀ w, InTimeRun tCount countLimit w → Correct tCount countLimit w.config ∧
      ∀ a w', (watched tCount countLimit).step w a = some w' →
        ¬ GoesOn (InTime countLimit) (Timely countLimit) w a →
        ¬ Correct tCount countLimit w'.config) ∧
    ∃ c, (program tCount countLimit).Reachable c ∧ ¬ Correct tCount countLimit c :=
  ⟨fun _ h => ⟨correct_of_inTime hlimit h, fun _ _ hs => not_correct_of_not_inTime h hs⟩,
    exists_not_correct hpos⟩

/-- The watcher sleeps and wakes up without a signal, but goes on only when both threads have
counted to one. -/
def oneEach (i j : Fin 2) : Option (Watched Tid Shared Point Mutex Cond) :=
  ((watched 1 2).guarded (GoesOn (InTime 2) (Timely 2))).exec (watched 1 2).init
    (List.replicate 2 (Action.run none none) ++ List.replicate 4 (Action.run (some i) none) ++
      [Action.spurious none] ++ List.replicate 5 (Action.run (some j) none) ++
      List.replicate 4 (Action.run none none))

theorem updates_correct_one_each : ∃ w, oneEach 0 1 = some w ∧ Correct 1 2 w.config ∧
    w.config.shared.count = 2 * 1 + 125 := by
  have hrun : (oneEach 0 1).isSome = true := by decide
  have hreach : InTimeRun 1 2 ((oneEach 0 1).get hrun) := .of_exec (Option.some_get hrun).symm
  exact ⟨(oneEach 0 1).get hrun, (Option.some_get hrun).symm,
    ((updates_correct 1 2 (by decide) (by decide)).1 _ hreach).1, rfl⟩

/-- Both threads have counted before the watcher makes its first test. -/
def lateWatcher (i j : Fin 2) : Option (Config Tid Shared Point Mutex Cond) :=
  (program 1 1).exec (program 1 1).init
    (List.replicate 5 (Action.run (some i) none) ++ List.replicate 4 (Action.run (some j) none) ++
      List.replicate 3 (Action.run none none))

/-- The watcher leaves without its update, and the final value is 2. -/
theorem watcher_misses : ∃ c, (program 1 1).Reachable c ∧ Final 1 1 c ∧
    c.shared.updatedAt = [] ∧ c.shared.count ≠ 2 * 1 + 125 := by
  have hrun : (lateWatcher 0 1).isSome = true := by decide
  have hne : (2 : ℕ) ≠ 2 * 1 + 125 := by decide
  refine ⟨(lateWatcher 0 1).get hrun, System.Reachable.init.exec (Option.some_get hrun).symm, ?_,
    rfl, hne⟩
  intro i target
  match i with
  | none => rfl
  | some 0 => rfl
  | some 1 => rfl

end PthreadBenchmark.ThreadCondVar
