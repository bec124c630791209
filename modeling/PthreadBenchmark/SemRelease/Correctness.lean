import PthreadBenchmark.SemRelease.Model

/-! # `main` and its keeper part company at the barrier or not at all

A keeper that reads -1 from `*status` at the head of its loop leaves `main` alone at the barrier. -/

namespace PthreadBenchmark.SemRelease

variable {s s' : State} {phases : List Phase} {g : ℕ} {m : MainPoint} {k : KeeperPoint}

/-! ## The handshake -/

/-- `main` waits at the barrier and the keeper has returned. -/
def Abandoned (s : State) : Prop :=
  s.keeper = .returned ∧ ∃ phase i rest, s.main = .within .last phase i rest ∨
    s.main = .within (.lastWait s.barr.generation) phase i rest

/-- Neither party can go on. -/
def Stuck (s : State) : Prop := ∀ who, step s who = none

def KeeperPoint.tests : KeeperPoint → Bool
  | .test _ => true
  | _ => false

/-- The keeper may test `*status` at the head of its loop only while it is not -1. -/
def Tested (s : State) (who : Party) : Prop :=
  who = .keeper → s.keeper.tests = true → s.status ≠ -1

instance (s : State) (who : Party) : Decidable (Tested s who) :=
  inferInstanceAs (Decidable (who = .keeper → s.keeper.tests = true → s.status ≠ -1))

/-- `main` outside of the life of a keeper. -/
def MainPoint.Apart : MainPoint → Prop
  | .exited => True
  | .within .setStatus phase _ _ => phase.statusFirst = true
  | .within .create _ _ _ => True
  | _ => False

def KeeperPoint.Apart : KeeperPoint → Prop
  | .absent | .returned => True
  | _ => False

/-- Behind the second barrier of an iteration and before the first one of the next, or before the
last one. -/
def MainPoint.Before (g : ℕ) : MainPoint → Prop
  | .within .setStatus phase _ _ => phase.statusFirst = false
  | .within (.secondWait h) _ _ _ => h + 1 = g
  | .within .acquire _ _ _ | .within .release _ _ _ | .within .loop _ _ _ | .within .first _ _ _
  | .within .setEnd _ _ _ | .within .last _ _ _ => True
  | _ => False

def KeeperPoint.Before (g : ℕ) : KeeperPoint → Prop
  | .secondWait _ h => h + 1 = g
  | .release _ | .test _ | .first _ => True
  | _ => False

/-- Between the barriers of an iteration. -/
def MainPoint.Inner (g : ℕ) : MainPoint → Prop
  | .within (.firstWait h) _ _ _ => h + 1 = g
  | .within .second _ _ _ => True
  | _ => False

def KeeperPoint.Inner (g : ℕ) : KeeperPoint → Prop
  | .firstWait _ h => h + 1 = g
  | .recheck _ | .acquire _ | .second _ => True
  | _ => False

/-- Behind the last barrier. -/
def MainPoint.Ending (g : ℕ) : MainPoint → Prop
  | .within (.lastWait h) _ _ _ => h + 1 = g
  | .within .join _ _ _ => True
  | _ => False

def KeeperPoint.Ending (g : ℕ) : KeeperPoint → Prop
  | .firstWait _ h => h + 1 = g
  | .recheck _ | .returned => True
  | _ => False

/-- Where the two parties are in relation to each other and to the barrier. -/
inductive Joint (barr : Barrier) (m : MainPoint) (k : KeeperPoint) : Prop where
  | apart (main : m.Apart) (keeper : k.Apart) (none : barr.arrived = 0)
  | before (main : m.Before barr.generation) (keeper : k.Before barr.generation)
      (none : barr.arrived = 0)
  | mainFirst {stage phase i rest} (main : m = .within stage phase i rest)
      (waits : stage = .firstWait barr.generation ∨ stage = .lastWait barr.generation)
      (keeper : k.Before barr.generation) (one : barr.arrived = 1)
  | keeperFirst {kind} (main : m.Before barr.generation)
      (keeper : k = .firstWait kind barr.generation) (one : barr.arrived = 1)
  | inner (main : m.Inner barr.generation) (keeper : k.Inner barr.generation)
      (none : barr.arrived = 0)
  | mainSecond {phase i rest} (main : m = .within (.secondWait barr.generation) phase i rest)
      (keeper : k.Inner barr.generation) (one : barr.arrived = 1)
  | keeperSecond {kind} (main : m.Inner barr.generation)
      (keeper : k = .secondWait kind barr.generation) (one : barr.arrived = 1)
  | ending (main : m.Ending barr.generation) (keeper : k.Ending barr.generation)
      (none : barr.arrived = 0)

/-- What `main` has made of `*status`. -/
def MainPoint.Announces (status : ℤ) : MainPoint → Prop
  | .within .setStatus _ _ _ | .exited => True
  | .within .create phase _ _ => phase.statusFirst = true → status ≠ -1
  | .within .last _ _ _ | .within (.lastWait _) _ _ _ | .within .join _ _ _ => status = -1
  | .within .loop _ _ _ | .within .first _ _ _ | .within (.firstWait _) _ _ _
  | .within .second _ _ _ | .within (.secondWait _) _ _ _ | .within .acquire _ _ _
  | .within .release _ _ _ | .within .setEnd _ _ _ => status ≠ -1

def MainPoint.holds (kind : Kind) : MainPoint → Bool
  | .within .release phase _ _ => phase.kind = kind
  | _ => false

def KeeperPoint.holds (kind : Kind) : KeeperPoint → Bool
  | .second kind' | .secondWait kind' _ | .release kind' => kind' = kind
  | _ => false

@[simp] theorem MainPoint.holds_release (kind : Kind) (phase : Phase) (i : ℕ) (rest : List Phase) :
    (MainPoint.within .release phase i rest).holds kind = decide (phase.kind = kind) := rfl

@[simp] theorem KeeperPoint.holds_second (kind kind' : Kind) :
    (KeeperPoint.second kind).holds kind' = decide (kind = kind') := rfl

@[simp] theorem KeeperPoint.holds_release (kind kind' : Kind) :
    (KeeperPoint.release kind).holds kind' = decide (kind = kind') := rfl

/-- The semaphore and the mutex are held by the party that has them. -/
structure Resources (s : State) : Prop where
  sem : s.sem + (s.main.holds .semaphore).toNat + (s.keeper.holds .semaphore).toNat = 1
  main : s.mutex = some .main ↔ s.main.holds .mutex = true
  keeper : s.mutex = some .keeper ↔ s.keeper.holds .mutex = true

structure Sound (s : State) : Prop where
  joint : Joint s.barr s.main s.keeper
  announces : s.main.Announces s.status
  resources : Resources s

/-! ## The barrier -/

section Barrier

variable {barr : Barrier}

theorem arrive_first (h : barr.arrived = 0) : barr.arrive 2 = ⟨1, barr.generation⟩ := by
  simp [Barrier.arrive, h]

theorem arrive_second (h : barr.arrived = 1) : barr.arrive 2 = ⟨0, barr.generation + 1⟩ := by
  simp [Barrier.arrive, h]

theorem Joint.of_main_before (h : Joint barr m k) (hm : m.Before barr.generation) :
    (k.Before barr.generation ∧ barr.arrived = 0) ∨
      ∃ kind, k = .firstWait kind barr.generation ∧ barr.arrived = 1 := by
  cases h with
  | before main keeper none => exact .inl ⟨keeper, none⟩
  | keeperFirst main keeper one => exact .inr ⟨_, keeper, one⟩
  | mainFirst main waits keeper one =>
      subst main
      rcases waits with rfl | rfl <;> exact hm.elim
  | mainSecond main keeper one =>
      subst main
      exact absurd hm (Nat.succ_ne_self _)
  | apart main | inner main | keeperSecond main | ending main =>
      unfold MainPoint.Before at hm
      split at hm <;> simp_all [MainPoint.Apart, MainPoint.Inner, MainPoint.Ending]

theorem Joint.of_main_inner (h : Joint barr m k) (hm : m.Inner barr.generation) :
    (k.Inner barr.generation ∧ barr.arrived = 0) ∨
      ∃ kind, k = .secondWait kind barr.generation ∧ barr.arrived = 1 := by
  cases h with
  | inner main keeper none => exact .inl ⟨keeper, none⟩
  | keeperSecond main keeper one => exact .inr ⟨_, keeper, one⟩
  | mainFirst main waits keeper one =>
      subst main
      rcases waits with rfl | rfl
      · exact absurd hm (Nat.succ_ne_self _)
      · exact hm.elim
  | mainSecond main keeper one =>
      subst main
      exact hm.elim
  | apart main | before main | keeperFirst main | ending main =>
      unfold MainPoint.Inner at hm
      split at hm <;> simp_all [MainPoint.Apart, MainPoint.Before, MainPoint.Ending]

theorem Joint.of_main_ending (h : Joint barr m k) (hm : m.Ending barr.generation) :
    k.Ending barr.generation ∧ barr.arrived = 0 := by
  cases h with
  | ending main keeper none => exact ⟨keeper, none⟩
  | mainFirst main waits keeper one =>
      subst main
      rcases waits with rfl | rfl
      · exact hm.elim
      · exact absurd hm (Nat.succ_ne_self _)
  | mainSecond main keeper one =>
      subst main
      exact hm.elim
  | apart main | before main | keeperFirst main | inner main | keeperSecond main =>
      unfold MainPoint.Ending at hm
      split at hm <;> simp_all [MainPoint.Apart, MainPoint.Before, MainPoint.Inner]

theorem Joint.of_main_apart (h : Joint barr m k) (hm : m.Apart) :
    k.Apart ∧ barr.arrived = 0 := by
  cases h with
  | apart main keeper none => exact ⟨keeper, none⟩
  | mainFirst main waits keeper one =>
      subst main
      rcases waits with rfl | rfl <;> exact hm.elim
  | mainSecond main keeper one =>
      subst main
      exact hm.elim
  | before main | keeperFirst main | inner main | keeperSecond main | ending main =>
      unfold MainPoint.Apart at hm
      split at hm <;> simp_all [MainPoint.Ending, MainPoint.Before, MainPoint.Inner]

/-! A party that has been released has waited in the generation before. -/

theorem Joint.of_firstWait {phase : Phase} {i : ℕ} {rest : List Phase}
    (h : Joint barr (.within (.firstWait g) phase i rest) k) (hne : barr.generation ≠ g) :
    g + 1 = barr.generation := by
  cases h with
  | apart main | before main | keeperFirst main | ending main => exact main.elim
  | inner main | keeperSecond main => exact main
  | mainFirst main waits keeper one =>
      cases main
      rcases waits with heq | heq <;> cases heq
      exact absurd rfl hne
  | mainSecond main => cases main

theorem Joint.of_secondWait {phase : Phase} {i : ℕ} {rest : List Phase}
    (h : Joint barr (.within (.secondWait g) phase i rest) k) (hne : barr.generation ≠ g) :
    g + 1 = barr.generation := by
  cases h with
  | apart main | inner main | keeperSecond main | ending main => exact main.elim
  | before main | keeperFirst main => exact main
  | mainFirst main waits keeper one =>
      cases main
      rcases waits with heq | heq <;> cases heq
  | mainSecond main =>
      cases main
      exact absurd rfl hne

theorem Joint.of_lastWait {phase : Phase} {i : ℕ} {rest : List Phase}
    (h : Joint barr (.within (.lastWait g) phase i rest) k) (hne : barr.generation ≠ g) :
    g + 1 = barr.generation := by
  cases h with
  | apart main | before main | keeperFirst main | inner main | keeperSecond main => exact main.elim
  | ending main => exact main
  | mainFirst main waits keeper one =>
      cases main
      rcases waits with heq | heq <;> cases heq
      exact absurd rfl hne
  | mainSecond main => cases main

theorem Joint.of_keeper_firstWait {kind : Kind} (h : Joint barr m (.firstWait kind g))
    (hne : barr.generation ≠ g) : g + 1 = barr.generation := by
  cases h with
  | apart _ keeper | before _ keeper | mainFirst _ _ keeper => exact keeper.elim
  | inner _ keeper | mainSecond _ keeper | ending _ keeper => exact keeper
  | keeperFirst main keeper one =>
      cases keeper
      exact absurd rfl hne
  | keeperSecond main keeper one => cases keeper

theorem Joint.of_keeper_secondWait {kind : Kind} (h : Joint barr m (.secondWait kind g))
    (hne : barr.generation ≠ g) : g + 1 = barr.generation := by
  cases h with
  | apart _ keeper | inner _ keeper | mainSecond _ keeper | ending _ keeper => exact keeper.elim
  | before _ keeper | mainFirst _ _ keeper => exact keeper
  | keeperFirst main keeper one => cases keeper
  | keeperSecond main keeper one =>
      cases keeper
      exact absurd rfl hne

theorem Joint.of_keeper_before (h : Joint barr m k) (hk : k.Before barr.generation) :
    (m.Before barr.generation ∧ barr.arrived = 0) ∨
      ∃ stage phase i rest, m = .within stage phase i rest ∧
        (stage = .firstWait barr.generation ∨ stage = .lastWait barr.generation) ∧
        barr.arrived = 1 := by
  cases h with
  | before main keeper none => exact .inl ⟨main, none⟩
  | mainFirst main waits keeper one => exact .inr ⟨_, _, _, _, main, waits, one⟩
  | keeperFirst main keeper one =>
      subst keeper
      exact hk.elim
  | keeperSecond main keeper one =>
      subst keeper
      exact absurd hk (Nat.succ_ne_self _)
  | apart _ keeper | inner _ keeper | mainSecond _ keeper | ending _ keeper =>
      cases k <;> first | exact hk.elim | exact keeper.elim

theorem Joint.of_keeper_inner (h : Joint barr m k) (hk : k.Inner barr.generation) :
    (m.Inner barr.generation ∧ barr.arrived = 0) ∨
      (∃ phase i rest, m = .within (.secondWait barr.generation) phase i rest ∧
        barr.arrived = 1) ∨
      (m.Ending barr.generation ∧ k.Ending barr.generation ∧ barr.arrived = 0) := by
  cases h with
  | inner main keeper none => exact .inl ⟨main, none⟩
  | mainSecond main keeper one => exact .inr (.inl ⟨_, _, _, main, one⟩)
  | ending main keeper none => exact .inr (.inr ⟨main, keeper, none⟩)
  | keeperFirst main keeper one =>
      subst keeper
      exact absurd hk (Nat.succ_ne_self _)
  | keeperSecond main keeper one =>
      subst keeper
      exact hk.elim
  | apart _ keeper | before _ keeper | mainFirst _ _ keeper =>
      cases k <;> first | exact hk.elim | exact keeper.elim

end Barrier

/-! ## The semaphore and the mutex -/

theorem Resources.congr (h : Resources s) (hsem : s'.sem = s.sem) (hmutex : s'.mutex = s.mutex)
    (hmain : ∀ kind, s'.main.holds kind = s.main.holds kind)
    (hkeeper : ∀ kind, s'.keeper.holds kind = s.keeper.holds kind) : Resources s' := by
  refine ⟨?_, ?_, ?_⟩
  · rw [hsem, hmain, hkeeper]
    exact h.sem
  · rw [hmutex, hmain]
    exact h.main
  · rw [hmutex, hkeeper]
    exact h.keeper

theorem acquire_cases {who : Party} {kind : Kind} (h : s.acquire who kind = some s') :
    (kind = .semaphore ∧ 0 < s.sem ∧ s' = { s with sem := s.sem - 1 }) ∨
      (kind = .mutex ∧ s.mutex = none ∧ s' = { s with mutex := some who }) := by
  cases kind with
  | semaphore =>
      simp only [State.acquire, Option.ite_none_right_eq_some, Option.some.injEq] at h
      exact .inl ⟨rfl, h.1, h.2.symm⟩
  | mutex =>
      simp only [State.acquire, Option.ite_none_right_eq_some, Option.some.injEq] at h
      exact .inr ⟨rfl, h.1, h.2.symm⟩

/-- What neither party holds is there to be acquired. -/
theorem Resources.acquire_ne_none (h : Resources s) {who : Party} {kind : Kind}
    (hmain : s.main.holds kind = false) (hkeeper : s.keeper.holds kind = false) :
    s.acquire who kind ≠ none := by
  cases kind with
  | semaphore =>
      have hsem := h.sem
      rw [hmain, hkeeper] at hsem
      have hpos : 0 < s.sem := by
        simp only [Bool.toNat_false] at hsem
        omega
      simp [State.acquire, hpos]
  | mutex =>
      have hfree : s.mutex = none := by
        cases hm : s.mutex with
        | none => rfl
        | some who =>
            cases who with
            | main => rw [h.main.mp hm] at hmain; cases hmain
            | keeper => rw [h.keeper.mp hm] at hkeeper; cases hkeeper
      simp [State.acquire, hfree]

theorem Resources.acquire_main (h : Resources s) {phase : Phase} {i : ℕ} {rest : List Phase}
    (hs : s.acquire .main phase.kind = some s')
    (hmain : ∀ kind, s.main.holds kind = false) :
    Resources { s' with main := .within .release phase i rest } := by
  have hsem := h.sem
  have hfree := hmain .mutex
  rcases acquire_cases hs with ⟨hkind, hpos, rfl⟩ | ⟨hkind, hnone, rfl⟩
  · refine ⟨?_, ?_, h.keeper⟩
    · simp only [hmain, MainPoint.holds_release, hkind, decide_true, Bool.toNat_true,
        Bool.toNat_false] at hsem ⊢
      omega
    · simp [hkind, h.main, hfree]
  · have hkeeper : s.keeper.holds .mutex = false := by
      rw [← Bool.not_eq_true, ← h.keeper, hnone]
      simp
    refine ⟨?_, by simp [hkind], by simp [hkeeper]⟩
    simpa only [hmain, MainPoint.holds_release, hkind, reduceCtorEq, decide_false] using hsem

theorem Resources.acquire_keeper (h : Resources s) {kind : Kind}
    (hs : s.acquire .keeper kind = some s') (hkeeper : ∀ kind, s.keeper.holds kind = false) :
    Resources { s' with keeper := .second kind } := by
  have hsem := h.sem
  have hfree := hkeeper .mutex
  rcases acquire_cases hs with ⟨hkind, hpos, rfl⟩ | ⟨hkind, hnone, rfl⟩
  · refine ⟨?_, h.main, ?_⟩
    · simp only [hkeeper, KeeperPoint.holds_second, hkind, decide_true, Bool.toNat_true,
        Bool.toNat_false] at hsem ⊢
      omega
    · simp [hkind, h.keeper, hfree]
  · have hmain : s.main.holds .mutex = false := by
      rw [← Bool.not_eq_true, ← h.main, hnone]
      simp
    refine ⟨?_, by simp [hmain], by simp [hkind]⟩
    simpa only [hkeeper, KeeperPoint.holds_second, hkind, reduceCtorEq, decide_false] using hsem

theorem Resources.release_main (h : Resources s) {phase : Phase} {i : ℕ} {rest : List Phase}
    (hm : s.main = .within .release phase i rest) (hq : ∀ kind, m.holds kind = false) :
    Resources { s.release phase.kind with main := m } := by
  have hsem := h.sem
  have hmain := h.main
  have hkeeper := h.keeper
  rw [hm] at hsem hmain
  cases hkind : phase.kind with
  | semaphore =>
      simp only [MainPoint.holds_release, hkind, decide_true, Bool.toNat_true, reduceCtorEq,
        decide_false, Bool.false_eq_true, iff_false] at hsem hmain
      refine ⟨?_, by simp [State.release, hq, hmain], hkeeper⟩
      simp only [State.release, hq, Bool.toNat_false]
      omega
  | mutex =>
      simp only [MainPoint.holds_release, hkind, decide_true, iff_true, reduceCtorEq, decide_false,
        Bool.toNat_false] at hsem hmain
      refine ⟨?_, by simp [State.release, hq], ?_⟩
      · simp only [State.release, hq, Bool.toNat_false]
        exact hsem
      · rw [hmain] at hkeeper
        simpa [State.release] using hkeeper

theorem Resources.release_keeper (h : Resources s) {kind : Kind} (hk : s.keeper = .release kind)
    (hq : ∀ kind, k.holds kind = false) : Resources { s.release kind with keeper := k } := by
  have hsem := h.sem
  have hmain := h.main
  have hkeeper := h.keeper
  rw [hk] at hsem hkeeper
  cases kind with
  | semaphore =>
      simp only [KeeperPoint.holds_release, decide_true, Bool.toNat_true, reduceCtorEq,
        decide_false, Bool.false_eq_true, iff_false] at hsem hkeeper
      refine ⟨?_, hmain, by simp [State.release, hq, hkeeper]⟩
      simp only [State.release, hq, Bool.toNat_false]
      omega
  | mutex =>
      simp only [KeeperPoint.holds_release, decide_true, iff_true, reduceCtorEq, decide_false,
        Bool.toNat_false] at hsem hkeeper
      refine ⟨?_, ?_, by simp [State.release, hq]⟩
      · simp only [State.release, hq, Bool.toNat_false]
        exact hsem
      · rw [hkeeper] at hmain
        simpa [State.release] using hmain

/-- Acquiring and releasing touch nothing else. -/
theorem acquire_frame {who : Party} {kind : Kind} (h : s.acquire who kind = some s') :
    s'.status = s.status ∧ s'.barr = s.barr ∧ s'.main = s.main ∧ s'.keeper = s.keeper := by
  rcases acquire_cases h with ⟨-, -, rfl⟩ | ⟨-, -, rfl⟩ <;> exact ⟨rfl, rfl, rfl, rfl⟩

theorem release_frame (s : State) (kind : Kind) :
    (s.release kind).status = s.status ∧ (s.release kind).barr = s.barr ∧
      (s.release kind).main = s.main ∧ (s.release kind).keeper = s.keeper := by
  cases kind <;> exact ⟨rfl, rfl, rfl, rfl⟩

/-! ## Steps -/

theorem apart_enter (phases : List Phase) : (enter phases).Apart := by
  cases phases with
  | nil => trivial
  | cons phase rest => cases hfirst : phase.statusFirst <;> simp [enter, hfirst, MainPoint.Apart]

theorem announces_enter (phases : List Phase) (status : ℤ) :
    (enter phases).Announces status := by
  cases phases with
  | nil => trivial
  | cons phase rest =>
      cases hfirst : phase.statusFirst <;> simp [enter, hfirst, MainPoint.Announces]

theorem holds_enter (kind : Kind) (phases : List Phase) :
    (enter phases).holds kind = false := by
  cases phases with
  | nil => rfl
  | cons phase rest => cases hfirst : phase.statusFirst <;> simp [enter, hfirst, MainPoint.holds]

theorem Sound.step_main (h : Sound s) (hs : stepMain s = some s') : Sound s' := by
  obtain ⟨hjoint, hannounces, hres⟩ := h
  cases hm : s.main with
  | exited => simp [stepMain, hm] at hs
  | within stage phase i rest =>
      rw [hm] at hjoint hannounces
      have hmain := fun kind => congrArg (MainPoint.holds kind) hm
      -- a step to a point before the first barrier
      have hbefore : ∀ {q : MainPoint}, (MainPoint.within stage phase i rest).Before
          s.barr.generation → q.Before s.barr.generation → Joint s.barr q s.keeper := by
        intro q hp hq
        rcases hjoint.of_main_before hp with ⟨hk, hnone⟩ | ⟨kind, hk, hone⟩
        · exact .before hq hk hnone
        · exact .keeperFirst hq hk hone
      cases stage with
      | setStatus =>
          simp only [stepMain, hm, Option.some.injEq] at hs
          subst hs
          refine ⟨?_, ?_, hres.congr rfl rfl (fun kind => ?_) fun _ => rfl⟩
          · cases hfirst : phase.statusFirst with
            | true =>
                obtain ⟨hk, hnone⟩ := hjoint.of_main_apart hfirst
                exact .apart (by simp [MainPoint.Apart]) hk hnone
            | false => exact hbefore hfirst (by simp [MainPoint.Before])
          · split
            · exact fun _ => (by decide : (1 : ℤ) ≠ -1)
            · exact (by decide : (1 : ℤ) ≠ -1)
          · rw [hmain]
            split <;> rfl
      | create =>
          simp only [stepMain, hm, Option.some.injEq] at hs
          subst hs
          obtain ⟨hk, hnone⟩ := hjoint.of_main_apart trivial
          refine ⟨.before ?_ trivial hnone, ?_, hres.congr rfl rfl (fun kind => ?_) fun kind => ?_⟩
          · cases hfirst : phase.statusFirst <;> simp [MainPoint.Before, hfirst]
          · cases hfirst : phase.statusFirst with
            | true => exact hannounces hfirst
            | false => exact trivial
          · rw [hmain]
            split <;> rfl
          · cases hkeeper : s.keeper <;> rw [hkeeper] at hk <;> first | exact hk.elim | rfl
      | loop =>
          cases i with
          | zero =>
              simp only [stepMain, hm, Option.some.injEq] at hs
              subst hs
              exact ⟨hbefore trivial trivial, hannounces,
                hres.congr rfl rfl (fun kind => (hmain kind).symm) fun _ => rfl⟩
          | succ i =>
              simp only [stepMain, hm, Option.some.injEq] at hs
              subst hs
              exact ⟨hbefore trivial trivial, hannounces,
                hres.congr rfl rfl (fun kind => (hmain kind).symm) fun _ => rfl⟩
      | first =>
          simp only [stepMain, hm, Option.some.injEq] at hs
          subst hs
          refine ⟨?_, hannounces, hres.congr rfl rfl (fun kind => (hmain kind).symm) fun _ => rfl⟩
          rcases hjoint.of_main_before trivial with ⟨hk, hnone⟩ | ⟨kind, hk, hone⟩
          · rw [arrive_first hnone]
            exact .mainFirst rfl (.inl rfl) hk rfl
          · rw [arrive_second hone]
            simp only [hk]
            exact .inner rfl rfl rfl
      | firstWait generation =>
          simp only [stepMain, hm, Option.ite_none_left_eq_some, Option.some.injEq] at hs
          obtain ⟨hpassed, rfl⟩ := hs
          refine ⟨?_, hannounces, hres.congr rfl rfl (fun kind => (hmain kind).symm) fun _ => rfl⟩
          rcases hjoint.of_main_inner (hjoint.of_firstWait hpassed) with
            ⟨hk, hnone⟩ | ⟨kind, hk, hone⟩
          · exact .inner trivial hk hnone
          · exact .keeperSecond trivial hk hone
      | second =>
          simp only [stepMain, hm, Option.some.injEq] at hs
          subst hs
          refine ⟨?_, hannounces, hres.congr rfl rfl (fun kind => (hmain kind).symm) fun _ => rfl⟩
          rcases hjoint.of_main_inner trivial with ⟨hk, hnone⟩ | ⟨kind, hk, hone⟩
          · rw [arrive_first hnone]
            exact .mainSecond rfl hk rfl
          · rw [arrive_second hone]
            simp only [hk]
            exact .before rfl rfl rfl
      | secondWait generation =>
          simp only [stepMain, hm, Option.ite_none_left_eq_some, Option.some.injEq] at hs
          obtain ⟨hpassed, rfl⟩ := hs
          exact ⟨hbefore (hjoint.of_secondWait hpassed) trivial, hannounces,
            hres.congr rfl rfl (fun kind => (hmain kind).symm) fun _ => rfl⟩
      | acquire =>
          simp only [stepMain, hm, Option.map_eq_some_iff] at hs
          obtain ⟨s₁, hs₁, rfl⟩ := hs
          obtain ⟨hstatus, hbarr, -, hkeeper⟩ := acquire_frame hs₁
          refine ⟨?_, ?_, hres.acquire_main hs₁ fun kind => (hmain kind).trans rfl⟩
          · simp only [hbarr, hkeeper]
            exact hbefore trivial trivial
          · simp only [hstatus]
            exact hannounces
      | release =>
          simp only [stepMain, hm, Option.some.injEq] at hs
          subst hs
          obtain ⟨hstatus, hbarr, -, hkeeper⟩ := release_frame s phase.kind
          refine ⟨?_, ?_, hres.release_main hm fun _ => rfl⟩
          · simp only [hbarr, hkeeper]
            exact hbefore trivial trivial
          · simp only [hstatus]
            exact hannounces
      | setEnd =>
          simp only [stepMain, hm, Option.some.injEq] at hs
          subst hs
          exact ⟨hbefore trivial trivial, rfl,
            hres.congr rfl rfl (fun kind => (hmain kind).symm) fun _ => rfl⟩
      | last =>
          simp only [stepMain, hm, Option.some.injEq] at hs
          subst hs
          refine ⟨?_, hannounces, hres.congr rfl rfl (fun kind => (hmain kind).symm) fun _ => rfl⟩
          rcases hjoint.of_main_before trivial with ⟨hk, hnone⟩ | ⟨kind, hk, hone⟩
          · rw [arrive_first hnone]
            exact .mainFirst rfl (.inr rfl) hk rfl
          · rw [arrive_second hone]
            simp only [hk]
            exact .ending rfl rfl rfl
      | lastWait generation =>
          simp only [stepMain, hm, Option.ite_none_left_eq_some, Option.some.injEq] at hs
          obtain ⟨hpassed, rfl⟩ := hs
          obtain ⟨hk, hnone⟩ := hjoint.of_main_ending (hjoint.of_lastWait hpassed)
          exact ⟨.ending trivial hk hnone, hannounces,
            hres.congr rfl rfl (fun kind => (hmain kind).symm) fun _ => rfl⟩
      | join =>
          simp only [stepMain, hm, Option.ite_none_right_eq_some, Option.some.injEq] at hs
          obtain ⟨hreturned, rfl⟩ := hs
          obtain ⟨-, hnone⟩ := hjoint.of_main_ending trivial
          refine ⟨.apart (apart_enter rest) (by rw [hreturned]; trivial) hnone,
            announces_enter rest _, hres.congr rfl rfl (fun kind => ?_) fun _ => rfl⟩
          rw [hmain]
          exact holds_enter kind rest

theorem status_of_inner {status : ℤ} (hm : m.Inner g) (h : m.Announces status) :
    status ≠ -1 := by
  unfold MainPoint.Inner at hm
  split at hm
  · exact h
  · exact h
  · exact hm.elim

theorem status_of_ending {status : ℤ} (hm : m.Ending g) (h : m.Announces status) :
    status = -1 := by
  unfold MainPoint.Ending at hm
  split at hm
  · exact h
  · exact h
  · exact hm.elim

theorem Sound.step_keeper (h : Sound s) (hgood : Tested s .keeper) (hs : stepKeeper s = some s') :
    Sound s' := by
  obtain ⟨hjoint, hannounces, hres⟩ := h
  have hholds := fun kind p (hk : s.keeper = p) => congrArg (KeeperPoint.holds kind) hk
  -- a step to a point before the first barrier, and one between the barriers
  have hbefore : ∀ {q : KeeperPoint}, s.keeper.Before s.barr.generation →
      q.Before s.barr.generation → Joint s.barr s.main q := by
    intro q hp hq
    rcases hjoint.of_keeper_before hp with ⟨hm, hnone⟩ | ⟨stage, phase, i, rest, hm, hwaits, hone⟩
    · exact .before hm hq hnone
    · exact .mainFirst hm hwaits hq hone
  cases hk : s.keeper <;> simp only [stepKeeper, hk, reduceCtorEq] at hs
  case test kind =>
    have hstatus := hgood rfl (by rw [hk]; rfl)
    rw [if_neg hstatus, Option.some.injEq] at hs
    subst hs
    exact ⟨hbefore (by rw [hk]; trivial) trivial, hannounces,
      hres.congr rfl rfl (fun _ => rfl) fun kind' => (hholds kind' _ hk).symm⟩
  case first kind =>
    rw [Option.some.injEq] at hs
    subst hs
    refine ⟨?_, hannounces, hres.congr rfl rfl (fun _ => rfl) fun kind' => (hholds kind' _ hk).symm⟩
    rcases hjoint.of_keeper_before (by rw [hk]; trivial) with
      ⟨hm, hnone⟩ | ⟨stage, phase, i, rest, hm, hwaits, hone⟩
    · rw [arrive_first hnone]
      exact .keeperFirst hm rfl rfl
    · rw [arrive_second hone]
      rcases hwaits with rfl | rfl <;> simp only [hm]
      · exact .inner rfl rfl rfl
      · exact .ending rfl rfl rfl
  case firstWait kind generation =>
    simp only [Option.ite_none_left_eq_some, Option.some.injEq] at hs
    obtain ⟨hpassed, rfl⟩ := hs
    refine ⟨?_, hannounces, hres.congr rfl rfl (fun _ => rfl) fun kind' => (hholds kind' _ hk).symm⟩
    rw [hk] at hjoint
    rcases hjoint.of_keeper_inner (hjoint.of_keeper_firstWait hpassed) with
      ⟨hm, hnone⟩ | ⟨phase, i, rest, hm, hone⟩ | ⟨hm, -, hnone⟩
    · exact .inner hm trivial hnone
    · exact .mainSecond hm trivial hone
    · exact .ending hm trivial hnone
  case recheck kind =>
    rw [Option.some.injEq] at hs
    subst hs
    rw [hk] at hjoint
    refine ⟨?_, hannounces, hres.congr rfl rfl (fun _ => rfl) fun kind' => ?_⟩
    · rcases hjoint.of_keeper_inner trivial with
        ⟨hm, hnone⟩ | ⟨phase, i, rest, hm, hone⟩ | ⟨hm, -, hnone⟩
      · rw [if_neg (status_of_inner hm hannounces)]
        exact .inner hm trivial hnone
      · have hstatus : s.status ≠ -1 := by
          rw [hm] at hannounces
          exact hannounces
        rw [if_neg hstatus]
        exact .mainSecond hm trivial hone
      · rw [if_pos (status_of_ending hm hannounces)]
        exact .ending hm trivial hnone
    · rw [hholds kind' _ hk]
      split <;> rfl
  case acquire kind =>
    rw [Option.map_eq_some_iff] at hs
    obtain ⟨s₁, hs₁, rfl⟩ := hs
    obtain ⟨hstatus, hbarr, hmain, -⟩ := acquire_frame hs₁
    refine ⟨?_, ?_, hres.acquire_keeper hs₁ fun kind' => (hholds kind' _ hk).trans rfl⟩
    · simp only [hbarr, hmain]
      rw [hk] at hjoint
      rcases hjoint.of_keeper_inner trivial with
        ⟨hm, hnone⟩ | ⟨phase, i, rest, hm, hone⟩ | ⟨-, hk', -⟩
      · exact .inner hm trivial hnone
      · exact .mainSecond hm trivial hone
      · exact hk'.elim
    · simp only [hmain, hstatus]
      exact hannounces
  case second kind =>
    rw [Option.some.injEq] at hs
    subst hs
    refine ⟨?_, hannounces, hres.congr rfl rfl (fun _ => rfl) fun kind' => (hholds kind' _ hk).symm⟩
    rw [hk] at hjoint
    rcases hjoint.of_keeper_inner trivial with
      ⟨hm, hnone⟩ | ⟨phase, i, rest, hm, hone⟩ | ⟨-, hk', -⟩
    · rw [arrive_first hnone]
      exact .keeperSecond hm rfl rfl
    · rw [arrive_second hone]
      simp only [hm]
      exact .before rfl rfl rfl
    · exact hk'.elim
  case secondWait kind generation =>
    simp only [Option.ite_none_left_eq_some, Option.some.injEq] at hs
    obtain ⟨hpassed, rfl⟩ := hs
    have hwaited : s.keeper.Before s.barr.generation := by
      rw [hk] at hjoint ⊢
      exact hjoint.of_keeper_secondWait hpassed
    exact ⟨hbefore hwaited trivial, hannounces,
      hres.congr rfl rfl (fun _ => rfl) fun kind' => (hholds kind' _ hk).symm⟩
  case release kind =>
    rw [Option.some.injEq] at hs
    subst hs
    obtain ⟨hstatus, hbarr, hmain, -⟩ := release_frame s kind
    refine ⟨?_, ?_, hres.release_keeper hk fun _ => rfl⟩
    · simp only [hbarr, hmain]
      exact hbefore (by rw [hk]; trivial) trivial
    · simp only [hmain, hstatus]
      exact hannounces

theorem sound_init (phases : List Phase) : Sound (program phases).init where
  joint := .apart (apart_enter phases) trivial rfl
  announces := announces_enter phases 0
  resources := by
    have hmain : ∀ kind, (program phases).init.main.holds kind = false :=
      fun kind => holds_enter kind phases
    refine ⟨?_, ?_, ?_⟩
    · rw [hmain]
      rfl
    · rw [hmain]
      exact iff_of_false (by simp [program]) (by simp)
    · exact iff_of_false (by simp [program]) (by simp [program, KeeperPoint.holds])

theorem sound_of_tested (h : (program phases).ReachableBy Tested s) : Sound s := by
  refine h.invariant (sound_init phases) fun s who s' _ hsound hgood hs => ?_
  cases who with
  | main => exact hsound.step_main hs
  | keeper => exact hsound.step_keeper hgood hs

/-! ## Nobody is left behind -/

theorem Sound.not_abandoned (h : Sound s) : ¬ Abandoned s := by
  rintro ⟨hk, phase, i, rest, hm | hm⟩
  · have hjoint := h.joint
    rw [hk, hm] at hjoint
    rcases hjoint.of_main_before trivial with ⟨hk', -⟩ | ⟨kind, hk', -⟩
    · exact hk'
    · cases hk'
  · have hjoint := h.joint
    rw [hk, hm] at hjoint
    cases hjoint with
    | apart main | before main | keeperFirst main | inner main | keeperSecond main => exact main
    | mainFirst main waits keeper => exact keeper
    | mainSecond main => cases main
    | ending main => exact Nat.succ_ne_self _ main

theorem stepKeeper_ne_none_of_before (hk : s.keeper.Before s.barr.generation) :
    stepKeeper s ≠ none := by
  cases hkeeper : s.keeper <;> rw [hkeeper] at hk <;> try exact hk.elim
  case secondWait kind h =>
    have hpassed : s.barr.generation ≠ h := by
      have hwaited : h + 1 = s.barr.generation := hk
      omega
    simp [stepKeeper, hkeeper, hpassed]
  all_goals simp [stepKeeper, hkeeper]

theorem stepMain_ne_none_of_inner (hm : s.main.Inner s.barr.generation) : stepMain s ≠ none := by
  unfold MainPoint.Inner at hm
  split at hm
  · next h phase i rest hmain =>
      have hpassed : s.barr.generation ≠ h := by omega
      simp [stepMain, hmain, hpassed]
  · next phase i rest hmain => simp [stepMain, hmain]
  · exact hm.elim

/-- Before the first barrier `main` waits for the semaphore or the mutex only. -/
theorem acquire_of_stepMain_eq_none (hm : s.main.Before s.barr.generation)
    (hnone : stepMain s = none) :
    ∃ phase i rest, s.main = .within .acquire phase i rest ∧ s.acquire .main phase.kind = none := by
  unfold MainPoint.Before at hm
  split at hm
  · next phase i rest hmain => simp [stepMain, hmain] at hnone
  · next h phase i rest hmain =>
      have hpassed : s.barr.generation ≠ h := by omega
      simp [stepMain, hmain, hpassed] at hnone
  · next phase i rest hmain =>
      simp only [stepMain, hmain, Option.map_eq_none_iff] at hnone
      exact ⟨phase, i, rest, hmain, hnone⟩
  · next hmain => simp [stepMain, hmain] at hnone
  · next phase i rest hmain => cases i <;> simp [stepMain, hmain] at hnone
  · next hmain => simp [stepMain, hmain] at hnone
  · next hmain => simp [stepMain, hmain] at hnone
  · next hmain => simp [stepMain, hmain] at hnone
  · exact hm.elim

theorem Sound.exited_of_stuck (h : Sound s) (hstuck : Stuck s) : s.main = .exited := by
  have hmain : stepMain s = none := hstuck .main
  have hkeeper : stepKeeper s = none := hstuck .keeper
  cases h.joint with
  | apart main keeper none =>
      cases hm : s.main with
      | exited => rfl
      | within stage phase i rest =>
          rw [hm] at main
          cases stage <;> first | exact main.elim | simp [stepMain, hm] at hmain
  | before main keeper none => exact absurd hkeeper (stepKeeper_ne_none_of_before keeper)
  | mainFirst _ _ keeper => exact absurd hkeeper (stepKeeper_ne_none_of_before keeper)
  | keeperFirst main keeper one =>
      obtain ⟨phase, i, rest, hm, hacquire⟩ := acquire_of_stepMain_eq_none main hmain
      refine absurd hacquire (h.resources.acquire_ne_none ?_ ?_)
      · rw [hm]
        rfl
      · rw [keeper]
        rfl
  | inner main keeper none => exact absurd hmain (stepMain_ne_none_of_inner main)
  | keeperSecond main keeper one => exact absurd hmain (stepMain_ne_none_of_inner main)
  | mainSecond main keeper one =>
      cases hk : s.keeper <;> rw [hk] at keeper <;> try exact keeper.elim
      case firstWait kind g =>
        have hpassed : s.barr.generation ≠ g := by
          have hwaited : g + 1 = s.barr.generation := keeper
          omega
        simp [stepKeeper, hk, hpassed] at hkeeper
      case acquire kind =>
        simp only [stepKeeper, hk, Option.map_eq_none_iff] at hkeeper
        refine absurd hkeeper (h.resources.acquire_ne_none ?_ ?_)
        · rw [main]
          rfl
        · rw [hk]
          rfl
      all_goals simp [stepKeeper, hk] at hkeeper
  | ending main keeper none =>
      unfold MainPoint.Ending at main
      split at main
      · next g phase i rest hm =>
          have hpassed : s.barr.generation ≠ g := by omega
          simp [stepMain, hm, hpassed] at hmain
      · next phase i rest hm =>
          cases hk : s.keeper <;> rw [hk] at keeper <;> try exact keeper.elim
          case firstWait kind g =>
            have hpassed : s.barr.generation ≠ g := by
              have hwaited : g + 1 = s.barr.generation := keeper
              omega
            simp [stepKeeper, hk, hpassed] at hkeeper
          case recheck kind => simp [stepKeeper, hk] at hkeeper
          case returned => simp [stepMain, hm, hk] at hmain
      · exact main.elim

/-! ## A keeper that leaves too early -/

/-- `main` waits at the barrier, and there is no keeper any more. -/
theorem stuck_of_waits {stage : Stage} {phase : Phase} {i : ℕ} {rest : List Phase}
    (hk : s.keeper = .returned) (hm : s.main = .within stage phase i rest)
    (hwaits : stage = .firstWait s.barr.generation ∨ stage = .lastWait s.barr.generation) :
    Stuck s ∧ s.main ≠ .exited := by
  refine ⟨fun who => ?_, by simp [hm]⟩
  cases who with
  | keeper => simp [step, stepKeeper, hk]
  | main => rcases hwaits with rfl | rfl <;> simp [step, stepMain, hm]

theorem exists_stuck_of_last {phase : Phase} {i : ℕ} {rest : List Phase}
    (hk : s.keeper = .returned) (hm : s.main = .within .last phase i rest)
    (hbarr : s.barr.arrived = 0) :
    ∃ ls s', (program phases).exec s ls = some s' ∧ Stuck s' ∧ s'.main ≠ .exited := by
  refine ⟨[.main], { s with
    barr := ⟨1, s.barr.generation⟩
    main := .within (.lastWait s.barr.generation) phase i rest }, ?_,
    stuck_of_waits hk rfl (.inr rfl)⟩
  simp [System.exec_cons, program, step, stepMain, hm, arrive_first hbarr]

/-- Without a keeper, `main` waits at the barrier in its first iteration, or behind its loop. -/
theorem exists_stuck_of_setStatus {phase : Phase} {i : ℕ} {rest : List Phase}
    (hk : s.keeper = .returned) (hm : s.main = .within .setStatus phase i rest)
    (hfirst : phase.statusFirst = false) (hbarr : s.barr.arrived = 0) :
    ∃ ls s', (program phases).exec s ls = some s' ∧ Stuck s' ∧ s'.main ≠ .exited := by
  cases i with
  | zero =>
      refine ⟨List.replicate 4 .main, { s with
        status := -1
        barr := ⟨1, s.barr.generation⟩
        main := .within (.lastWait s.barr.generation) phase 0 rest }, ?_,
        stuck_of_waits hk rfl (.inr rfl)⟩
      simp [List.replicate_succ, System.exec_cons, program, step, stepMain, hm, hfirst,
        arrive_first hbarr]
  | succ i =>
      refine ⟨List.replicate 3 .main, { s with
        status := 1
        barr := ⟨1, s.barr.generation⟩
        main := .within (.firstWait s.barr.generation) phase i rest }, ?_,
        stuck_of_waits hk rfl (.inl rfl)⟩
      simp [List.replicate_succ, System.exec_cons, program, step, stepMain, hm, hfirst,
        arrive_first hbarr]

theorem Sound.exists_stuck_of_not_tested (h : Sound s) {who : Party} (hs : step s who = some s')
    (hbad : ¬ Tested s who) :
    ∃ ls s'', (program phases).exec s' ls = some s'' ∧ Stuck s'' ∧ s''.main ≠ .exited := by
  simp only [Tested, Classical.not_imp, not_not] at hbad
  obtain ⟨rfl, htests, hstatus⟩ := hbad
  obtain ⟨kind, hk⟩ : ∃ kind, s.keeper = .test kind := by
    cases hk : s.keeper <;> rw [hk] at htests <;> first | exact ⟨_, rfl⟩ | cases htests
  simp only [step, stepKeeper, hk, if_pos hstatus, Option.some.injEq] at hs
  subst hs
  have hjoint := h.joint
  have hannounces := h.announces
  rw [hk] at hjoint
  rcases hjoint.of_keeper_before trivial with
    ⟨hm, hnone⟩ | ⟨stage, phase, i, rest, hm, hwaits, hone⟩
  · -- before the barrier `*status` is -1 only behind the loop, or before it has been set
    unfold MainPoint.Before at hm
    split at hm
    · next phase i rest hmain => exact exists_stuck_of_setStatus rfl hmain hm hnone
    · next hmain => rw [hmain] at hannounces; exact absurd hstatus hannounces
    · next hmain => rw [hmain] at hannounces; exact absurd hstatus hannounces
    · next hmain => rw [hmain] at hannounces; exact absurd hstatus hannounces
    · next hmain => rw [hmain] at hannounces; exact absurd hstatus hannounces
    · next hmain => rw [hmain] at hannounces; exact absurd hstatus hannounces
    · next hmain => rw [hmain] at hannounces; exact absurd hstatus hannounces
    · next hmain => exact exists_stuck_of_last rfl hmain hnone
    · exact hm.elim
  · rcases hwaits with rfl | rfl
    · rw [hm] at hannounces
      exact absurd hstatus hannounces
    · exact ⟨[], _, rfl, stuck_of_waits rfl hm (.inr rfl)⟩

/-! ## Results -/

/-- For any number of iterations, with or without a dropped cache, and any interleaving: where the
keepers test `*status` at the head of their loops only while it is not -1, no state is stuck before
`main` has finished, and `main` does not wait for a keeper that has returned; from a test at -1 on,
`main` can be stuck. -/
theorem release_correct (wIterations : ℕ) (wDropCache : Bool) (s : State)
    (h : (semaphoreMutexNotEmpty wIterations wDropCache).ReachableBy Tested s) :
    (Stuck s → s.main = .exited) ∧ ¬ Abandoned s ∧
    ∀ who s', (semaphoreMutexNotEmpty wIterations wDropCache).step s who = some s' →
      ¬ Tested s who → ∃ ls s'', (semaphoreMutexNotEmpty wIterations wDropCache).exec s' ls =
        some s'' ∧ Stuck s'' ∧ s''.main ≠ .exited := by
  have hsound := sound_of_tested h
  exact ⟨hsound.exited_of_stuck, hsound.not_abandoned,
    fun who s' hs hbad => hsound.exists_stuck_of_not_tested hs hbad⟩

/-- A phase of one iteration up to the second barrier. -/
def upToSecond : List Party :=
  List.replicate 4 Party.main ++ List.replicate 6 Party.keeper ++ List.replicate 2 Party.main

/-- The rest of the phase, in which the keeper tests `*status` first. -/
def keeperAhead : List Party :=
  List.replicate 3 Party.keeper ++ List.replicate 6 Party.main ++ List.replicate 3 Party.keeper ++
    List.replicate 2 Party.main

def oneIteration : Option State :=
  ((semaphoreMutexNotEmpty 1 false).guarded Tested).exec (semaphoreMutexNotEmpty 1 false).init
    (upToSecond ++ keeperAhead ++ upToSecond ++ keeperAhead)

theorem release_correct_one : ∃ s, oneIteration = some s ∧ ¬ Abandoned s ∧ s.main = .exited := by
  have hrun : oneIteration.isSome = true := by decide
  have hreach : (semaphoreMutexNotEmpty 1 false).ReachableBy Tested (oneIteration.get hrun) :=
    .of_exec (Option.some_get hrun).symm
  exact ⟨oneIteration.get hrun, (Option.some_get hrun).symm,
    (release_correct 1 false _ hreach).2.1, rfl⟩

/-- `main` sets `*status` to -1 and waits before the keeper gets to its test. -/
def mainAhead : Option State :=
  (semaphoreMutexNotEmpty 1 false).exec (semaphoreMutexNotEmpty 1 false).init
    (upToSecond ++ List.replicate 2 Party.keeper ++ List.replicate 6 Party.main ++ [Party.keeper])

/-- The keeper reads -1 at the head of its loop and returns. -/
theorem keeper_leaves_main : ∃ s, (semaphoreMutexNotEmpty 1 false).Reachable s ∧ Stuck s ∧
    Abandoned s := by
  have hrun : mainAhead.isSome = true := by decide
  refine ⟨mainAhead.get hrun, System.Reachable.init.exec (Option.some_get hrun).symm, ?_, rfl,
    _, _, _, .inr rfl⟩
  intro who
  cases who <;> rfl

end PthreadBenchmark.SemRelease
