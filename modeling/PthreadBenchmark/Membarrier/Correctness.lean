import PthreadBenchmark.Membarrier.Invariant

/-! # Rounds do not overlap, and both sides never load zero -/

namespace PthreadBenchmark.Membarrier

open Pthread

variable {rounds i : ℕ} {s s' : MapTest} {p q : Point} {ps : Side → Point} {t : Side}
  {c : Config Side MapTest Point Mutex Empty}

/-! ## Steps while one side is ahead -/

/-- A step of the side that is ahead. -/
theorem Late.move (h : Late rounds i t s ps) {r : ℤ} {pc : Pc} {ref : ℕ}
    (hahead : Ahead rounds i pc) (hle : s.ref ≤ ref)
    (href : ref + begun (ps t) = s.ref + begun ⟨t, i + 1, r, pc⟩) :
    Late rounds i t { s with ref := ref } (Function.update ps t ⟨t, i + 1, r, pc⟩) := by
  have hne := Function.update_of_ne (Side.other_ne t) (⟨t, i + 1, r, pc⟩ : Point) ps
  have hweight := weight_update begun ps t ⟨t, i + 1, r, pc⟩
  have hold := h.ref
  refine ⟨fun u => ?_, by rw [Function.update_self], by rwa [Function.update_self],
    by rw [hne, h.roundOther], h.bound, h.waited.trans hle, ?_, by simp only; omega, h.killed⟩
  · rcases Side.eq_or_eq_other t u with rfl | rfl
    · rw [Function.update_self]
    · rw [hne, h.side]
  · rw [hne]
    exact h.behind

theorem Late.stepAhead (h : Late rounds i t s ps) (hq : (code .mb rounds s (ps t)).next? = some q) :
    InStep rounds ((code .mb rounds s (ps t)).after s) (Function.update ps t q) := by
  have hside := h.side t
  have hround := h.round
  have hahead := h.ahead
  have href := h.ref
  have hle := begun_le (ps t.other)
  rw [weight_side begun ps t] at href
  rcases hp : ps t with ⟨side, j, r, pc⟩
  rw [hp] at hside hround hahead hq href
  obtain rfl : side = t := hside
  obtain rfl : j = i + 1 := hround
  have hswitch : pc ≠ .switchMode := by
    intro heq
    subst heq
    exact hahead
  rw [code_eq hswitch] at hq ⊢
  cases pc with
  | finished => cases hq
  | loop =>
      have hbound : i + 1 ≤ rounds := hahead
      cases hq
      by_cases hnext : i + 1 < rounds
      · simp only [if_pos hnext]
        exact .inr ⟨i, side, h.move hnext le_rfl (by rw [hp]; rfl)⟩
      · simp only [if_neg hnext]
        exact .inr ⟨i, side, h.move (by simp only [Ahead]; omega) le_rfl (by rw [hp]; rfl)⟩
  | inc =>
      cases hq
      exact .inr ⟨i, side, h.move hahead (Nat.le_succ _) (by rw [hp]; rfl)⟩
  | spin =>
      have hwait : s.ref < 2 * (i + 1 + 1) := by
        have hbegun : begun ⟨side, i + 1, r, .spin⟩ = 1 := rfl
        omega
      cases hq
      simp only [if_pos hwait]
      exact .inr ⟨i, side, h.move hahead le_rfl (by rw [hp]; rfl)⟩
  | testKilled =>
      cases hq
      simp only [if_neg (not_not_intro h.killed)]
      exact .inr ⟨i, side, h.move hahead le_rfl (by rw [hp]; rfl)⟩
  | _ => exact hahead.elim

/-- A step of the side that is behind, up to the end of its round. -/
theorem Late.moveBehind (h : Late rounds i t s ps) {r : ℤ} {pc : Pc}
    (hbehind : Behind s' t ⟨t.other, i, r, pc⟩) (href : s'.ref = s.ref)
    (hbegun : begun (ps t.other) = begun ⟨t.other, i, r, pc⟩) (hkilled : s'.killed = s.killed) :
    Late rounds i t s' (Function.update ps t.other ⟨t.other, i, r, pc⟩) := by
  have hne := Function.update_of_ne (Side.other_ne t).symm (⟨t.other, i, r, pc⟩ : Point) ps
  have hweight := weight_update begun ps t.other ⟨t.other, i, r, pc⟩
  have hold := h.ref
  refine ⟨fun u => ?_, by rw [hne, h.round], by rw [hne]; exact h.ahead,
    by rw [Function.update_self], h.bound, href ▸ h.waited, by rwa [Function.update_self],
    by omega, hkilled.trans h.killed⟩
  rcases Side.eq_or_eq_other t u with rfl | rfl
  · rw [hne, h.side]
  · rw [Function.update_self]

theorem half_of_ahead (hahead : Ahead rounds i p.pc) (hside : p.side = t) (hround : p.i = i + 1)
    (hflag : s.flag t = 0) (hready : s.ready t = 0) : Half rounds (i + 1) s t p := by
  obtain ⟨side, j, r, pc⟩ := p
  cases pc with
  | loop | inc | spin | testKilled =>
      exact ⟨hside, hround, hflag, hready, False.elim, False.elim, hahead⟩
  | finished => exact ⟨hside, hround, hflag, hready, False.elim, False.elim, hahead⟩
  | _ => exact hahead.elim

/-- When both sides have finished the round, everything is reset. -/
theorem Late.finish (h : Late rounds i t s ps) {r : ℤ}
    (hp : ps t.other = ⟨t.other, i, r, .checkUnlock⟩) :
    Even rounds (i + 1) s (Function.update ps t.other ⟨t.other, i + 1, r, .loop⟩) := by
  have hbehind := h.behind
  have hweight := weight_update begun ps t.other ⟨t.other, i + 1, r, .loop⟩
  have hold := h.ref
  rw [hp] at hbehind hweight
  obtain ⟨hready, hflag⟩ : (∀ u, s.ready u = 0) ∧ ∀ u, s.flag u = 0 := hbehind
  have hbegun : begun ⟨t.other, i, r, .checkUnlock⟩ = 1 := rfl
  have hdone : begun ⟨t.other, i + 1, r, .loop⟩ = 0 := rfl
  refine ⟨fun u => ?_, by omega, h.killed, fun u hloaded hother => ?_⟩
  · rcases Side.eq_or_eq_other t u with rfl | rfl
    · rw [Function.update_of_ne (Side.other_ne u).symm]
      exact half_of_ahead h.ahead (h.side u) h.round (hflag u) (hready u)
    · rw [Function.update_self]
      exact ⟨rfl, rfl, hflag _, hready _, False.elim, False.elim, h.bound⟩
  · rcases Side.eq_or_eq_other t u with rfl | rfl
    · rw [Function.update_self] at hother
      exact hother.elim
    · rw [Function.update_self] at hloaded
      exact hloaded.elim

theorem Late.stepBehind (h : Late rounds i t s ps)
    (hq : (code .mb rounds s (ps t.other)).next? = some q) :
    InStep rounds ((code .mb rounds s (ps t.other)).after s) (Function.update ps t.other q) := by
  have hside := h.side t.other
  have hround := h.roundOther
  have hbehind := h.behind
  rcases hp : ps t.other with ⟨side, j, r, pc⟩
  rw [hp] at hside hround hbehind hq
  obtain rfl : side = t.other := hside
  obtain rfl : j = i := hround
  have hswitch : pc ≠ .switchMode := by
    intro heq
    subst heq
    exact hbehind
  rw [code_eq hswitch] at hq ⊢
  have hmove : ∀ (r' : ℤ) (pc' : Pc) {s' : MapTest},
      begun ⟨t.other, j, r, pc⟩ = begun ⟨t.other, j, r', pc'⟩ →
      Behind s' t ⟨t.other, j, r', pc'⟩ → s'.ref = s.ref → s'.killed = s.killed →
      InStep rounds s' (Function.update ps t.other ⟨t.other, j, r', pc'⟩) := by
    intro r' pc' s' hbegun hbehind' href hkilled
    exact .inr ⟨j, t, h.moveBehind hbehind' href (by rw [hp, hbegun]) hkilled⟩
  have hne : ∀ {f : Side → ℤ} {v : ℤ}, Function.update f t.other v t = f t :=
    Function.update_of_ne (Side.other_ne t).symm ..
  cases pc with
  | spin =>
      have hwait : ¬ s.ref < 2 * (j + 1) := Nat.not_lt.mpr h.waited
      cases hq
      simp only [if_neg hwait]
      exact hmove r .store rfl hbehind rfl rfl
  | testKilled =>
      cases hq
      simp only [if_neg (not_not_intro h.killed)]
      exact hmove r .spin rfl hbehind rfl rfl
  | store =>
      obtain ⟨hflag, hready⟩ : Left s t := hbehind
      cases hq
      exact hmove r .barrier rfl ⟨hne.trans hflag, hready⟩ rfl rfl
  | barrier =>
      cases hq
      exact hmove r .load rfl hbehind rfl rfl
  | load =>
      obtain ⟨hflag, hready⟩ : Left s t := hbehind
      cases hq
      simp only [Side.other_other, hflag]
      exact hmove 1 .checkLock rfl ⟨⟨hflag, hready⟩, fun hzero => absurd hzero one_ne_zero⟩ rfl rfl
  | checkLock =>
      cases hq
      exact hmove r .checkReady rfl hbehind rfl rfl
  | checkReady =>
      have hready : s.ready t ≠ 0 := by
        rw [hbehind.1.2.1]
        exact one_ne_zero
      cases hq
      simp only [Side.other_other, if_pos hready]
      exact hmove r .checkRegs rfl hbehind rfl rfl
  | checkRegs =>
      have hnonzero : ¬ (r = 0 ∧ s.reg t = 0) := fun hzero => hbehind.2 hzero.1 hzero.2
      cases hq
      simp only [Side.other_other, if_neg hnonzero]
      exact hmove r .clearReady rfl hbehind.1.2.2 rfl rfl
  | clearReady =>
      have hother : s.ready t.other = 0 := hbehind
      have hclear : ∀ u, Function.update s.ready t.other.other 0 u = 0 := by
        intro u
        rw [Side.other_other]
        rcases Side.eq_or_eq_other t u with rfl | rfl
        · exact Function.update_self ..
        · exact (Function.update_of_ne (Side.other_ne t) ..).trans hother
      cases hq
      exact hmove r .clearX rfl hclear rfl rfl
  | clearX =>
      have hclear : Function.update s.flag .parent 0 .parent = 0 := Function.update_self ..
      cases hq
      exact hmove r .clearY rfl ⟨hbehind, hclear⟩ rfl rfl
  | clearY =>
      obtain ⟨hready, hflag⟩ : (∀ u, s.ready u = 0) ∧ s.flag .parent = 0 := hbehind
      have hclear : ∀ u, Function.update s.flag .child 0 u = 0 := by
        intro u
        cases u with
        | parent => exact hflag
        | child => exact Function.update_self ..
      cases hq
      exact hmove r .checkUnlock rfl ⟨hready, hclear⟩ rfl rfl
  | checkUnlock =>
      cases hq
      exact .inl ⟨j + 1, h.finish hp⟩
  | _ => exact hbehind.elim

theorem inStep_of_reachable (h : (program .mb rounds).Reachable c) :
    InStep rounds c.shared (points c) := by
  apply exclusive_invariant tracks not_wait _ h (.inl ⟨0, even_start⟩)
  · intro s ps t q hinStep hexcl hq
    have hexcl' : inside (ps t) .lock → ¬ inside (ps t.other) .lock :=
      fun ht hother => Side.other_ne t (hexcl t.other .lock ht hother)
    rcases hinStep with ⟨i, heven⟩ | ⟨i, u, hlate⟩
    · exact heven.step hexcl' hq
    · rcases Side.eq_or_eq_other u t with rfl | rfl
      · exact hlate.stepAhead hq
      · exact hlate.stepBehind hq
  · intro t m
    cases t <;> exact id

/-! ## Result -/

/-- The rounds of a side that are over. -/
def finishedRounds (p : Point) : ℕ := p.i

/-- The waits for `ref` that a side has passed. -/
def passedWaits (p : Point) : ℕ :=
  match p.pc with
  | .switchMode | .loop | .inc | .spin | .testKilled | .finished => p.i
  | _ => p.i + 1

/-- The stores to its flag that a side has made. -/
def stores (p : Point) : ℕ :=
  match p.pc with
  | .switchMode | .loop | .inc | .spin | .testKilled | .finished | .store => p.i
  | _ => p.i + 1

theorem passedWaits_le (p : Point) : passedWaits p ≤ p.i + 1 := by
  unfold passedWaits
  split <;> omega

theorem le_stores (p : Point) : p.i ≤ stores p := by
  unfold stores
  split <;> omega

theorem passedWaits_of_ahead (h : Ahead rounds i p.pc) : passedWaits p = p.i := by
  obtain ⟨side, j, r, pc⟩ := p
  cases pc <;> first | rfl | exact h.elim

/-- A side that has not stored in its round has nothing in memory. -/
theorem Half.zero (h : Half rounds i s t p) (hstores : stores p ≤ i) :
    s.flag t = 0 ∧ s.ready t = 0 := by
  have hflag := h.flag
  have hready := h.ready
  have hround := h.round
  obtain ⟨side, j, r, pc⟩ := p
  obtain rfl : j = i := hround
  cases pc with
  | switchMode | loop | inc | spin | testKilled | store | finished => exact ⟨hflag, hready⟩
  | _ => exact absurd hstores (Nat.not_succ_le_self _)

/-- With real barriers, for any number of rounds and any interleaving: the errors are never
reported and `killed` stays zero; a side that has passed the wait of round `i` is behind the rounds
before on both sides, and until the first store of round `i` everything is reset. -/
theorem membarrier_correct (rounds : ℕ) (c : Config Side MapTest Point Mutex Empty)
    (h : (program .mb rounds).Reachable c) :
    (∀ t, (points c t).pc ≠ .error ∧ (points c t).pc ≠ .errorAborted ∧
      (points c t).pc ≠ .aborted) ∧
    c.shared.killed = 0 ∧
    ∀ i t, i < passedWaits (points c t) →
      (∀ u, i ≤ finishedRounds (points c u)) ∧
      ((∀ u, stores (points c u) ≤ i) →
        c.shared.x = 0 ∧ c.shared.y = 0 ∧ c.shared.r2Ready = 0 ∧ c.shared.r4Ready = 0) := by
  rcases inStep_of_reachable h with ⟨j, heven⟩ | ⟨j, w, hlate⟩
  · refine ⟨fun t => ?_, heven.killed, fun i t hi => ?_⟩
    · have hopen := (heven.half t).pc
      refine ⟨?_, ?_, ?_⟩ <;>
      · intro heq
        rw [heq] at hopen
        exact hopen
    · have hround : ∀ u, (points c u).i = j := fun u => (heven.half u).round
      have hle := passedWaits_le (points c t)
      rw [hround t] at hle
      refine ⟨fun u => ?_, fun hstores => ?_⟩
      · rw [finishedRounds, hround u]
        omega
      · have hij : i = j := by
          have hstore := le_stores (points c t)
          have hlast := hstores t
          rw [hround t] at hstore
          omega
        subst hij
        have hzero := fun u => (heven.half u).zero (hstores u)
        exact ⟨(hzero .parent).1, (hzero .child).1, (hzero .parent).2, (hzero .child).2⟩
  · refine ⟨fun t => ?_, hlate.killed, fun i t hi => ?_⟩
    · rcases Side.eq_or_eq_other w t with rfl | rfl
      · have hahead := hlate.ahead
        refine ⟨?_, ?_, ?_⟩ <;>
        · intro heq
          rw [heq] at hahead
          exact hahead
      · have hbehind := hlate.behind
        refine ⟨?_, ?_, ?_⟩ <;>
        · intro heq
          simp only [Behind, heq] at hbehind
    · have hle : passedWaits (points c t) ≤ j + 1 := by
        rcases Side.eq_or_eq_other w t with rfl | rfl
        · rw [passedWaits_of_ahead hlate.ahead, hlate.round]
        · have hwaits := passedWaits_le (points c w.other)
          rwa [hlate.roundOther] at hwaits
      refine ⟨fun u => ?_, fun hstores => ?_⟩
      · rcases Side.eq_or_eq_other w u with rfl | rfl
        · rw [finishedRounds, hlate.round]
          omega
        · rw [finishedRounds, hlate.roundOther]
          omega
      · -- the side that is ahead has stored in round `j`
        have hstore := le_stores (points c w)
        have hlast := hstores w
        rw [hlate.round] at hstore
        omega

/-- Both sides go through round 0 and pass the wait of round 1. -/
def bothWait (t u : Side) : Option (Config Side MapTest Point Mutex Empty) :=
  (program .mb 2).exec (program .mb 2).init
    (List.replicate 2 (Action.run t none) ++ List.replicate 4 (Action.run u none) ++
      List.replicate 9 (Action.run t none) ++ List.replicate 10 (Action.run u none) ++
      List.replicate 2 (Action.run t none) ++ List.replicate 3 (Action.run u none) ++
      [Action.run t none])

theorem membarrier_correct_one : ∃ c, bothWait .parent .child = some c ∧ c.shared.ref = 4 ∧
    1 < passedWaits (points c .parent) ∧ 1 ≤ finishedRounds (points c .child) ∧
    c.shared.x = 0 ∧ c.shared.y = 0 ∧ c.shared.r2Ready = 0 ∧ c.shared.r4Ready = 0 := by
  have hrun : (bothWait .parent .child).isSome = true := by decide
  obtain ⟨-, -, hwait⟩ := membarrier_correct 2 _
    (System.Reachable.init.exec (Option.some_get hrun).symm)
  obtain ⟨hfinished, hzero⟩ := hwait 1 .parent (Nat.lt_succ_self 1)
  have hreset := hzero fun u => by cases u <;> exact Nat.le_refl 1
  exact ⟨(bothWait .parent .child).get hrun, (Option.some_get hrun).symm, rfl, Nat.lt_succ_self 1,
    hfinished .child, hreset⟩

end PthreadBenchmark.Membarrier
