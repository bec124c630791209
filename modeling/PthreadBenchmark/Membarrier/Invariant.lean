import PthreadBenchmark.Membarrier.Model
import PthreadBenchmark.Shared.PthreadRules

/-! # Rounds that neither side has finished -/

namespace PthreadBenchmark.Membarrier

open Pthread

variable {rounds i : ℕ} {s s' : MapTest} {p q : Point} {ps : Side → Point} {t : Side}

@[simp] theorem Side.other_ne (t : Side) : t.other ≠ t := by
  cases t <;> simp [Side.other]

@[simp] theorem Side.other_other (t : Side) : t.other.other = t := by
  cases t <;> rfl

theorem Side.eq_or_eq_other (t u : Side) : u = t ∨ u = t.other := by
  cases t <;> cases u <;> simp [Side.other]

theorem weight_side (f : Point → ℕ) (ps : Side → Point) (t : Side) :
    weight f ps = f (ps t) + f (ps t.other) := by
  have hsum : weight f ps = f (ps .parent) + f (ps .child) := by
    simp [weight, Finset.univ, Fintype.elems]
  cases t with
  | parent => exact hsum
  | child =>
      rw [hsum]
      exact Nat.add_comm _ _

/-! ## The mutex -/

def inside (p : Point) (_ : Mutex) : Prop :=
  match p.pc with
  | .checkReady | .checkRegs | .error | .errorAborted | .clearReady | .clearX | .clearY | .saveReg
  | .saveReady | .checkUnlock => True
  | _ => False

theorem code_eq (h : p.pc ≠ .switchMode) :
    code .mb rounds s p = loop p.side .load (checkRegs p.side) rounds s p := by
  obtain ⟨side, i, r, pc⟩ := p
  cases side with
  | parent => rfl
  | child => cases pc <;> first | rfl | exact absurd rfl h

theorem tracks (s : MapTest) (p : Point) : Tracks inside p (code .mb rounds s p) := by
  obtain ⟨side, i, r, pc⟩ := p
  by_cases hswitch : pc = .switchMode
  · subst hswitch
    cases side with
    | parent => trivial
    | child => exact fun _ => Iff.rfl
  · rw [code_eq hswitch]
    cases pc with
    | switchMode => exact absurd rfl hswitch
    | loop | spin | testKilled | checkReady | checkRegs =>
        simp only [loop, Membarrier.checkRegs]
        intro m
        split <;> exact Iff.rfl
    | inc | store | barrier | load | error | clearReady | clearX | clearY | saveReg | saveReady
      | setKilled => exact fun _ => Iff.rfl
    | checkLock | checkUnlock =>
        intro m
        simp [inside]
    | aborted | errorAborted | finished => trivial

/-! ## Two kinds of states -/

/-- The increment of `ref` for the round. -/
def begun (p : Point) : ℕ :=
  match p.pc with
  | .switchMode | .loop | .inc | .finished => 0
  | _ => 1

/-- The wait of the round is over. -/
def Waited : Pc → Prop
  | .switchMode | .loop | .inc | .spin | .testKilled | .finished => False
  | _ => True

/-- What a side has stored to its own flag in the round. -/
def stored : Pc → ℤ
  | .switchMode | .loop | .inc | .spin | .testKilled | .finished | .store => 0
  | _ => 1

def Loaded : Pc → Prop
  | .checkLock | .checkReady | .saveReg | .saveReady | .checkUnlock => True
  | _ => False

def Saved : Pc → Prop
  | .saveReady | .checkUnlock => True
  | _ => False

def published : Pc → ℤ
  | .checkUnlock => 1
  | _ => 0

/-- The points of a round that neither side has finished. -/
def Open (rounds i : ℕ) : Pc → Prop
  | .switchMode | .loop => i ≤ rounds
  | .finished => i = rounds
  | .inc | .spin | .testKilled | .store | .barrier | .load | .checkLock | .checkReady | .saveReg
  | .saveReady | .checkUnlock => i < rounds
  | _ => False

structure Half (rounds i : ℕ) (s : MapTest) (t : Side) (p : Point) : Prop where
  side : p.side = t
  round : p.i = i
  flag : s.flag t = stored p.pc
  ready : s.ready t = published p.pc
  reg : Saved p.pc → s.reg t = p.r
  ref : Waited p.pc → 2 * (i + 1) ≤ s.ref
  pc : Open rounds i p.pc

/-- Neither side has finished round `i`. -/
structure Even (rounds i : ℕ) (s : MapTest) (ps : Side → Point) : Prop where
  half : ∀ t, Half rounds i s t (ps t)
  ref : s.ref = 2 * i + weight begun ps
  killed : s.killed = 0
  nonzero : ∀ t, Loaded (ps t).pc → Loaded (ps t.other).pc → (ps t).r = 0 → (ps t.other).r ≠ 0

/-- The side that has finished round `i` cannot pass the wait of the next one. -/
def Ahead (rounds i : ℕ) : Pc → Prop
  | .loop => i + 1 ≤ rounds
  | .inc | .spin | .testKilled => i + 1 < rounds
  | .finished => i + 1 = rounds
  | _ => False

/-- The first side of the round has left its register, and its store has not been reset. -/
def Left (s : MapTest) (t : Side) : Prop :=
  s.flag t = 1 ∧ s.ready t = 1 ∧ s.ready t.other = 0

/-- What the second side finds, and how far it has come with the reset. -/
def Behind (s : MapTest) (t : Side) (p : Point) : Prop :=
  match p.pc with
  | .spin | .testKilled | .store | .barrier | .load => Left s t
  | .checkLock | .checkReady | .checkRegs => Left s t ∧ (p.r = 0 → s.reg t ≠ 0)
  | .clearReady => s.ready t.other = 0
  | .clearX => ∀ u, s.ready u = 0
  | .clearY => (∀ u, s.ready u = 0) ∧ s.flag .parent = 0
  | .checkUnlock => (∀ u, s.ready u = 0) ∧ ∀ u, s.flag u = 0
  | _ => False

/-- The side `t` has finished round `i`, and the other one has not. -/
structure Late (rounds i : ℕ) (t : Side) (s : MapTest) (ps : Side → Point) : Prop where
  side : ∀ u, (ps u).side = u
  round : (ps t).i = i + 1
  ahead : Ahead rounds i (ps t).pc
  roundOther : (ps t.other).i = i
  bound : i < rounds
  waited : 2 * (i + 1) ≤ s.ref
  behind : Behind s t (ps t.other)
  ref : s.ref = 2 * i + 1 + weight begun ps
  killed : s.killed = 0

/-- In each state the sides are in the same round or one apart. -/
def InStep (rounds : ℕ) (s : MapTest) (ps : Side → Point) : Prop :=
  (∃ i, Even rounds i s ps) ∨ ∃ i t, Late rounds i t s ps

theorem even_start : Even rounds 0 ⟨fun _ => 0, 0, fun _ => 0, fun _ => 0, 0⟩ start where
  half t := by
    cases t with
    | parent => exact ⟨rfl, rfl, rfl, rfl, False.elim, False.elim, Nat.zero_le _⟩
    | child => exact ⟨rfl, rfl, rfl, rfl, False.elim, False.elim, Nat.zero_le _⟩
  ref := by
    rw [weight_side begun start .parent]
    rfl
  killed := rfl
  nonzero t h := by cases t <;> exact h.elim

/-! ## Steps of a round -/

theorem Half.frame (h : Half rounds i s t p) (hflag : s'.flag t = s.flag t)
    (hready : s'.ready t = s.ready t) (hreg : s'.reg t = s.reg t) (href : s.ref ≤ s'.ref) :
    Half rounds i s' t p where
  side := h.side
  round := h.round
  flag := hflag.trans h.flag
  ready := hready.trans h.ready
  reg hsaved := hreg.trans (h.reg hsaved)
  ref hwaited := (h.ref hwaited).trans href
  pc := h.pc

theorem Even.move (h : Even rounds i s ps) (hhalf : Half rounds i s' t q)
    (hother : Half rounds i s' t.other (ps t.other))
    (href : s'.ref + begun (ps t) = s.ref + begun q) (hkilled : s'.killed = 0)
    (hnonzero : Loaded q.pc → Loaded (ps t.other).pc → q.r = 0 → (ps t.other).r ≠ 0) :
    Even rounds i s' (Function.update ps t q) where
  half u := by
    rcases Side.eq_or_eq_other t u with rfl | rfl
    · rwa [Function.update_self]
    · rwa [Function.update_of_ne (Side.other_ne t)]
  ref := by
    have hweight := weight_update begun ps t q
    have hold := h.ref
    omega
  killed := hkilled
  nonzero u := by
    rcases Side.eq_or_eq_other t u with rfl | rfl
    · rw [Function.update_self, Function.update_of_ne (Side.other_ne u)]
      exact hnonzero
    · rw [Side.other_other, Function.update_self, Function.update_of_ne (Side.other_ne t)]
      exact fun hloaded hq hzero hqzero => hnonzero hq hloaded hqzero hzero

theorem stored_of_loaded {pc : Pc} (h : Loaded pc) : stored pc = 1 := by
  cases pc <;> first | rfl | exact h.elim

theorem published_of_outside (h : ¬ inside p .lock) : published p.pc = 0 := by
  obtain ⟨side, i, r, pc⟩ := p
  cases pc <;> first | rfl | exact absurd trivial h

/-- A step that accesses only locals or reads. -/
theorem Even.local (h : Even rounds i s ps) {r : ℤ} {pc pc' : Pc} (hp : ps t = ⟨t, i, r, pc⟩)
    (hstored : stored pc' = stored pc) (hpublished : published pc' = published pc)
    (hsaved : Saved pc' → Saved pc) (hwaited : Waited pc' → 2 * (i + 1) ≤ s.ref)
    (hopen : Open rounds i pc') (hbegun : begun ⟨t, i, r, pc'⟩ = begun ⟨t, i, r, pc⟩)
    (hloaded : Loaded pc' → Loaded pc) :
    Even rounds i s (Function.update ps t ⟨t, i, r, pc'⟩) := by
  have hhalf := h.half t
  have hnonzero := h.nonzero t
  rw [hp] at hhalf hnonzero
  have hhalf' : Half rounds i s t ⟨t, i, r, pc'⟩ :=
    ⟨rfl, rfl, hhalf.flag.trans hstored.symm, hhalf.ready.trans hpublished.symm,
      fun hq => hhalf.reg (hsaved hq), hwaited, hopen⟩
  apply h.move hhalf' (h.half t.other) _ h.killed fun hq => hnonzero (hloaded hq)
  rw [hp, hbegun]

theorem begun_le (p : Point) : begun p ≤ 1 := by
  unfold begun
  split <;> omega

/-- The first side that ends the round leaves its data to the other one. -/
theorem Even.finish (h : Even rounds i s ps) {r : ℤ} (hp : ps t = ⟨t, i, r, .checkUnlock⟩)
    (hexcl : ¬ inside (ps t.other) .lock) :
    Late rounds i t s (Function.update ps t ⟨t, i + 1, r, .loop⟩) := by
  have hhalf := h.half t
  have hother := h.half t.other
  have hnonzero := h.nonzero t
  have hweight := weight_update begun ps t ⟨t, i + 1, r, .loop⟩
  have hsum := weight_side begun ps t
  have href := h.ref
  rw [hp] at hhalf hnonzero hweight hsum
  have hwaited : 2 * (i + 1) ≤ s.ref := hhalf.ref trivial
  have hround : i < rounds := hhalf.pc
  have hbegun : begun ⟨t, i, r, .checkUnlock⟩ = 1 := rfl
  have hdone : begun ⟨t, i + 1, r, .loop⟩ = 0 := rfl
  have hotherBegun : begun (ps t.other) = 1 := by
    have hle := begun_le (ps t.other)
    omega
  have hne := Function.update_of_ne (Side.other_ne t) (⟨t, i + 1, r, .loop⟩ : Point) ps
  refine ⟨fun u => ?_, ?_, ?_, ?_, hround, hwaited, ?_, by omega, h.killed⟩
  · rcases Side.eq_or_eq_other t u with rfl | rfl
    · rw [Function.update_self]
    · rw [hne]
      exact hother.side
  · rw [Function.update_self]
  · rw [Function.update_self]
    exact hround
  · rw [hne]
    exact hother.round
  · rw [hne]
    have hleft : published (ps t.other).pc = 0 → Left s t :=
      fun hready => ⟨hhalf.flag, hhalf.ready, hother.ready.trans hready⟩
    have hreg : s.reg t = r := hhalf.reg trivial
    generalize ps t.other = p' at *
    obtain ⟨u, j, r', pc⟩ := p'
    cases pc with
    | spin | testKilled | store | barrier | load => exact hleft rfl
    | checkLock =>
        refine ⟨hleft rfl, fun hzero hreg' => ?_⟩
        exact hnonzero trivial trivial (hreg.symm.trans hreg') hzero
    | switchMode | loop | inc | finished => cases hotherBegun
    | checkReady | saveReg | saveReady | checkUnlock => exact absurd trivial hexcl
    | checkRegs | error | errorAborted | clearReady | clearX | clearY | setKilled | aborted =>
        exact hother.pc.elim

theorem Even.step (h : Even rounds i s ps)
    (hexcl : inside (ps t) .lock → ¬ inside (ps t.other) .lock)
    (hq : (code .mb rounds s (ps t)).next? = some q) :
    InStep rounds ((code .mb rounds s (ps t)).after s) (Function.update ps t q) := by
  have hhalf := h.half t
  have hother := h.half t.other
  have hnonzero := h.nonzero t
  have hne : ∀ {f : Side → ℤ} {v : ℤ}, Function.update f t v t.other = f t.other :=
    Function.update_of_ne (Side.other_ne t) ..
  rcases hp : ps t with ⟨side, j, r, pc⟩
  rw [hp] at hhalf hq hexcl hnonzero
  obtain rfl : side = t := hhalf.side
  obtain rfl : j = i := hhalf.round
  by_cases hswitch : pc = .switchMode
  · subst hswitch
    cases side with
    | parent => cases hq
    | child =>
        cases hq
        exact .inl ⟨j, h.local hp rfl rfl False.elim False.elim hhalf.pc rfl False.elim⟩
  rw [code_eq hswitch] at hq ⊢
  cases pc with
  | switchMode => exact absurd rfl hswitch
  | checkRegs | error | errorAborted | clearReady | clearX | clearY | setKilled | aborted =>
      exact hhalf.pc.elim
  | finished => cases hq
  | loop =>
      have hle : j ≤ rounds := hhalf.pc
      cases hq
      by_cases hround : j < rounds
      · simp only [if_pos hround]
        exact .inl ⟨j, h.local hp rfl rfl False.elim False.elim hround rfl False.elim⟩
      · simp only [if_neg hround]
        exact .inl ⟨j, h.local hp rfl rfl False.elim False.elim (by simp only [Open]; omega) rfl
          False.elim⟩
  | inc =>
      cases hq
      have hhalf' : Half rounds j { s with ref := s.ref + 1 } side ⟨side, j, r, .spin⟩ :=
        ⟨rfl, rfl, hhalf.flag, hhalf.ready, False.elim, False.elim, hhalf.pc⟩
      exact .inl ⟨j, h.move hhalf' (hother.frame rfl rfl rfl (Nat.le_succ _)) (by rw [hp]; rfl)
        h.killed False.elim⟩
  | spin =>
      cases hq
      by_cases hwait : s.ref < 2 * (j + 1)
      · simp only [if_pos hwait]
        exact .inl ⟨j, h.local hp rfl rfl False.elim False.elim hhalf.pc rfl False.elim⟩
      · simp only [if_neg hwait]
        exact .inl ⟨j, h.local hp rfl rfl False.elim (fun _ => Nat.le_of_not_lt hwait) hhalf.pc
          rfl False.elim⟩
  | testKilled =>
      cases hq
      simp only [if_neg (not_not_intro h.killed)]
      exact .inl ⟨j, h.local hp rfl rfl False.elim False.elim hhalf.pc rfl False.elim⟩
  | store =>
      cases hq
      have hhalf' : Half rounds j { s with flag := Function.update s.flag side 1 } side
          ⟨side, j, r, .barrier⟩ :=
        ⟨rfl, rfl, Function.update_self .., hhalf.ready, False.elim, fun _ => hhalf.ref trivial,
          hhalf.pc⟩
      exact .inl ⟨j, h.move hhalf' (hother.frame hne rfl rfl le_rfl) (by rw [hp]; rfl)
        h.killed False.elim⟩
  | barrier =>
      cases hq
      exact .inl ⟨j, h.local hp rfl rfl False.elim (fun _ => hhalf.ref trivial) hhalf.pc rfl
        False.elim⟩
  | load =>
      cases hq
      have hhalf' : Half rounds j s side ⟨side, j, s.flag side.other, .checkLock⟩ :=
        ⟨rfl, rfl, hhalf.flag, hhalf.ready, False.elim, fun _ => hhalf.ref trivial, hhalf.pc⟩
      refine .inl ⟨j, h.move hhalf' hother (by rw [hp]; rfl) h.killed fun _ hloaded hzero => ?_⟩
      -- the other side has stored before it loaded
      rw [hother.flag, stored_of_loaded hloaded] at hzero
      cases hzero
  | checkLock =>
      cases hq
      exact .inl ⟨j, h.local hp rfl rfl False.elim (fun _ => hhalf.ref trivial) hhalf.pc rfl id⟩
  | checkReady =>
      have hready : s.ready side.other = 0 :=
        hother.ready.trans (published_of_outside (hexcl trivial))
      cases hq
      simp only [hready, ne_eq, not_true_eq_false, if_false]
      exact .inl ⟨j, h.local hp rfl rfl False.elim (fun _ => hhalf.ref trivial) hhalf.pc rfl id⟩
  | saveReg =>
      cases hq
      have hhalf' : Half rounds j { s with reg := Function.update s.reg side r } side
          ⟨side, j, r, .saveReady⟩ :=
        ⟨rfl, rfl, hhalf.flag, hhalf.ready, fun _ => Function.update_self ..,
          fun _ => hhalf.ref trivial, hhalf.pc⟩
      exact .inl ⟨j, h.move hhalf' (hother.frame rfl rfl hne le_rfl) (by rw [hp]; rfl)
        h.killed hnonzero⟩
  | saveReady =>
      cases hq
      have hhalf' : Half rounds j { s with ready := Function.update s.ready side 1 } side
          ⟨side, j, r, .checkUnlock⟩ :=
        ⟨rfl, rfl, hhalf.flag, Function.update_self .., fun _ => hhalf.reg trivial,
          fun _ => hhalf.ref trivial, hhalf.pc⟩
      exact .inl ⟨j, h.move hhalf' (hother.frame rfl hne rfl le_rfl) (by rw [hp]; rfl)
        h.killed hnonzero⟩
  | checkUnlock =>
      cases hq
      exact .inr ⟨j, side, h.finish hp (hexcl trivial)⟩

end PthreadBenchmark.Membarrier
