import PthreadBenchmark.Philosophers.Model
import PthreadBenchmark.Shared.PthreadProgress

/-! # The philosophers never deadlock and eat their fill -/

namespace PthreadBenchmark.Philosophers

open Pthread

variable {n : ℕ} {hunger : ℤ} {c : Config (Fin n) (Shared n) (Point n) (Fin n) Empty}

/-! ## The order of the forks -/

/-- Every philosopher takes the fork with the smaller number first. -/
def firstFork (name : Fin n) : Fin n :=
  if name.val = 0 then rightFork name else leftFork name

def secondFork (name : Fin n) : Fin n :=
  if name.val = 0 then leftFork name else rightFork name

theorem meal_takeFirst (s : Shared n) (name : Fin n) :
    meal s ⟨name, .takeFirst⟩ = .lock (firstFork name) ⟨name, .takeSecond⟩ := by
  simp only [meal, firstFork]
  split <;> rfl

theorem meal_takeSecond (s : Shared n) (name : Fin n) :
    meal s ⟨name, .takeSecond⟩ = .lock (secondFork name) ⟨name, .eat⟩ := by
  simp only [meal, secondFork]
  split <;> rfl

theorem firstFork_lt_secondFork (hn : 2 ≤ n) (name : Fin n) :
    (firstFork name).val < (secondFork name).val := by
  have hname := name.isLt
  unfold firstFork secondFork
  split
  · simp only [rightFork, leftFork]
    split <;> omega
  · simp only [rightFork, leftFork]
    split <;> omega

theorem leftFork_ne_rightFork (hn : 2 ≤ n) (name : Fin n) : leftFork name ≠ rightFork name := by
  intro heq
  have hlt := firstFork_lt_secondFork hn name
  unfold firstFork secondFork at hlt
  rw [heq] at hlt
  simp at hlt

/-- The forks in the hands of a philosopher. -/
def inside (p : Point n) (fork : Fin n) : Prop :=
  match p.pc with
  | .takeSecond => fork = firstFork p.name
  | .eat | .putLeft => fork = leftFork p.name ∨ fork = rightFork p.name
  | .putRight => fork = rightFork p.name
  | .test | .takeFirst | .finished => False

theorem tracks (hn : 2 ≤ n) (s : Shared n) (p : Point n) : Tracks inside p (meal s p) := by
  obtain ⟨name, pc⟩ := p
  have hne := leftFork_ne_rightFork hn name
  cases pc with
  | test =>
      simp only [meal]
      split <;> exact fun _ => Iff.rfl
  | takeFirst =>
      rw [meal_takeFirst]
      intro fork
      simp [inside]
  | takeSecond =>
      rw [meal_takeSecond]
      intro fork
      simp only [inside, firstFork, secondFork]
      split
      · exact Iff.rfl
      · exact or_comm
  | eat => exact fun _ => Iff.rfl
  | putLeft =>
      intro fork
      simp only [inside]
      constructor
      · intro heq
        exact ⟨fun hleft => hne (hleft.symm.trans heq), .inr heq⟩
      · exact fun h => h.2.resolve_left h.1
  | putRight =>
      intro fork
      simp [inside]
  | finished => trivial

theorem proper (s : Shared n) (p : Point n) : Proper inside p (meal s p) := by
  obtain ⟨name, pc⟩ := p
  cases pc with
  | putLeft => exact .inl rfl
  | putRight => exact rfl
  | takeFirst =>
      rw [meal_takeFirst]
      trivial
  | takeSecond =>
      rw [meal_takeSecond]
      trivial
  | test | eat | finished => trivial

/-! ## Hunger -/

/-- A philosopher that takes forks is hungry, and one that has finished is not. -/
structure Fed (hunger : ℤ) (s : Shared n) (name : Fin n) (p : Point n) : Prop where
  own : p.name = name
  nonneg : 0 ≤ s.hungerOfPhylosophs name
  sum : s.hungerOfPhylosophs name + s.eaten name = hunger
  hungry : p.pc = .takeFirst ∨ p.pc = .takeSecond ∨ p.pc = .eat → 0 < s.hungerOfPhylosophs name
  full : p.pc = .finished → s.hungerOfPhylosophs name = 0

theorem Fed.step {s : Shared n} {name : Fin n} {p q : Point n} (h : Fed hunger s name p)
    (hq : (meal s p).next? = some q) : Fed hunger ((meal s p).after s) name q := by
  obtain ⟨i, pc⟩ := p
  obtain rfl : i = name := h.own
  have hnonneg := h.nonneg
  have hsum := h.sum
  have hhungry := h.hungry
  cases pc with
  | finished => cases hq
  | test =>
      simp only [meal, Op.next?, Option.some.injEq] at hq
      subst hq
      refine ⟨rfl, hnonneg, hsum, ?_, ?_⟩
      · intro hpc
        change 0 < s.hungerOfPhylosophs i
        by_contra hle
        rw [if_neg hle] at hpc
        simp at hpc
      · intro hpc
        change s.hungerOfPhylosophs i = 0
        split at hpc
        · cases hpc
        · omega
  | takeFirst =>
      have hpos := hhungry (.inl rfl)
      rw [meal_takeFirst] at hq ⊢
      cases hq
      exact ⟨rfl, hnonneg, hsum, fun _ => hpos, by simp⟩
  | takeSecond =>
      have hpos := hhungry (.inr (.inl rfl))
      rw [meal_takeSecond] at hq ⊢
      cases hq
      exact ⟨rfl, hnonneg, hsum, fun _ => hpos, by simp⟩
  | eat =>
      have hpos := hhungry (.inr (.inr rfl))
      cases hq
      refine ⟨rfl, ?_, ?_, by simp, by simp⟩
      · simp only [meal, Op.after, eat, Function.update_self]
        omega
      · simp only [meal, Op.after, eat, Function.update_self]
        omega
  | putLeft | putRight =>
      cases hq
      exact ⟨rfl, hnonneg, hsum, by simp, by simp⟩

/-- A philosopher changes nothing that belongs to another one. -/
theorem Fed.frame {s : Shared n} {name : Fin n} {p q : Point n} (h : Fed hunger s name p)
    (hne : name ≠ q.name) : Fed hunger ((meal s q).after s) name p := by
  have hsame : ((meal s q).after s).hungerOfPhylosophs name = s.hungerOfPhylosophs name ∧
      ((meal s q).after s).eaten name = s.eaten name := by
    obtain ⟨i, pc⟩ := q
    cases pc with
    | eat => exact ⟨Function.update_of_ne hne .., Function.update_of_ne hne ..⟩
    | takeFirst =>
        rw [meal_takeFirst]
        exact ⟨rfl, rfl⟩
    | takeSecond =>
        rw [meal_takeSecond]
        exact ⟨rfl, rfl⟩
    | test | putLeft | putRight | finished => exact ⟨rfl, rfl⟩
  refine ⟨h.own, ?_, ?_, ?_, ?_⟩
  all_goals rw [hsame.1]
  · exact h.nonneg
  · rw [hsame.2]
    exact h.sum
  · exact h.hungry
  · exact h.full

theorem fed_of_reachable (hhunger : 0 ≤ hunger) (h : (program n hunger).Reachable c)
    (name : Fin n) : Fed hunger c.shared name (points c name) := by
  refine points_invariant (P := fun s ps => ∀ name, Fed hunger s name (ps name)) h ?_ ?_ name
  · intro name
    exact ⟨rfl, hhunger, by simp, by simp, by simp⟩
  · intro s ps i q hfed hq j
    by_cases hj : j = i
    · subst j
      rw [Function.update_self]
      exact (hfed i).step hq
    · rw [Function.update_of_ne hj]
      apply (hfed j).frame
      rw [(hfed i).own]
      exact hj

/-! ## Result -/

/-- The thread of the philosopher has returned. -/
def Finished (c : Config (Fin n) (Shared n) (Point n) (Fin n) Empty) (name : Fin n) : Prop :=
  Halted meal c.shared (c.threads name)

/-- The philosopher wants a fork that somebody holds. -/
def BlockedOnFork (c : Config (Fin n) (Shared n) (Point n) (Fin n) Empty) (name : Fin n) : Prop :=
  ∃ fork, Wants meal c.shared fork (c.threads name) ∧ c.owner fork ≠ none

theorem Finished.pc_eq {name : Fin n} (h : Finished c name) :
    (points c name).pc = .finished ∧ ∀ fork, ¬ Holds inside fork (c.threads name) := by
  have hhalt := isHalt_of_halted h
  rw [running_of_halted h]
  generalize points c name = p at hhalt
  obtain ⟨i, pc⟩ := p
  cases pc with
  | finished => exact ⟨rfl, fun _ hin => hin⟩
  | takeFirst =>
      rw [meal_takeFirst] at hhalt
      cases hhalt
  | takeSecond =>
      rw [meal_takeSecond] at hhalt
      cases hhalt
  | test | eat | putLeft | putRight => cases hhalt

/-- The second fork has a greater number than the first one. -/
theorem held_lt_of_wants (hn : 2 ≤ n) {s : Shared n} {p : Point n} {fork held : Fin n}
    (hwants : Wants meal s fork (.running p : Status (Point n) (Fin n) Empty))
    (hheld : inside p held) : held.val < fork.val := by
  obtain ⟨q, hop⟩ := hwants
  obtain ⟨name, pc⟩ := p
  have hlt := firstFork_lt_secondFork hn name
  cases pc with
  | takeSecond =>
      obtain rfl : held = firstFork name := hheld
      rw [meal_takeSecond] at hop
      cases hop
      exact hlt
  | takeFirst => exact hheld.elim
  | test | eat | putLeft | putRight | finished => cases hop

/-- For any number of philosophers from two on and any interleaving: never are all
unfinished philosophers blocked, forks are put back by those who hold them, and in the end
each philosopher has eaten as often as it was hungry. -/
theorem meal_correct (hn : 2 ≤ n) (hunger : ℤ) (hhunger : 0 ≤ hunger)
    (c : Config (Fin n) (Shared n) (Point n) (Fin n) Empty) (h : (program n hunger).Reachable c) :
    ¬ ((∃ name, ¬ Finished c name) ∧ ∀ name, ¬ Finished c name → BlockedOnFork c name) ∧
      (∀ name p fork next, c.threads name = .running p → meal c.shared p = .unlock fork next →
        c.owner fork = some name) ∧
      ((∀ name, Finished c name) → ∀ name, c.shared.eaten name = hunger) := by
  have howned : Owned inside c := owned_of_reachable (tracks hn) (fun _ _ => id) h
  refine ⟨?_, ?_, ?_⟩
  · intro hall
    obtain ⟨hsome, hblocked⟩ := hall
    have hrank : ∀ i fork held, Wants meal c.shared fork (c.threads i) →
        Holds inside held (c.threads i) → held.val < fork.val := by
      intro i fork held hwants hholds
      rw [running_of_points not_wait h (i := i) rfl] at hwants hholds
      exact held_lt_of_wants hn hwants hholds
    obtain ⟨name, hname, hfree⟩ := exists_not_waiting (fun fork : Fin n => fork.val) howned
      (fun i hi => (Finished.pc_eq hi).2) hrank hsome
    obtain ⟨fork, hwants, hheld⟩ := hblocked name hname
    exact hheld (hfree fork hwants)
  · intro name p fork next hrun hop
    apply howned.owner_of_inside hrun
    have hproper := proper c.shared p
    rwa [hop] at hproper
  · intro hall name
    have hfed := fed_of_reachable hhunger h name
    have hfull := hfed.full (Finished.pc_eq (hall name)).1
    have hsum := hfed.sum
    omega

/-- Two philosophers, one after the other. -/
def oneAfterOther (i j : Fin 2) : Option (Config (Fin 2) (Shared 2) (Point 2) (Fin 2) Empty) :=
  (program 2 1).exec (program 2 1).init
    (List.replicate 7 (.run i none) ++ List.replicate 7 (.run j none))

theorem meal_correct_two : ∃ c, oneAfterOther 0 1 = some c ∧
    ∀ name, c.shared.eaten name = (1 : ℤ) := by
  have hrun : (oneAfterOther 0 1).isSome = true := by decide
  have hfinished : ∀ name, Finished ((oneAfterOther 0 1).get hrun) name := by
    intro name
    match name with
    | 0 => rfl
    | 1 => rfl
  exact ⟨(oneAfterOther 0 1).get hrun, (Option.some_get hrun).symm,
    (meal_correct le_rfl 1 (by decide) _
      (System.Reachable.init.exec (Option.some_get hrun).symm)).2.2 hfinished⟩

end PthreadBenchmark.Philosophers
