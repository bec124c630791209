import PthreadBenchmark.Shared.Threads
import Mathlib.Algebra.Order.BigOperators.Group.Finset
import Mathlib.Logic.Function.Basic

/-! # Barriers

A barrier counts the threads that have arrived, and starts a new generation with the last one. A
thread that has arrived waits for the generation to end. Threads that meet at two barriers in
each round separate the rounds into two parts. -/

namespace PthreadBenchmark

structure Barrier where
  arrived : ℕ
  generation : ℕ
  deriving DecidableEq, Repr

namespace Barrier

def empty : Barrier := ⟨0, 0⟩

/-- A thread arrives at a barrier for `total` threads. -/
def arrive (total : ℕ) (b : Barrier) : Barrier :=
  if b.arrived + 1 = total then ⟨0, b.generation + 1⟩ else ⟨b.arrived + 1, b.generation⟩

variable {ι : Type*} [Fintype ι] {b b' : Barrier} {arrivals : ι → ℕ} {t : ι}

/-- Each thread has arrived in all generations before, and some have arrived in this one. -/
structure Synced (b : Barrier) (arrivals : ι → ℕ) : Prop where
  lower : ∀ t, b.generation ≤ arrivals t
  upper : ∀ t, arrivals t ≤ b.generation + 1
  sum : ∑ t, arrivals t = Fintype.card ι * b.generation + b.arrived
  lt : b.arrived < Fintype.card ι

theorem synced_empty [Nonempty ι] : Synced empty fun _ : ι => 0 :=
  ⟨fun _ => le_rfl, fun _ => Nat.zero_le _, by simp [empty], Fintype.card_pos⟩

/-- An arrival leaves the generation as it is, or all threads have arrived. -/
theorem Synced.arrive [DecidableEq ι] (h : Synced b arrivals) (ht : arrivals t = b.generation) :
    Synced (b.arrive (Fintype.card ι)) (Function.update arrivals t (b.generation + 1)) ∧
      ((b.arrive (Fintype.card ι)).generation = b.generation ∨
        (b.arrive (Fintype.card ι)).generation = b.generation + 1) := by
  have hupper : ∀ u, Function.update arrivals t (b.generation + 1) u ≤ b.generation + 1 := by
    apply (Function.forall_update_iff arrivals fun _ a => a ≤ b.generation + 1).mpr
    exact ⟨le_rfl, fun u _ => h.upper u⟩
  have hlower : ∀ u, b.generation ≤ Function.update arrivals t (b.generation + 1) u := by
    apply (Function.forall_update_iff arrivals fun _ a => b.generation ≤ a).mpr
    exact ⟨Nat.le_succ _, fun u _ => h.lower u⟩
  have hsum : ∑ u, Function.update arrivals t (b.generation + 1) u =
      Fintype.card ι * b.generation + b.arrived + 1 := by
    have hweight := weight_update id arrivals t (b.generation + 1)
    have hold := h.sum
    simp only [weight, id_eq] at hweight
    omega
  have hlt := h.lt
  unfold Barrier.arrive
  split
  · next hlast =>
      have hall : ∀ u, Function.update arrivals t (b.generation + 1) u = b.generation + 1 := by
        intro u
        refine (Finset.sum_eq_sum_iff_of_le fun u _ => hupper u).mp ?_ u (Finset.mem_univ u)
        rw [hsum, Finset.sum_const, Finset.card_univ, Nat.nsmul_eq_mul, Nat.mul_add]
        omega
      refine ⟨⟨fun u => (hall u).ge, fun u => (hall u).le.trans (Nat.le_succ _), ?_, ?_⟩, .inr rfl⟩
      · rw [hsum]
        simp only [Nat.mul_add]
        omega
      · simp only
        omega
  · next hlast =>
      exact ⟨⟨hlower, hupper, by rw [hsum]; rfl, by simp only; omega⟩, .inl rfl⟩

/-! ## Two barriers -/

/-- The part of a round in which a thread is: before and at the first barrier, between the
barriers, at the second one, and behind it. -/
inductive Part where
  | first
  | firstWait
  | inner
  | secondWait
  | outer
  deriving DecidableEq, Repr

/-- The round of a thread, and its part. -/
structure Position where
  round : ℕ
  part : Part
  deriving DecidableEq, Repr

namespace Position

/-- The arrivals at the first barrier. -/
def first (p : Position) : ℕ :=
  match p.part with
  | .first => p.round
  | _ => p.round + 1

/-- The arrivals at the second barrier. -/
def second (p : Position) : ℕ :=
  match p.part with
  | .secondWait | .outer => p.round + 1
  | _ => p.round

/-- The generations that have ended for the thread. -/
def Passed (b b' : Barrier) (p : Position) : Prop :=
  match p.part with
  | .first => p.round ≤ b.generation ∧ p.round ≤ b'.generation
  | .firstWait => p.round ≤ b'.generation
  | .inner => p.round + 1 ≤ b.generation ∧ p.round ≤ b'.generation
  | .secondWait => p.round + 1 ≤ b.generation
  | .outer => p.round + 1 ≤ b.generation ∧ p.round + 1 ≤ b'.generation

theorem Passed.mono {b₁ b₂ b₁' b₂' : Barrier} {p : Position} (h : p.Passed b₁ b₁')
    (hb : b₁.generation ≤ b₂.generation) (hb' : b₁'.generation ≤ b₂'.generation) :
    p.Passed b₂ b₂' := by
  obtain ⟨round, part⟩ := p
  cases part <;> simp only [Passed] at h ⊢ <;> omega

/-- Where a thread is that has arrived at the first barrier before the generation has ended. -/
theorem Passed.eq_firstWait {p : Position} {r : ℕ} (h : p.Passed b b') (hb : b.generation = r)
    (hb' : b'.generation = r) (harrived : r + 1 ≤ p.first) : p = ⟨r, .firstWait⟩ := by
  obtain ⟨round, part⟩ := p
  cases part <;> simp only [Passed, Position.first] at h harrived <;>
    simp only [Position.mk.injEq, reduceCtorEq, and_true, and_false] <;> omega

/-- Where a thread is that has arrived at the second barrier before the generation has ended. -/
theorem Passed.eq_secondWait {p : Position} {r : ℕ} (h : p.Passed b b')
    (hb : b.generation = r + 1) (hb' : b'.generation = r) (harrived : r + 1 ≤ p.second) :
    p = ⟨r, .secondWait⟩ := by
  obtain ⟨round, part⟩ := p
  cases part <;> simp only [Passed, Position.second] at h harrived <;>
    simp only [Position.mk.injEq, reduceCtorEq, and_true, and_false] <;> omega

end Position

/-- Threads that meet at both barriers in each round. -/
structure Rounds (b b' : Barrier) (pos : ι → Position) : Prop where
  first : b.Synced fun t => (pos t).first
  second : b'.Synced fun t => (pos t).second
  passed : ∀ t, (pos t).Passed b b'

variable {pos : ι → Position} {r : ℕ}

theorem rounds_start [Nonempty ι] : Rounds empty empty fun _ : ι => ⟨0, .first⟩ :=
  ⟨synced_empty, synced_empty, fun _ => ⟨le_rfl, le_rfl⟩⟩

/-- Between the barriers, the first generation is ahead. -/
theorem Rounds.inner (h : Rounds b b' pos) (ht : pos t = ⟨r, .inner⟩) :
    b.generation = r + 1 ∧ b'.generation = r := by
  have hpassed := h.passed t
  have hlower := h.first.lower t
  have hlower' := h.second.lower t
  rw [ht] at hpassed
  simp only [ht, Position.first, Position.second, Position.Passed] at hlower hlower' hpassed
  omega

/-- Behind the second barrier, both generations have ended. -/
theorem Rounds.outer (h : Rounds b b' pos) (ht : pos t = ⟨r, .outer⟩) :
    b.generation = r + 1 ∧ b'.generation = r + 1 := by
  have hpassed := h.passed t
  have hlower := h.first.lower t
  have hlower' := h.second.lower t
  simp only [ht, Position.first, Position.second, Position.Passed] at hlower hlower' hpassed
  omega

variable [DecidableEq ι]

/-- A thread that comes to a new part without an arrival. -/
theorem Rounds.move (h : Rounds b b' pos) {p : Position} (hfirst : p.first = (pos t).first)
    (hsecond : p.second = (pos t).second) (hpassed : p.Passed b b') :
    Rounds b b' (Function.update pos t p) := by
  have hsame : ∀ f : Position → ℕ, f p = f (pos t) →
      (fun u => f (Function.update pos t p u)) = fun u => f (pos u) := by
    intro f hf
    refine (Function.comp_update f pos t p).trans ?_
    rw [hf]
    exact Function.update_eq_self t (f ∘ pos)
  refine ⟨?_, ?_, (Function.forall_update_iff pos fun _ p => p.Passed b b').mpr
    ⟨hpassed, fun u _ => h.passed u⟩⟩
  · rw [hsame Position.first hfirst]
    exact h.first
  · rw [hsame Position.second hsecond]
    exact h.second

theorem Rounds.passFirst (h : Rounds b b' pos) (ht : pos t = ⟨r, .firstWait⟩)
    (hne : b.generation ≠ r) : Rounds b b' (Function.update pos t ⟨r, .inner⟩) := by
  have hpassed := h.passed t
  have hupper := h.first.upper t
  apply h.move (by rw [ht]; rfl) (by rw [ht]; rfl)
  simp only [ht, Position.first, Position.Passed] at hupper hpassed ⊢
  omega

theorem Rounds.passSecond (h : Rounds b b' pos) (ht : pos t = ⟨r, .secondWait⟩)
    (hne : b'.generation ≠ r) : Rounds b b' (Function.update pos t ⟨r, .outer⟩) := by
  have hpassed := h.passed t
  have hupper := h.second.upper t
  apply h.move (by rw [ht]; rfl) (by rw [ht]; rfl)
  simp only [ht, Position.second, Position.Passed] at hupper hpassed ⊢
  omega

/-- A thread begins the next round. -/
theorem Rounds.next (h : Rounds b b' pos) (ht : pos t = ⟨r, .outer⟩) :
    Rounds b b' (Function.update pos t ⟨r + 1, .first⟩) := by
  have hpassed := h.passed t
  apply h.move (by rw [ht]; rfl) (by rw [ht]; rfl)
  simpa only [ht, Position.Passed] using hpassed

theorem le_arrive (b : Barrier) (total : ℕ) : b.generation ≤ (b.arrive total).generation := by
  unfold arrive
  split
  · exact Nat.le_succ _
  · exact le_rfl

/-- An arrival at the first barrier, which ends the generation only if all threads are there. -/
theorem Rounds.arriveFirst (h : Rounds b b' pos) (ht : pos t = ⟨r, .first⟩) :
    Rounds (b.arrive (Fintype.card ι)) b' (Function.update pos t ⟨r, .firstWait⟩) ∧
      b.generation = r ∧ b'.generation = r ∧
      ((b.arrive (Fintype.card ι)).generation = r ∨
        ((b.arrive (Fintype.card ι)).generation = r + 1 ∧
          ∀ u, u ≠ t → pos u = ⟨r, .firstWait⟩)) := by
  have hpassed := h.passed t
  have hlower := h.first.lower t
  have hlower' := h.second.lower t
  simp only [ht, Position.first, Position.second, Position.Passed] at hpassed hlower hlower'
  have hb : b.generation = r := by omega
  have hb' : b'.generation = r := by omega
  obtain ⟨hsynced, hcases⟩ := h.first.arrive (t := t) (by simp [ht, hb, Position.first])
  have hfirst : (fun u => (Function.update pos t ⟨r, .firstWait⟩ u).first) =
      Function.update (fun u => (pos u).first) t (b.generation + 1) := by
    rw [hb]
    exact Function.comp_update Position.first pos t _
  rw [← hfirst] at hsynced
  have hsecond : (fun u => (Function.update pos t ⟨r, .firstWait⟩ u).second) =
      fun u => (pos u).second := by
    apply (Function.comp_update Position.second pos t _).trans
    exact Function.update_eq_iff.mpr ⟨by simp [ht, Position.second], fun _ _ => rfl⟩
  rw [hb] at hcases
  refine ⟨⟨hsynced, hsecond ▸ h.second, ?_⟩, hb, hb', hcases.imp_right fun hlast => ?_⟩
  · apply (Function.forall_update_iff pos fun _ p => p.Passed _ b').mpr
    exact ⟨hb'.ge, fun u _ => (h.passed u).mono (le_arrive _ _) le_rfl⟩
  · refine ⟨hlast, fun u hu => (h.passed u).eq_firstWait hb hb' ?_⟩
    have hall := hsynced.lower u
    rwa [hlast, Function.update_of_ne hu] at hall

/-- An arrival at the second barrier, which ends the generation only if all threads are there. -/
theorem Rounds.arriveSecond (h : Rounds b b' pos) (ht : pos t = ⟨r, .inner⟩) :
    Rounds b (b'.arrive (Fintype.card ι)) (Function.update pos t ⟨r, .secondWait⟩) ∧
      ((b'.arrive (Fintype.card ι)).generation = r ∨
        ((b'.arrive (Fintype.card ι)).generation = r + 1 ∧
          ∀ u, u ≠ t → pos u = ⟨r, .secondWait⟩)) := by
  obtain ⟨hb, hb'⟩ := h.inner ht
  obtain ⟨hsynced, hcases⟩ := h.second.arrive (t := t) (by simp [ht, hb', Position.second])
  have hsecond : (fun u => (Function.update pos t ⟨r, .secondWait⟩ u).second) =
      Function.update (fun u => (pos u).second) t (b'.generation + 1) := by
    rw [hb']
    exact Function.comp_update Position.second pos t _
  rw [← hsecond] at hsynced
  have hfirst : (fun u => (Function.update pos t ⟨r, .secondWait⟩ u).first) =
      fun u => (pos u).first := by
    apply (Function.comp_update Position.first pos t _).trans
    exact Function.update_eq_iff.mpr ⟨by simp [ht, Position.first], fun _ _ => rfl⟩
  rw [hb'] at hcases
  refine ⟨⟨hfirst ▸ h.first, hsynced, ?_⟩, hcases.imp_right fun hlast => ?_⟩
  · apply (Function.forall_update_iff pos fun _ p => p.Passed b _).mpr
    exact ⟨hb.ge, fun u _ => (h.passed u).mono le_rfl (le_arrive _ _)⟩
  · refine ⟨hlast, fun u hu => (h.passed u).eq_secondWait hb hb' ?_⟩
    have hall := hsynced.lower u
    rwa [hlast, Function.update_of_ne hu] at hall

end Barrier

end PthreadBenchmark
