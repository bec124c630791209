import PthreadBenchmark.HotPlate.Init
import PthreadBenchmark.Shared.PthreadRules
import Mathlib.Algebra.Order.Ring.Rat
import Mathlib.Tactic.Linarith

/-! # The values on the hot plate

With exact numbers the new value of a cell is a weighted mean of five old ones. No part of this
needs the barriers: any number of workers may write and copy the plates in any order. -/

namespace PthreadBenchmark.HotPlate

open Pthread

/-- The formula of `update_plate`, for the five values in the order of `neighbours`. -/
def average : List ℚ → ℚ
  | [a, b, c, d, e] => (a + b + c + d + 4 * e) * (1 / 8)
  | _ => 0

def InRange (v : ℚ) : Prop := 0 ≤ v ∧ v ≤ 100

/-- The weights are those of a mean. -/
theorem inRange_average {values : List ℚ} (h : ∀ v ∈ values, InRange v) :
    InRange (average values) := by
  unfold average
  split
  · next a b c d e =>
      have ha := h a (by simp)
      have hb := h b (by simp)
      have hc := h c (by simp)
      have hd := h d (by simp)
      have he := h e (by simp)
      simp only [InRange] at *
      constructor <;> linarith
  · exact ⟨le_rfl, by decide⟩

variable {n gridSize : ℕ} {p : Plates ℚ} {steady : List (List ℚ) → Bool} {P : Problem ℚ}
  {initial : Plate ℚ} {s : Shared ℚ} {ps : Tid n → Point n ℚ} {t : Tid n} {q : Point n ℚ} {i j : ℤ}
  {v : ℚ}

theorem inRange_finalCell : InRange (finalCell gridSize i j : ℚ × Char).1 := by
  unfold finalCell firstCell
  split_ifs <;> exact ⟨by norm_num, by norm_num⟩

/-- A value that a cell may have. -/
structure Allowed (P : Problem ℚ) (initial : Plate ℚ) (i j : ℤ) (v : ℚ) : Prop where
  inRange : InRange v
  locked : P.lockedCells i j ≠ '0' → v = initial i j

/-- What a thread knows of the values that it has read. -/
def Point.Knows (P : Problem ℚ) (initial : Plate ℚ) : Point n ℚ → Prop
  | .worker _ _ (.read i j _ _ values) => P.lockedCells i j = '0' ∧ ∀ v ∈ values, InRange v
  | .main _ (.copyWrite i j v) => InGrid P.gridSize i j → Allowed P initial i j v
  | _ => True

structure Bounded (P : Problem ℚ) (initial : Plate ℚ) (s : Shared ℚ) (ps : Tid n → Point n ℚ) :
    Prop where
  mainPlate : ∀ i j, InGrid P.gridSize i j → Allowed P initial i j (s.mainPlate i j)
  prevPlate : ∀ i j, InGrid P.gridSize i j → Allowed P initial i j (s.prevPlate i j)
  knows : ∀ t, (ps t).Knows P initial

/-- A step that leaves the plates alone. -/
theorem Bounded.keep {s' : Shared ℚ} (h : Bounded P initial s ps)
    (hmain : s'.mainPlate = s.mainPlate) (hprev : s'.prevPlate = s.prevPlate)
    (hknows : q.Knows P initial) : Bounded P initial s' (Function.update ps t q) where
  mainPlate := hmain ▸ h.mainPlate
  prevPlate := hprev ▸ h.prevPlate
  knows := (Function.forall_update_iff ps fun _ p => p.Knows P initial).mpr
    ⟨hknows, fun t _ => h.knows t⟩

theorem Bounded.move (h : Bounded P initial s ps) (hknows : q.Knows P initial) :
    Bounded P initial s (Function.update ps t q) :=
  h.keep rfl rfl hknows

/-- A write to a cell, in a plate of which the other cells are allowed. -/
theorem allowed_set {plate : Plate ℚ} {a b : ℤ}
    (h : ∀ i j, InGrid P.gridSize i j → Allowed P initial i j (plate i j))
    (hv : InGrid P.gridSize a b → Allowed P initial a b v) (hgrid : InGrid P.gridSize i j) :
    Allowed P initial i j (plate.set a b v i j) := by
  by_cases hcell : i = a ∧ j = b
  · obtain ⟨rfl, rfl⟩ := hcell
    simpa only [Plate.set, and_self, if_true] using hv hgrid
  · simpa only [Plate.set, if_neg hcell] using h i j hgrid

theorem Bounded.worker (hstencil : P.stencil = average) (h : Bounded P initial s ps) {w : Fin n}
    {r : ℕ} {pc : WorkerPc ℚ} (hknows : (.worker w r pc : Point n ℚ).Knows P initial)
    (hq : (updatePlate P s w r pc : Step n ℚ).next? = some q) :
    Bounded P initial ((updatePlate P s w r pc : Step n ℚ).after s) (Function.update ps t q) := by
  cases pc with
  | first | second =>
      cases hq
      exact h.keep rfl rfl trivial
  | firstWait generation | secondWait generation =>
      simp only [updatePlate] at hq ⊢
      rcases Op.await_cases hq with ⟨-, rfl, hafter⟩ | ⟨rfl, hafter⟩
      · rw [hafter]
        exact h.move trivial
      · rw [hafter]
        exact h.move trivial
  | argsLock | argsBegin | argsEnd | argsUnlock =>
      cases hq
      exact h.move trivial
  | row i e =>
      cases hq
      split <;> exact h.move trivial
  | cell i j e =>
      simp only [updatePlate] at hq ⊢
      split at hq <;> cases hq
      · next hj =>
          rw [if_pos hj]
          split
          · next hfree => exact h.move ⟨hfree, fun v hv => by cases hv⟩
          · exact h.move trivial
      · next hj =>
          rw [if_neg hj]
          exact h.move trivial
  | read i j e todo values =>
      obtain ⟨hfree, hvalues⟩ := hknows
      cases todo with
      | nil =>
          cases hq
          have hallowed : Allowed P initial i j (P.stencil values) :=
            ⟨by rw [hstencil]; exact inRange_average hvalues, fun hlocked => absurd hfree hlocked⟩
          refine ⟨fun a b => allowed_set h.mainPlate fun _ => hallowed, h.prevPlate, ?_⟩
          exact Bounded.knows (h.move trivial)
      | cons c todo =>
          obtain ⟨a, b⟩ := c
          by_cases hgrid : InGrid P.gridSize a b
          · simp only [updatePlate, if_pos hgrid] at hq ⊢
            cases hq
            refine h.move ⟨hfree, fun v hv => ?_⟩
            rcases List.mem_append.mp hv with hv | hv
            · exact hvalues v hv
            · rw [List.mem_singleton.mp hv]
              exact (h.prevPlate a b hgrid).inRange
          · simp only [updatePlate, if_neg hgrid] at hq ⊢
            cases hq
            exact h.move trivial

theorem Bounded.main (h : Bounded P initial s ps) {r : ℕ} {pc : MainPc ℚ}
    (hknows : (.main r pc : Point n ℚ).Knows P initial)
    (hq : (startUpdate P s r pc : Step n ℚ).next? = some q) :
    Bounded P initial ((startUpdate P s r pc : Step n ℚ).after s) (Function.update ps t q) := by
  cases pc with
  | first | second =>
      cases hq
      exact h.keep rfl rfl trivial
  | firstWait generation | secondWait generation =>
      simp only [startUpdate] at hq ⊢
      rcases Op.await_cases hq with ⟨-, rfl, hafter⟩ | ⟨rfl, hafter⟩
      · rw [hafter]
        exact h.move trivial
      · rw [hafter]
        exact h.move trivial
  | copyRow i =>
      cases hq
      split <;> exact h.move trivial
  | copyCell i j =>
      cases hq
      split
      · exact h.move fun hgrid => h.mainPlate i j hgrid
      · exact h.move trivial
  | copyWrite i j v =>
      cases hq
      refine ⟨h.mainPlate, fun a b => allowed_set h.prevPlate hknows, ?_⟩
      exact Bounded.knows (h.move trivial)
  | steadyRow i seen =>
      simp only [startUpdate] at hq ⊢
      split at hq
      · next hi =>
          cases hq
          rw [if_pos hi]
          exact h.move trivial
      · next hi =>
          cases hq
          rw [if_neg hi]
          split <;> exact h.move trivial
  | steadyCell i j seen =>
      simp only [startUpdate] at hq ⊢
      split at hq
      · next hj =>
          cases hq
          rw [if_pos hj]
          split <;> exact h.move trivial
      · next hj =>
          cases hq
          rw [if_neg hj]
          exact h.move trivial
  | steadyRead i j seen todo values =>
      cases todo with
      | nil =>
          cases hq
          exact h.move trivial
      | cons c todo =>
          simp only [startUpdate] at hq ⊢
          split at hq <;> cases hq
          · next hgrid =>
              rw [if_pos hgrid]
              exact h.move trivial
          · next hgrid =>
              rw [if_neg hgrid]
              exact h.move trivial
  | returned => cases hq

/-! ## Runs -/

/-- `initPlate` leaves equal plates with values in the range. -/
theorem inRange_initPlate (hgrid : InGrid gridSize i j) :
    InRange ((initPlate gridSize p).plate i j) ∧
      (initPlate gridSize p).prevPlate i j = (initPlate gridSize p).plate i j := by
  have hcell := cell_initPlate (p := p) hgrid
  simp only [Plates.cell, both, Prod.mk.injEq] at hcell
  obtain ⟨hplate, hprev, -⟩ := hcell
  refine ⟨?_, hprev.trans hplate.symm⟩
  rw [hplate]
  exact inRange_finalCell

theorem bounded_start :
    Bounded (initialProblem gridSize p average steady) (initPlate gridSize p).plate
      ⟨(initPlate gridSize p).plate, (initPlate gridSize p).prevPlate, .empty, .empty⟩
      (start : Tid n → Point n ℚ) where
  mainPlate i j hgrid := ⟨(inRange_initPlate hgrid).1, fun _ => rfl⟩
  prevPlate i j hgrid := by
    obtain ⟨hrange, heq⟩ := inRange_initPlate (p := p) hgrid
    refine ⟨?_, fun _ => heq⟩
    rw [← heq] at hrange
    exact hrange
  knows t := by cases t <;> trivial

theorem Bounded.step (hstencil : P.stencil = average) (h : Bounded P initial s ps)
    (hq : (code P s (ps t)).next? = some q) :
    Bounded P initial ((code P s (ps t)).after s) (Function.update ps t q) := by
  have hknows := h.knows t
  cases hp : ps t with
  | worker w r pc =>
      rw [hp] at hq hknows
      exact h.worker hstencil hknows hq
  | main r pc =>
      rw [hp] at hq hknows
      exact h.main hknows hq
  | fault =>
      rw [hp] at hq
      cases hq

/-- Any number of workers, in any interleaving and behind any number of rounds, from the plates of
`initPlate`: all cells of both plates stay between 0 and 100, and locked cells never change. -/
theorem plates_bounded (n gridSize : ℕ) (p : Plates ℚ) (steady : List (List ℚ) → Bool)
    (c : Config (Tid n) (Shared ℚ) (Point n ℚ) Mutex Empty)
    (hc : (program n (initialProblem gridSize p average steady) (initPlate gridSize p).plate
      (initPlate gridSize p).prevPlate).Reachable c) (i j : ℤ) (hgrid : InGrid gridSize i j) :
    (0 ≤ c.shared.mainPlate i j ∧ c.shared.mainPlate i j ≤ 100) ∧
    (0 ≤ c.shared.prevPlate i j ∧ c.shared.prevPlate i j ≤ 100) ∧
    ((initPlate gridSize p).lockedCells i j ≠ '0' →
      c.shared.mainPlate i j = (initPlate gridSize p).plate i j ∧
        c.shared.prevPlate i j = (initPlate gridSize p).prevPlate i j) := by
  have hbounded :
      Bounded (initialProblem gridSize p average steady) (initPlate gridSize p).plate c.shared
        (points c) := by
    apply points_invariant hc bounded_start
    intro s ps t q h hq
    exact h.step rfl hq
  have hmain := hbounded.mainPlate i j hgrid
  have hprev := hbounded.prevPlate i j hgrid
  refine ⟨hmain.inRange, hprev.inRange, fun hlocked => ⟨hmain.locked hlocked, ?_⟩⟩
  rw [hprev.locked hlocked, (inRange_initPlate hgrid).2]

def zeroPlates : Plates ℚ := ⟨fun _ _ => 0, fun _ _ => 0, fun _ _ => '0'⟩

/-- The smallest plate that has a free cell, with one worker. -/
def smallPlate : System (Config (Tid 1) (Shared ℚ) (Point 1 ℚ) Mutex Empty) (Action (Tid 1)) :=
  program 1 (initialProblem 3 zeroPlates average fun _ => false) (initPlate 3 zeroPlates).plate
    (initPlate 3 zeroPlates).prevPlate

def smallRound (i : Fin 1) : Option (Config (Tid 1) (Shared ℚ) (Point 1 ℚ) Mutex Empty) :=
  smallPlate.exec smallPlate.init
    (.run (some i) none :: List.replicate 3 (Action.run none none) ++
      List.replicate 40 (Action.run (some i) none) ++ List.replicate 30 (Action.run none none))

theorem plates_bounded_small : ∃ c, smallRound 0 = some c ∧
    (0 ≤ c.shared.mainPlate 1 1 ∧ c.shared.mainPlate 1 1 ≤ 100) ∧
    (0 ≤ c.shared.prevPlate 1 1 ∧ c.shared.prevPlate 1 1 ≤ 100) ∧
    c.shared.mainPlate 2 1 = 100 := by
  have hrun : (smallRound 0).isSome = true := by decide +kernel
  obtain ⟨c, hc⟩ := Option.isSome_iff_exists.mp hrun
  have hreachable := System.Reachable.init.exec hc
  obtain ⟨hmain, hprev, -⟩ := plates_bounded 1 3 zeroPlates (fun _ => false) c hreachable 1 1
    (by decide)
  have hedge := (plates_bounded 1 3 zeroPlates (fun _ => false) c hreachable 2 1 (by decide)).2.2
    (by decide +kernel)
  exact ⟨c, hc, hmain, hprev, hedge.1.trans (by decide +kernel)⟩

end PthreadBenchmark.HotPlate
