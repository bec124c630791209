import PthreadBenchmark.HotPlate.Model

/-! # The plates and the mask that `initPlate` leaves -/

namespace PthreadBenchmark.HotPlate

/-- `for (i = 0; i < n; i++)`. -/
def forRange {σ : Type*} (n : ℕ) (body : ℤ → σ → σ) (s : σ) : σ :=
  (List.range n).foldl (fun s (i : ℕ) => body i s) s

/-- The rule of the loop. -/
theorem forRange_rule {σ : Type*} (P : ℕ → σ → Prop) (n : ℕ) (body : ℤ → σ → σ) {s : σ}
    (hinit : P 0 s) (hstep : ∀ k s, k < n → P k s → P (k + 1) (body k s)) :
    P n (forRange n body s) := by
  induction n with
  | zero => exact hinit
  | succ n ih =>
      have hn := ih fun k s hk => hstep k s (Nat.lt_succ_of_lt hk)
      unfold forRange at hn ⊢
      rw [List.range_succ, List.foldl_append]
      exact hstep n _ (Nat.lt_succ_self n) hn

structure Plates (ν : Type*) where
  plate : Plate ν
  prevPlate : Plate ν
  lockedCells : Plate Char

variable {ν : Type*}

def Plates.setCell (p : Plates ν) (i j : ℤ) (v : ν) (c : Char) : Plates ν :=
  ⟨p.plate.set i j v, p.prevPlate.set i j v, p.lockedCells.set i j c⟩

def initCell [NatCast ν] (gridSize : ℕ) (i j : ℤ) (p : Plates ν) : Plates ν :=
  if i = 0 ∨ j = 0 ∨ j = gridSize - 1 then p.setCell i j (0 : ℕ) '1'
  else if i = gridSize - 1 then p.setCell i j (100 : ℕ) '1'
  else if i = 400 ∧ 0 ≤ j ∧ j ≤ 330 then p.setCell i j (100 : ℕ) '1'
  else if i = 200 ∧ j = 500 then p.setCell i j (100 : ℕ) '1'
  else p.setCell i j (50 : ℕ) '0'

def initCells [NatCast ν] (gridSize : ℕ) : Plates ν → Plates ν :=
  forRange gridSize fun i => forRange gridSize fun j => initCell gridSize i j

def lockRows [NatCast ν] (gridSize : ℕ) : Plates ν → Plates ν :=
  forRange gridSize fun i p =>
    if i % 20 = 0 then forRange gridSize (fun j p => p.setCell i j (100 : ℕ) '1') p else p

def lockColumns [NatCast ν] (gridSize : ℕ) : Plates ν → Plates ν :=
  forRange gridSize fun j p =>
    if j % 20 = 0 then forRange gridSize (fun i p => p.setCell i j (0 : ℕ) '1') p else p

def initPlate [NatCast ν] (gridSize : ℕ) (p : Plates ν) : Plates ν :=
  lockColumns gridSize (lockRows gridSize (initCells gridSize p))

/-- The grid and the locks that `initPlate` leaves, whatever has been there before. -/
def initialProblem [NatCast ν] (gridSize : ℕ) (p : Plates ν) (stencil : List ν → ν)
    (steady : List (List ν) → Bool) : Problem ν :=
  ⟨gridSize, (initPlate gridSize p).lockedCells, stencil, steady⟩

/-! ## Cells -/

/-- The values of a cell in the two plates, and its lock. -/
def Plates.cell (p : Plates ν) (i j : ℤ) : ν × ν × Char :=
  (p.plate i j, p.prevPlate i j, p.lockedCells i j)

/-- The same value in both plates. -/
def both (v : ν × Char) : ν × ν × Char := (v.1, v.1, v.2)

variable {gridSize : ℕ} {p : Plates ν} {i j a b : ℤ}

theorem cell_setCell (v : ν) (c : Char) : (p.setCell a b v c).cell i j =
    if a = i ∧ b = j then both (v, c) else p.cell i j := by
  by_cases hcell : i = a ∧ j = b
  · obtain ⟨rfl, rfl⟩ := hcell
    simp [Plates.cell, Plates.setCell, Plate.set, both]
  · have hne : ¬ (a = i ∧ b = j) := fun h => hcell ⟨h.1.symm, h.2.symm⟩
    simp only [Plates.cell, Plates.setCell, Plate.set, if_neg hcell, if_neg hne]

/-- A loop of which one round changes the cell. -/
theorem cell_forRange {n : ℕ} {body : ℤ → Plates ν → Plates ν} {k : ℤ} {v : ν × ν × Char}
    {C : Prop} [Decidable C] (hk : 0 ≤ k ∧ k < n)
    (hbody : ∀ (a : ℤ) p, (body a p).cell i j = if a = k ∧ C then v else p.cell i j) :
    (forRange n body p).cell i j = if C then v else p.cell i j := by
  have hall := forRange_rule (fun m q => q.cell i j = if k < m ∧ C then v else p.cell i j) n body
    (s := p) (by rw [if_neg (by omega)]) ?_
  · rw [hall]
    simp [hk.2]
  · intro m q _ hq
    rw [hbody, hq]
    by_cases hC : C
    · simp only [hC, and_true]
      split
      · rw [if_pos (by omega)]
      · split
        · rw [if_pos (by omega)]
        · rw [if_neg (by omega)]
    · simp [hC]

/-- What the first pass writes to a cell. -/
def firstCell [NatCast ν] (gridSize : ℕ) (i j : ℤ) : ν × Char :=
  if i = 0 ∨ j = 0 ∨ j = gridSize - 1 then ((0 : ℕ), '1')
  else if i = gridSize - 1 then ((100 : ℕ), '1')
  else if i = 400 ∧ 0 ≤ j ∧ j ≤ 330 then ((100 : ℕ), '1')
  else if i = 200 ∧ j = 500 then ((100 : ℕ), '1')
  else ((50 : ℕ), '0')

/-- What is left in a cell behind the three passes, of which the later ones win. -/
def finalCell [NatCast ν] (gridSize : ℕ) (i j : ℤ) : ν × Char :=
  if j % 20 = 0 then ((0 : ℕ), '1')
  else if i % 20 = 0 then ((100 : ℕ), '1')
  else firstCell gridSize i j

theorem cell_initCell [NatCast ν] : (initCell gridSize a b p).cell i j =
    if a = i ∧ b = j then both (firstCell gridSize i j) else p.cell i j := by
  have hset : ∃ v c, firstCell gridSize a b = (v, c) ∧
      initCell gridSize a b p = p.setCell a b v c := by
    unfold initCell firstCell
    split_ifs <;> exact ⟨_, _, rfl, rfl⟩
  obtain ⟨v, c, hcell, hset⟩ := hset
  rw [hset, cell_setCell, ← hcell]
  split
  · next hcell =>
      obtain ⟨rfl, rfl⟩ := hcell
      rfl
  · rfl

variable (hgrid : InGrid gridSize i j)
include hgrid

theorem cell_initCells [NatCast ν] :
    (initCells gridSize p).cell i j = both (firstCell gridSize i j) := by
  have hrow : ∀ (a : ℤ) (p : Plates ν),
      (forRange gridSize (fun j => initCell gridSize a j) p).cell i j =
      if a = i then both (firstCell gridSize i j) else p.cell i j := by
    intro a p
    refine cell_forRange (k := j) hgrid.2.2 fun b p => ?_
    rw [cell_initCell]
    simp only [and_comm]
  have hall : (initCells gridSize p).cell i j =
      if True then both (firstCell gridSize i j) else p.cell i j := by
    refine cell_forRange (k := i) ⟨hgrid.1, hgrid.2.1⟩ fun a p => ?_
    simp only [hrow, and_true]
  rwa [if_pos trivial] at hall

/-- A loop along a row or a column that is not skipped. -/
theorem cell_lockRow {v : ν} (a : ℤ) :
    (forRange gridSize (fun j p => p.setCell a j v '1') p).cell i j =
      if a = i then both (v, '1') else p.cell i j := by
  refine cell_forRange (k := j) hgrid.2.2 fun b p => ?_
  rw [cell_setCell]
  simp only [and_comm]

theorem cell_lockColumn {v : ν} (b : ℤ) :
    (forRange gridSize (fun i p => p.setCell i b v '1') p).cell i j =
      if b = j then both (v, '1') else p.cell i j :=
  cell_forRange (k := i) ⟨hgrid.1, hgrid.2.1⟩ fun _ _ => cell_setCell v '1'

theorem cell_lockRows [NatCast ν] : (lockRows gridSize p).cell i j =
    if i % 20 = 0 then both (((100 : ℕ) : ν), '1') else p.cell i j := by
  refine cell_forRange (k := i) ⟨hgrid.1, hgrid.2.1⟩ fun a p => ?_
  by_cases ha : a % 20 = 0
  · rw [if_pos ha, cell_lockRow hgrid]
    by_cases hi : a = i
    · subst hi
      simp [ha]
    · simp [hi]
  · rw [if_neg ha, if_neg]
    rintro ⟨rfl, h⟩
    exact ha h

theorem cell_lockColumns [NatCast ν] : (lockColumns gridSize p).cell i j =
    if j % 20 = 0 then both (((0 : ℕ) : ν), '1') else p.cell i j := by
  refine cell_forRange (k := j) hgrid.2.2 fun b p => ?_
  by_cases hb : b % 20 = 0
  · rw [if_pos hb, cell_lockColumn hgrid]
    by_cases hj : b = j
    · subst hj
      simp [hb]
    · simp [hj]
  · rw [if_neg hb, if_neg]
    rintro ⟨rfl, h⟩
    exact hb h

/-- All cells behind `initPlate`. -/
theorem cell_initPlate [NatCast ν] :
    (initPlate gridSize p).cell i j = both (finalCell gridSize i j) := by
  rw [initPlate, cell_lockColumns hgrid, cell_lockRows hgrid, cell_initCells hgrid, finalCell]
  split_ifs <;> rfl

omit hgrid

/-- The cells that are left free. -/
theorem finalCell_free_iff [NatCast ν] : (finalCell gridSize i j : ν × Char).2 = '0' ↔
    i % 20 ≠ 0 ∧ j % 20 ≠ 0 ∧ i ≠ gridSize - 1 ∧ j ≠ gridSize - 1 := by
  unfold finalCell firstCell
  split_ifs <;> simp only [Char.reduceEq, false_iff, true_iff] <;> omega

def Border (gridSize : ℕ) (i j : ℤ) : Prop :=
  i = 0 ∨ j = 0 ∨ j = gridSize - 1 ∨ i = gridSize - 1

/-- The cell has been set in both plates, and it is locked if it is at the border. -/
structure Ready (gridSize : ℕ) (p : Plates ν) (i j : ℤ) : Prop where
  plate : p.plate i j = p.prevPlate i j
  locked : Border gridSize i j → p.lockedCells i j ≠ '0'

/-- All three passes leave equal plates and a locked border. -/
theorem ready_initPlate [NatCast ν] (hgrid : InGrid gridSize i j) :
    Ready gridSize (initPlate gridSize p) i j := by
  have hcell := cell_initPlate (p := p) hgrid
  simp only [Plates.cell, both, Prod.mk.injEq] at hcell
  obtain ⟨hplate, hprev, hlock⟩ := hcell
  refine ⟨hplate.trans hprev.symm, fun hborder hfree => ?_⟩
  rw [hlock, finalCell_free_iff] at hfree
  rw [Border] at hborder
  omega

end PthreadBenchmark.HotPlate
