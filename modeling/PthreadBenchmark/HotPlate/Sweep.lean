import PthreadBenchmark.HotPlate.Model
import PthreadBenchmark.Shared.Blocks
import Mathlib.Logic.Function.Iterate
import Mathlib.Tactic.Ring
import Mathlib.Tactic.Linarith

/-! # Rows and sweeps -/

namespace PthreadBenchmark.HotPlate

variable {n : ℕ} {ν : Type*} {P : Problem ν} {gridSize : ℕ}

/-! ## Rows -/

theorem getD_allocateFrom {step : ℤ} {k w : ℕ} (hw : w < k) (x : ℤ) :
    (allocateFrom step k x).getD (2 * w) 0 = x + w * step ∧
      (allocateFrom step k x).getD (2 * w + 1) 0 = x + (w + 1) * step := by
  induction k generalizing w x with
  | zero => exact absurd hw (Nat.not_lt_zero _)
  | succ k ih =>
      cases w with
      | zero => simp [allocateFrom]
      | succ w =>
          obtain ⟨hfirst, hlast⟩ := ih (Nat.lt_of_succ_lt_succ hw) (x + step)
          have hindex : 2 * (w + 1) = 2 * w + 2 := by omega
          simp only [allocateFrom, hindex, List.getD_cons_succ, hfirst, hlast]
          push_cast
          constructor <;> ring

theorem first_eq (w : Fin n) : first gridSize n w = w * (gridSize / n : ℕ) := by
  rw [first, allocateWorkload, (getD_allocateFrom w.isLt 0).1, zero_add]

theorem last_eq (w : Fin n) : last gridSize n w = (w + 1) * (gridSize / n : ℕ) := by
  rw [last, allocateWorkload, (getD_allocateFrom w.isLt 0).2, zero_add]

/-- The row belongs to the worker `w`. -/
def Row (gridSize n : ℕ) (w : Fin n) (i : ℤ) : Prop :=
  first gridSize n w ≤ i ∧ i < last gridSize n w

theorem row_iff {w : Fin n} {i : ℤ} : Row gridSize n w i ↔ InBlock (gridSize / n : ℕ) w i := by
  rw [Row, first_eq, last_eq]
  exact Iff.rfl

theorem first_le_last (w : Fin n) : first gridSize n w ≤ last gridSize n w := by
  have hstep : (0 : ℤ) ≤ (gridSize / n : ℕ) := Int.natCast_nonneg _
  rw [first_eq, last_eq, add_mul]
  omega

/-- The rows that have a worker. -/
theorem exists_row_iff {i : ℤ} :
    (∃ w : Fin n, Row gridSize n w i) ↔ 0 ≤ i ∧ i < (n * (gridSize / n) : ℕ) := by
  simp only [row_iff]
  rw [exists_inBlock_iff (Int.natCast_nonneg _), Nat.cast_mul]

theorem Row.bounds {w : Fin n} {i : ℤ} (h : Row gridSize n w i) : 0 ≤ i ∧ i < gridSize := by
  obtain ⟨h0, hi⟩ := exists_row_iff.mp ⟨w, h⟩
  exact ⟨h0, hi.trans_le (by exact_mod_cast Nat.mul_div_le gridSize n)⟩

theorem Row.inGrid {w : Fin n} {i j : ℤ} (h : Row gridSize n w i) (hj : 0 ≤ j ∧ j < gridSize) :
    InGrid gridSize i j :=
  ⟨h.bounds.1, h.bounds.2, hj⟩

/-- If the rows can be divided evenly, each one has a worker. -/
theorem exists_row (hdvd : n ∣ gridSize) {i : ℤ} (h0 : 0 ≤ i) (hi : i < gridSize) :
    ∃ w : Fin n, Row gridSize n w i := by
  rw [exists_row_iff, Nat.mul_div_cancel' hdvd]
  exact ⟨h0, hi⟩

/-- No row has two workers. -/
theorem Row.unique {w w' : Fin n} {i : ℤ} (h : Row gridSize n w i) (h' : Row gridSize n w' i) :
    w = w' := by
  have heq := (row_iff.mp h).unique (row_iff.mp h')
  exact Fin.ext (by exact_mod_cast heq)

/-! ## Sweeps -/

/-- A sequential sweep: each cell that is not locked becomes the stencil of the plate before. -/
def sweep (P : Problem ν) (plate : Plate ν) : Plate ν := fun i j =>
  if P.lockedCells i j = '0' then P.stencil ((neighbours i j).map fun c => plate c.1 c.2)
  else plate i j

/-- The plate behind `r` sweeps. -/
def sweeps (P : Problem ν) (plate : Plate ν) (r : ℕ) : Plate ν := (sweep P)^[r] plate

theorem sweeps_succ (P : Problem ν) (plate : Plate ν) (r : ℕ) :
    sweeps P plate (r + 1) = sweep P (sweeps P plate r) :=
  Function.iterate_succ_apply' ..

/-- The border of the grid is locked. -/
def BorderLocked (P : Problem ν) : Prop :=
  ∀ i j, InGrid P.gridSize i j →
    i = 0 ∨ j = 0 ∨ j = P.gridSize - 1 ∨ i = P.gridSize - 1 → P.lockedCells i j ≠ '0'

/-- Around a cell that is not locked, all cells are in the grid. -/
theorem BorderLocked.neighbours (h : BorderLocked P) {i j : ℤ} (hgrid : InGrid P.gridSize i j)
    (hfree : P.lockedCells i j = '0') : ∀ c ∈ neighbours i j, InGrid P.gridSize c.1 c.2 := by
  have hborder : ¬ (i = 0 ∨ j = 0 ∨ j = P.gridSize - 1 ∨ i = P.gridSize - 1) :=
    fun hborder => h i j hgrid hborder hfree
  obtain ⟨hi, hi', hj, hj'⟩ := hgrid
  simp only [HotPlate.neighbours, List.forall_mem_cons, List.not_mem_nil, false_implies,
    implies_true, and_true, InGrid]
  omega

theorem mem_neighbours_of_steady {i j : ℤ} {c : ℤ × ℤ} (h : c ∈ steadyNeighbours i j) :
    c ∈ neighbours i j := by
  simp only [steadyNeighbours, neighbours, List.mem_cons, List.not_mem_nil, or_false] at h ⊢
  tauto

end PthreadBenchmark.HotPlate
