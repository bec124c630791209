import PthreadBenchmark.Shared.Barrier
import PthreadBenchmark.Shared.Blocking
import Mathlib.Data.Int.Notation

/-! # The hot plate of `hot_plate_barriers.c`

The grid has any size, and the values on it any type, with the formulas of the source as
functions of the values that they read. A thread that reads outside of the grid stops at
`fault`. -/

namespace PthreadBenchmark.HotPlate

abbrev Plate (ν : Type*) := ℤ → ℤ → ν

def Plate.set {ν : Type*} (plate : Plate ν) (i j : ℤ) (v : ν) : Plate ν :=
  fun a b => if a = i ∧ b = j then v else plate a b

/-- `stencil` is the new value from the five values in the order of `neighbours`, and `steady`
tells whether to go on from the values that it has read for each cell that is not locked. -/
structure Problem (ν : Type*) where
  gridSize : ℕ
  lockedCells : Plate Char
  stencil : List ν → ν
  steady : List (List ν) → Bool

def InGrid (gridSize : ℕ) (i j : ℤ) : Prop :=
  0 ≤ i ∧ i < gridSize ∧ 0 ≤ j ∧ j < gridSize

instance (gridSize : ℕ) (i j : ℤ) : Decidable (InGrid gridSize i j) :=
  inferInstanceAs (Decidable (_ ∧ _))

/-- The cells that `update_plate` reads for a cell. -/
def neighbours (i j : ℤ) : List (ℤ × ℤ) :=
  [(i + 1, j), (i, j + 1), (i - 1, j), (i, j - 1), (i, j)]

/-- The cells that `steady` reads for a cell. -/
def steadyNeighbours (i j : ℤ) : List (ℤ × ℤ) :=
  [(i, j), (i + 1, j), (i - 1, j), (i, j + 1), (i, j - 1)]

/-! ## The rows of the workers -/

/-- The bounds that a loop of `allocateWorkload` with `k` rounds left stores from `first` on. -/
def allocateFrom (step : ℤ) : ℕ → ℤ → List ℤ
  | 0, _ => []
  | k + 1, first => first :: (first + step) :: allocateFrom step k (first + step)

def allocateWorkload (gridSize nthreads : ℕ) : List ℤ :=
  allocateFrom (gridSize / nthreads : ℕ) nthreads 0

/-- `plate_args->begin` of the worker `w`. -/
def first (gridSize nthreads w : ℕ) : ℤ := (allocateWorkload gridSize nthreads).getD (2 * w) 0

/-- `plate_args->end` of the worker `w`. -/
def last (gridSize nthreads w : ℕ) : ℤ := (allocateWorkload gridSize nthreads).getD (2 * w + 1) 0

/-! ## Threads -/

structure Shared (ν : Type*) where
  mainPlate : Plate ν
  prevPlate : Plate ν
  barrierFirst : Barrier
  barrierSecond : Barrier

inductive Mutex where
  | runnable
  deriving DecidableEq, Repr

/-- Points of `update_plate`, which works on the rows from `b` to `e`. -/
inductive WorkerPc (ν : Type*) where
  | first
  | firstWait (generation : ℕ)
  | argsLock
  | argsBegin
  | argsEnd (b : ℤ)
  | argsUnlock (b e : ℤ)
  | row (i e : ℤ)
  | cell (i j e : ℤ)
  | read (i j e : ℤ) (todo : List (ℤ × ℤ)) (values : List ν)
  | second
  | secondWait (generation : ℕ)

/-- Points of the loop of `startUpdate`, with those of `copy` and `steady`. -/
inductive MainPc (ν : Type*) where
  | first
  | firstWait (generation : ℕ)
  | second
  | secondWait (generation : ℕ)
  | copyRow (i : ℤ)
  | copyCell (i j : ℤ)
  | copyWrite (i j : ℤ) (v : ν)
  | steadyRow (i : ℤ) (seen : List (List ν))
  | steadyCell (i j : ℤ) (seen : List (List ν))
  | steadyRead (i j : ℤ) (seen : List (List ν)) (todo : List (ℤ × ℤ)) (values : List ν)
  | returned

/-- `round` counts the rounds of a loop that are over. -/
inductive Point (n : ℕ) (ν : Type*) where
  | worker (w : Fin n) (round : ℕ) (pc : WorkerPc ν)
  | main (round : ℕ) (pc : MainPc ν)
  | fault

/-- The workers, and `main` as `none`. -/
abbrev Tid (n : ℕ) := Option (Fin n)

abbrev Step (n : ℕ) (ν : Type*) := Op (Tid n) (Shared ν) (Point n ν) Mutex Empty

variable {n : ℕ} {ν : Type*}

def updatePlate (P : Problem ν) (s : Shared ν) (w : Fin n) (r : ℕ) : WorkerPc ν → Step n ν
  | .first =>
    .run { s with barrierFirst := s.barrierFirst.arrive (n + 1) }
      (.worker w r (.firstWait s.barrierFirst.generation))
  | .firstWait generation =>
    .await (s.barrierFirst.generation ≠ generation) s s (.worker w r (.firstWait generation))
      (.worker w r .argsLock)
  | .argsLock => .lock .runnable (.worker w r .argsBegin)
  | .argsBegin => .run s (.worker w r (.argsEnd (HotPlate.first P.gridSize n w)))
  | .argsEnd b => .run s (.worker w r (.argsUnlock b (last P.gridSize n w)))
  | .argsUnlock b e => .unlock .runnable (.worker w r (.row b e))
  | .row i e => .run s (.worker w r (if i < e then .cell i 0 e else .second))
  | .cell i j e =>
    if j < P.gridSize then
      .run s (.worker w r
        (if P.lockedCells i j = '0' then .read i j e (neighbours i j) [] else .cell i (j + 1) e))
    else .run s (.worker w r (.row (i + 1) e))
  | .read i j e [] values =>
    .run { s with mainPlate := s.mainPlate.set i j (P.stencil values) }
      (.worker w r (.cell i (j + 1) e))
  | .read i j e ((a, b) :: todo) values =>
    if InGrid P.gridSize a b then
      .run s (.worker w r (.read i j e todo (values ++ [s.prevPlate a b])))
    else .run s .fault
  | .second =>
    .run { s with barrierSecond := s.barrierSecond.arrive (n + 1) }
      (.worker w r (.secondWait s.barrierSecond.generation))
  | .secondWait generation =>
    .await (s.barrierSecond.generation ≠ generation) s s (.worker w r (.secondWait generation))
      (.worker w (r + 1) .first)

def startUpdate (P : Problem ν) (s : Shared ν) (r : ℕ) : MainPc ν → Step n ν
  | .first =>
    .run { s with barrierFirst := s.barrierFirst.arrive (n + 1) }
      (.main r (.firstWait s.barrierFirst.generation))
  | .firstWait generation =>
    .await (s.barrierFirst.generation ≠ generation) s s (.main r (.firstWait generation))
      (.main r .second)
  | .second =>
    .run { s with barrierSecond := s.barrierSecond.arrive (n + 1) }
      (.main r (.secondWait s.barrierSecond.generation))
  | .secondWait generation =>
    .await (s.barrierSecond.generation ≠ generation) s s (.main r (.secondWait generation))
      (.main r (.copyRow 0))
  | .copyRow i => .run s (.main r (if i < P.gridSize then .copyCell i 0 else .steadyRow 0 []))
  | .copyCell i j =>
    .run s (.main r (if j < P.gridSize then .copyWrite i j (s.mainPlate i j) else .copyRow (i + 1)))
  | .copyWrite i j v =>
    .run { s with prevPlate := s.prevPlate.set i j v } (.main r (.copyCell i (j + 1)))
  | .steadyRow i seen =>
    if i < P.gridSize then .run s (.main r (.steadyCell i 0 seen))
    else .run s (if P.steady seen then .main (r + 1) .first else .main r .returned)
  | .steadyCell i j seen =>
    if j < P.gridSize then
      .run s (.main r
        (if P.lockedCells i j = '0' then .steadyRead i j seen (steadyNeighbours i j) []
          else .steadyCell i (j + 1) seen))
    else .run s (.main r (.steadyRow (i + 1) seen))
  | .steadyRead i j seen [] values => .run s (.main r (.steadyCell i (j + 1) (seen ++ [values])))
  | .steadyRead i j seen ((a, b) :: todo) values =>
    if InGrid P.gridSize a b then
      .run s (.main r (.steadyRead i j seen todo (values ++ [s.mainPlate a b])))
    else .run s .fault
  | .returned => .halt

def code (P : Problem ν) (s : Shared ν) : Point n ν → Step n ν
  | .worker w r pc => updatePlate P s w r pc
  | .main r pc => startUpdate P s r pc
  | .fault => .halt

def start : Tid n → Point n ν
  | some w => .worker w 0 .first
  | none => .main 0 .first

/-- `n` workers and `main`, from the plates that `initPlate` has left. -/
def program (n : ℕ) (P : Problem ν) (plate prevPlate : Plate ν) :
    System (Config (Tid n) (Shared ν) (Point n ν) Mutex Empty) (Action (Tid n)) :=
  Pthread.program (code P) ⟨plate, prevPlate, .empty, .empty⟩ start

end PthreadBenchmark.HotPlate
