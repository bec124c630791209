import PthreadBenchmark.Shared.Pthread
import Mathlib.Algebra.Order.Ring.Int

/-! # The threads of `hashInvertM.c`

`countOnes`, `reconstruct0_thread` and `reconstruct1_thread` claim locations in one and
the same way and differ in what they do with a location. The bodies of `reconstruct0` and
`reconstruct1` write to other variables and have modules of their own. A value that is not an `int`
is a fault. -/

namespace PthreadBenchmark.HashInvert

/-! ## The number of locations -/

def InInt (x : ℤ) : Prop := -2147483648 ≤ x ∧ x ≤ 2147483647

instance (x : ℤ) : Decidable (InInt x) := inferInstanceAs (Decidable (_ ∧ _))

def toInt (x : ℤ) : Option ℤ := if InInt x then some x else none

def ceilDiv (a b : ℤ) : Option ℤ := do
  let sum ← toInt (a + b)
  let sum ← toInt (sum - 1)
  return sum.tdiv b

/-- The number of words that `length` bits need. -/
def wordCount (length numBits : ℕ) : ℕ := (length + numBits - 1) / numBits

variable {vectSize numBits : ℕ}

/-- The sum is computed in `int`. -/
theorem ceilDiv_of_le (hpos : 0 < numBits) (hle : vectSize + numBits ≤ 2147483647) :
    ceilDiv vectSize numBits = some (wordCount vectSize numBits : ℤ) := by
  have hsum : InInt ((vectSize : ℤ) + numBits) := by
    rw [InInt]
    omega
  have hless : InInt ((vectSize : ℤ) + numBits - 1) := by
    rw [InInt]
    omega
  have hcast : (vectSize : ℤ) + numBits - 1 = ((vectSize + numBits - 1 : ℕ) : ℤ) := by omega
  simp only [ceilDiv, toInt, if_pos hsum, if_pos hless, bind, pure, Option.bind_some]
  rw [hcast, wordCount, Int.ofNat_tdiv]

theorem ceilDiv_of_lt (hlt : 2147483647 < vectSize + numBits) :
    ceilDiv vectSize numBits = none := by
  have hsum : ¬ InInt ((vectSize : ℤ) + numBits) := by
    rw [InInt]
    omega
  simp [ceilDiv, toInt, hsum]

theorem wordCount_mul_lt (vectSize : ℕ) (hpos : 0 < numBits) :
    wordCount vectSize numBits * numBits < vectSize + numBits := by
  have hle := Nat.div_mul_le_self (vectSize + numBits - 1) numBits
  rw [wordCount]
  omega

/-! ## The threads -/

/-- `claims` and `handled` are history: which thread has claimed which location, and the
locations whose word has been read, or that have been handed to `reconstruct`. -/
structure Shared (n : ℕ) where
  nextLoc : ℕ
  totalOnes : ℕ
  claims : List (Fin n × ℕ)
  handled : List ℕ

inductive Mutex where
  | mNextLoc
  | mTotalOnes
  deriving DecidableEq, Repr

inductive Pc where
  | lockNext
  | readNext
  | test (nL : ℕ)
  | unlockNext (nL : ℕ)
  | unlockExit
  | work (nL : ℕ)
  | lockTotal (z : ℕ)
  | addTotal (z : ℕ)
  | unlockTotal
  | exited
  | fault
  deriving DecidableEq, Repr

/-- A point of the thread `id`. -/
structure Point (n : ℕ) where
  id : Fin n
  pc : Pc

/-- What a thread does with a location: it adds the ones of its word to the total, or
hands it to `reconstruct`. -/
inductive Work where
  | count (ones : ℕ → ℕ)
  | reconstruct

variable {n : ℕ}

/-- The loop of the threads; `size` is the number of locations. -/
def claimLoop (size : Option ℤ) (work : Work) (s : Shared n) (p : Point n) :
    Op (Fin n) (Shared n) (Point n) Mutex Empty :=
  match p.pc with
  | .lockNext => .lock .mNextLoc { p with pc := .readNext }
  | .readNext => .run s { p with pc := .test s.nextLoc }
  | .test nL =>
    match size with
    | none => .run s { p with pc := .fault }
    | some size =>
      if nL < size then
        .run { s with nextLoc := s.nextLoc + 1, claims := s.claims ++ [(p.id, nL)] }
          { p with pc := .unlockNext nL }
      else .run s { p with pc := .unlockExit }
  | .unlockNext nL => .unlock .mNextLoc { p with pc := .work nL }
  | .unlockExit => .unlock .mNextLoc { p with pc := .exited }
  | .work nL =>
    .run { s with handled := s.handled ++ [nL] }
      { p with pc :=
        match work with
        | .count ones => if 0 < ones nL then .lockTotal (ones nL) else .lockNext
        | .reconstruct => .lockNext }
  | .lockTotal z => .lock .mTotalOnes { p with pc := .addTotal z }
  | .addTotal z => .run { s with totalOnes := s.totalOnes + z } { p with pc := .unlockTotal }
  | .unlockTotal => .unlock .mTotalOnes { p with pc := .lockNext }
  | .exited | .fault => .halt

/-- `count_ones` is code of another file. -/
def countOnes {ω : Type*} (vectSize numBits : ℕ) (count_ones : ω → ℕ) (bloomVector : ℕ → ω) :
    Shared n → Point n → Op (Fin n) (Shared n) (Point n) Mutex Empty :=
  claimLoop (ceilDiv vectSize numBits) (.count fun nL => count_ones (bloomVector nL))

def reconstruct0Thread (vectSize numBits : ℕ) :
    Shared n → Point n → Op (Fin n) (Shared n) (Point n) Mutex Empty :=
  claimLoop (ceilDiv vectSize numBits) .reconstruct

def reconstruct1Thread (vectSize numBits : ℕ) :
    Shared n → Point n → Op (Fin n) (Shared n) (Point n) Mutex Empty :=
  claimLoop (ceilDiv vectSize numBits) .reconstruct

/-- `main` starts the threads with `nextLoc = 0`. -/
def start (n : ℕ) (code : Shared n → Point n → Op (Fin n) (Shared n) (Point n) Mutex Empty) :
    System (Config (Fin n) (Shared n) (Point n) Mutex Empty) (Action (Fin n)) :=
  Pthread.program code ⟨0, 0, [], []⟩ fun id => ⟨id, .lockNext⟩

/-- All threads have left their loops. -/
def AllExited (c : Config (Fin n) (Shared n) (Point n) Mutex Empty) : Prop :=
  ∀ i, ∃ id, c.threads i = .running ⟨id, .exited⟩

end PthreadBenchmark.HashInvert
