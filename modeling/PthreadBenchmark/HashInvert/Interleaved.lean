import PthreadBenchmark.HashInvert.Reconstruct

/-! # `reconstruct1_thread`, access by access

The threads of `hashInvertM.c` share the words of `checked` and of `M`. The array `m_M` of mutexes
is never used: every load and every store of a word is a step of its own. -/

namespace PthreadBenchmark.HashInvert.Interleaved

open BitTable

/-- `found` is history: the values `v` for which `setLocation(v,M)` has been executed. -/
structure Shared (w : ℕ) where
  nextLoc : ℕ
  checked : ℕ → BitVec w
  M : ℕ → BitVec w
  numMemberships : ℕ
  found : List ℕ

inductive Mutex where
  | mNextLoc
  | mNumMemberships
  deriving DecidableEq, Repr

/-- The variables of `reconstruct1`. -/
structure Locals where
  loc : ℕ
  i : ℕ
  h : ℕ
  count : ℕ
  sample : ℤ
  localCount : ℕ

def Locals.nextCount (l : Locals) : Locals := { l with count := l.count + 1 }

def Locals.nextHash (l : Locals) : Locals := { l with h := l.h + 1, count := 0, sample := 0 }

/-- Points of a thread; `word` is what `setLocation` has loaded. -/
inductive Point (w : ℕ) where
  | lockNext
  | readNext
  | test (nL : ℕ)
  | unlockNext (nL : ℕ)
  | unlockExit
  | bit (l : Locals)
  | whileTest (l : Locals)
  | testChecked (l : Locals)
  | loadChecked (l : Locals)
  | storeChecked (l : Locals) (word : BitVec w)
  | loadM (l : Locals)
  | storeM (l : Locals) (word : BitVec w)
  | lockMemberships (localCount : ℕ)
  | addMemberships (localCount : ℕ)
  | unlockMemberships
  | exited

variable {w : ℕ} {ι : Type*}

def storeChecked (s : Shared w) (v : ℕ) (word : BitVec w) : Shared w :=
  { s with checked := Function.update s.checked (v / w) (word ||| mask w v) }

def storeM (s : Shared w) (v : ℕ) (word : BitVec w) : Shared w :=
  { s with M := Function.update s.M (v / w) (word ||| mask w v), found := s.found ++ [v] }

/-- `for (i=loc*NUM_BITS;i<(loc+1)*NUM_BITS;i++)`, with the test of the bit. -/
def bitLoop (a : Bloom w) (l : Locals) : Point w :=
  if l.i < (l.loc + 1) * w then
    if a.bits l.loc l.i ≠ 0#w then .whileTest { l with h := 0, count := 0, sample := 0 }
    else .bit { l with i := l.i + 1 }
  else .lockMemberships l.localCount

/-- `while (sample<nVertices)`, in the loop over `h`; `value i h count` is the double `s`. -/
def whileLoop (a : Bloom w) (value : ℕ → ℕ → ℕ → ℚ) (l : Locals) : Point w :=
  if l.sample < a.nVertices then
    let s := value l.i l.h l.count
    let sample := truncate s
    if (⌊s⌋ : ℚ) = s ∧ 0 < sample ∧ sample < a.nVertices then
      .testChecked { l with sample := sample }
    else .whileTest { l with sample := sample, count := l.count + 1 }
  else if l.h + 1 < 3 then .whileTest l.nextHash
  else .bit { l with i := l.i + 1 }

/-- `is_in` is code of another file. -/
def code (a : Bloom w) (value : ℕ → ℕ → ℕ → ℚ) (isIn : ℕ → Bool) (s : Shared w) :
    Point w → Op ι (Shared w) (Point w) Mutex Empty
  | .lockNext => .lock .mNextLoc .readNext
  | .readNext => .run s (.test s.nextLoc)
  | .test nL =>
    if nL < a.words then .run { s with nextLoc := s.nextLoc + 1 } (.unlockNext nL)
    else .run s .unlockExit
  | .unlockNext nL => .unlock .mNextLoc (.bit ⟨nL, nL * w, 0, 0, 0, 0⟩)
  | .unlockExit => .unlock .mNextLoc .exited
  | .bit l => .run s (bitLoop a l)
  | .whileTest l => .run s (whileLoop a value l)
  | .testChecked l =>
    .run s (if s.checked (l.sample.toNat / w) &&& mask w l.sample.toNat ≠ 0#w then
      .whileTest l.nextCount else .loadChecked l)
  | .loadChecked l => .run s (.storeChecked l (s.checked (l.sample.toNat / w)))
  | .storeChecked l word =>
    .run (storeChecked s l.sample.toNat word)
      (if isIn l.sample.toNat then .loadM { l with localCount := l.localCount + 1 }
      else .whileTest { l.nextCount with localCount := l.localCount + 1 })
  | .loadM l => .run s (.storeM l (s.M (l.sample.toNat / w)))
  | .storeM l word => .run (storeM s l.sample.toNat word) (.whileTest l.nextCount)
  | .lockMemberships localCount => .lock .mNumMemberships (.addMemberships localCount)
  | .addMemberships localCount =>
    .run { s with numMemberships := s.numMemberships + localCount } .unlockMemberships
  | .unlockMemberships => .unlock .mNumMemberships .lockNext
  | .exited => .halt

/-- `main` has cleared `checked`, and `resetM` has cleared `M`. -/
def initial : Shared w := ⟨0, fun _ => 0#w, fun _ => 0#w, 0, []⟩

def program (n : ℕ) (a : Bloom w) (value : ℕ → ℕ → ℕ → ℚ) (isIn : ℕ → Bool) :
    System (Config (Fin n) (Shared w) (Point w) Mutex Empty) (Action (Fin n)) :=
  Pthread.program (code a value isIn) initial fun _ => .lockNext

/-- All threads have exited, so that `main` has joined them. -/
def AllExited {n : ℕ} (a : Bloom w) (value : ℕ → ℕ → ℕ → ℚ) (isIn : ℕ → Bool)
    (c : Config (Fin n) (Shared w) (Point w) Mutex Empty) : Prop :=
  ∀ i, Pthread.Halted (code (ι := Fin n) a value isIn) c.shared (c.threads i)

instance {n : ℕ} (a : Bloom w) (value : ℕ → ℕ → ℕ → ℚ) (isIn : ℕ → Bool)
    (c : Config (Fin n) (Shared w) (Point w) Mutex Empty) :
    Decidable (AllExited a value isIn c) :=
  inferInstanceAs (Decidable (∀ i, Pthread.Halted (code (ι := Fin n) a value isIn) c.shared
    (c.threads i)))

end PthreadBenchmark.HashInvert.Interleaved
