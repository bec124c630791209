import PthreadBenchmark.Shared.ByteFile
import Mathlib.Data.Int.Notation

/-! # The copy loop of `copy_deamon.c`

`copyWorker` is the only thread that writes to `offset`, `copyingDone` and the destination;
`sendOffset` reads the first two. What the calls return is given as a list with one entry for each
round of the loop. -/

namespace PthreadBenchmark.CopyDeamon

open ByteFile

/-- `sizeof(buf)`. -/
def bufSize : ℕ := 4096

/-- What `pread` and `pwrite` return in a round; `put` is not looked at in a round without
`pwrite`. -/
structure Round where
  res : ℤ
  put : ℤ
  deriving DecidableEq, Repr

/-- An error, the end of the file, or some of the bytes that are there. -/
def PreadPermits (source : List UInt8) (offset : ℕ) (res : ℤ) : Prop :=
  res = -1 ∨ res = 0 ∧ source.length ≤ offset ∨
    0 < res ∧ res ≤ bufSize ∧ offset + res ≤ source.length

instance (source : List UInt8) (offset : ℕ) (res : ℤ) :
    Decidable (PreadPermits source offset res) :=
  inferInstanceAs (Decidable (_ ∨ _))

/-- An error, or some of the bytes written. -/
def PwritePermits (nbyte put : ℤ) : Prop := -1 ≤ put ∧ put ≤ nbyte

instance (nbyte put : ℤ) : Decidable (PwritePermits nbyte put) :=
  inferInstanceAs (Decidable (_ ∧ _))

structure Outcome where
  destination : List UInt8
  offset : ℕ
  copyingDone : Bool
  deriving DecidableEq, Repr

/-- The thread exits, which it must do in the last round of the list. -/
def exit (rounds : List Round) (out : Outcome) : Option Outcome :=
  if rounds = [] then some out else none

/-- `pwrite(destinationFd, buf, res, offset)`, of which `put` bytes are written. -/
def pwrite (source destination : List UInt8) (offset : ℕ) (r : Round) : List UInt8 :=
  let buf := (source.drop offset).take r.res.toNat
  writeAt destination (buf.take r.put.toNat) offset

/-- The `do` loop. There is no outcome if the list holds what the calls cannot return. -/
def copyLoop (source : List UInt8) : List Round → ℕ → List UInt8 → Option Outcome
  | [], _, _ => none
  | r :: rounds, offset, destination =>
    if ¬ PreadPermits source offset r.res then none
    else if r.res ≤ 0 then exit rounds ⟨destination, offset, true⟩
    else if ¬ PwritePermits r.res r.put then none
    else if r.put < 0 then exit rounds ⟨destination, offset, false⟩
    else if r.res = bufSize then
      copyLoop source rounds (offset + r.res.toNat) (pwrite source destination offset r)
    else exit rounds ⟨pwrite source destination offset r, offset + r.res.toNat, true⟩

/-- `destination` is what the file holds before; it is empty if `open` creates it. -/
def copyWorker (source destination : List UInt8) (sourceFd destinationFd : ℤ)
    (rounds : List Round) : Option Outcome :=
  if sourceFd < 0 then exit rounds ⟨destination, 0, false⟩
  else if destinationFd < 0 then exit rounds ⟨destination, 0, false⟩
  else copyLoop source rounds 0 destination

end PthreadBenchmark.CopyDeamon
