import PthreadBenchmark.Shared.Transition
import Mathlib.Data.Fintype.Basic
import Mathlib.Logic.Embedding.Basic
import Mathlib.Logic.Function.Basic
import Mathlib.Tactic.Simps.Basic

/-! # The meeting place of `chameneosredux.c`

Each creature runs the loop of `creature`, and inside it `meeting`. One action is one
semaphore operation, one access to `done`, or the straight-line code between two of
them. The initial state is the one after the creation loop of `run_the_meetings`: a
creature that has not been created yet is a creature that has not moved yet. -/

namespace PthreadBenchmark.Chameneos

inductive Color where
  | zero
  | blue
  | red
  | yellow
  | invalid
  deriving DecidableEq, Repr

/-- The colours the switches of `compliment_color` handle. -/
def Color.Primary (c : Color) : Prop := c = .blue ∨ c = .red ∨ c = .yellow

instance (c : Color) : Decidable c.Primary :=
  inferInstanceAs (Decidable (c = .blue ∨ c = .red ∨ c = .yellow))

/-- `none` is a branch that prints an error and exits. -/
def complimentColor : Color → Color → Option Color
  | .blue, .blue => some .blue
  | .blue, .red => some .yellow
  | .blue, .yellow => some .red
  | .red, .blue => some .yellow
  | .red, .red => some .red
  | .red, .yellow => some .blue
  | .yellow, .blue => some .red
  | .yellow, .red => some .blue
  | .yellow, .yellow => some .yellow
  | _, _ => none

theorem complimentColor_primary {c₁ c₂ : Color} (h₁ : c₁.Primary) (h₂ : c₂.Primary) :
    ∃ c, complimentColor c₁ c₂ = some c ∧ c.Primary := by
  rcases h₁ with rfl | rfl | rfl <;> rcases h₂ with rfl | rfl | rfl <;>
    simp [complimentColor, Color.Primary]

/-- The fields of `chameos` that are read. -/
structure Chameos where
  myColor : Color
  id : ℕ
  deriving DecidableEq, Repr

/-- Program points of `creature`, with those of `meeting` in source order. -/
inductive Pc where
  | loopTest
  | waitAtMostTwo
  | checkDone
  | waitMutex
  | recheckDone
  | postMutexDone
  | postAtMostTwoDone
  | arrive
  | postMutexFirst
  | waitSemPriv
  | exchange
  | setDone
  | postMutex
  | postAtMostTwo
  | postAtMostTwoAgain
  | postSemPriv
  | returned
  | waitSemPrint
  | exited
  | aborted
  deriving DecidableEq, Repr

/-- The locals of `creature`, and the parameter `c` and the result of `meeting`. -/
structure Creature where
  pc : Pc
  critter : Chameos
  c : Chameos
  otherCritter : Option Chameos
  metOthers : ℕ
  metSelf : ℕ
  deriving DecidableEq, Repr

/-- `run_the_meetings` after its creation loop: the posts of `sem_print`, the joins,
and the printed total. -/
inductive Main where
  | posting (i : ℕ)
  | joining (i total : ℕ)
  | finished (total : ℕ)
  deriving DecidableEq, Repr

/-- What a creature brought into one call of `meeting` and what it took out of it. -/
structure Visit (n : ℕ) where
  who : Fin n
  entered : Chameos
  received : Chameos
  deriving DecidableEq, Repr

/-- The globals and all threads. `firsts` and `seconds` are history: the exchanges made
at the first and at the second branch of `meeting`, oldest first. -/
structure State (n : ℕ) where
  atMostTwo : ℕ
  mutex : ℕ
  semPriv : ℕ
  semPrint : ℕ
  meetingsLeft : ℤ
  firstArrived : ℕ
  done : ℕ
  A : Chameos
  B : Chameos
  creatures : Fin n → Creature
  main : Main
  firsts : List (Visit n)
  seconds : List (Visit n)

variable {n : ℕ}

/-- A meeting is complete when the first creature has taken the second one's data and
counted the meeting. -/
def State.completed (s : State n) : ℕ := s.firsts.length

@[simps -fullyApplied]
def State.set (s : State n) (i : Fin n) (v : Creature) : State n :=
  { s with creatures := Function.update s.creatures i v }

def Creature.at (v : Creature) (pc : Pc) : Creature := { v with pc := pc }

/-- `while(done != 1)` and the call of `meeting`, whose parameter is a copy. -/
def loopTest (s : State n) (i : Fin n) (v : Creature) : State n :=
  if s.done ≠ 1 then s.set i { v with pc := .waitAtMostTwo, c := v.critter }
  else s.set i (v.at .waitSemPrint)

/-- The code between `sem_wait(&mutex)` and the next semaphore operation. -/
def arrive (s : State n) (i : Fin n) (v : Creature) : State n :=
  if s.firstArrived = 0 then
    { s with firstArrived := 1, A := v.c }.set i (v.at .postMutexFirst)
  else
    { s with
      firstArrived := 0
      B := v.c
      seconds := s.seconds ++ [Visit.mk i v.c s.A] }.set i
        { v with pc := .postSemPriv, otherCritter := some s.A }

/-- The first creature reads `B` and counts the meeting. -/
def exchange (s : State n) (i : Fin n) (v : Creature) : State n :=
  { s with
    meetingsLeft := s.meetingsLeft - 1
    firsts := s.firsts ++ [Visit.mk i v.c s.B] }.set i
      { v with pc := .setDone, otherCritter := some s.B }

/-- The rest of the loop body of `creature`. -/
def afterMeeting (v : Creature) : Creature :=
  match v.otherCritter with
  | none => v.at .waitSemPrint
  | some other =>
    let v := if v.critter.id = other.id then { v with metSelf := v.metSelf + 1 }
      else { v with metOthers := v.metOthers + 1 }
    match complimentColor v.critter.myColor other.myColor with
    | none => v.at .aborted
    | some color => { v with pc := .loopTest, critter := { v.critter with myColor := color } }

/-- One action of creature `i`; `none` where it is blocked in a `sem_wait` or has left. -/
def creatureStep (s : State n) (i : Fin n) : Option (State n) :=
  let v := s.creatures i
  match v.pc with
  | .loopTest => some (loopTest s i v)
  | .waitAtMostTwo =>
    if 0 < s.atMostTwo then
      some ({ s with atMostTwo := s.atMostTwo - 1 }.set i (v.at .checkDone))
    else none
  | .checkDone =>
    some (s.set i (v.at (if s.done = 1 then .postAtMostTwoDone else .waitMutex)))
  | .waitMutex =>
    if 0 < s.mutex then some ({ s with mutex := s.mutex - 1 }.set i (v.at .recheckDone))
    else none
  | .recheckDone =>
    some (s.set i (v.at (if s.done = 1 then .postMutexDone else .arrive)))
  | .postMutexDone => some ({ s with mutex := s.mutex + 1 }.set i (v.at .postAtMostTwoDone))
  | .postAtMostTwoDone =>
    some ({ s with atMostTwo := s.atMostTwo + 1 }.set i
      { v with pc := .returned, otherCritter := none })
  | .arrive => some (arrive s i v)
  | .postMutexFirst => some ({ s with mutex := s.mutex + 1 }.set i (v.at .waitSemPriv))
  | .waitSemPriv =>
    if 0 < s.semPriv then some ({ s with semPriv := s.semPriv - 1 }.set i (v.at .exchange))
    else none
  | .exchange => some (exchange s i v)
  | .setDone =>
    some ({ s with done := if s.meetingsLeft = 0 then 1 else s.done }.set i (v.at .postMutex))
  | .postMutex => some ({ s with mutex := s.mutex + 1 }.set i (v.at .postAtMostTwo))
  | .postAtMostTwo =>
    some ({ s with atMostTwo := s.atMostTwo + 1 }.set i (v.at .postAtMostTwoAgain))
  | .postAtMostTwoAgain =>
    some ({ s with atMostTwo := s.atMostTwo + 1 }.set i (v.at .returned))
  | .postSemPriv => some ({ s with semPriv := s.semPriv + 1 }.set i (v.at .returned))
  | .returned => some (s.set i (afterMeeting v))
  | .waitSemPrint =>
    if 0 < s.semPrint then some ({ s with semPrint := s.semPrint - 1 }.set i (v.at .exited))
    else none
  | .exited => none
  | .aborted => none

/-- One action of `run_the_meetings`: posts `sem_print` once for each creature, then
joins the creatures in order and adds up the totals they return. -/
def mainStep (s : State n) : Option (State n) :=
  match s.main with
  | .posting i =>
    if i < n then some { s with semPrint := s.semPrint + 1, main := .posting (i + 1) }
    else some { s with main := .joining 0 0 }
  | .joining i total =>
    if h : i < n then
      let v := s.creatures ⟨i, h⟩
      if v.pc = .exited then
        some { s with main := .joining (i + 1) (total + (v.metOthers + v.metSelf)) }
      else none
    else some { s with main := .finished total }
  | .finished _ => none

inductive Thread (n : ℕ) where
  | creature (i : Fin n)
  | main
  deriving DecidableEq, Repr

def step (s : State n) : Thread n → Option (State n)
  | .creature i => creatureStep s i
  | .main => mainStep s

/-- `pthreadSelf` gives each creature its `pthread_t`; live threads have different ones. -/
def initial (startingColors : Fin n → Color) (pthreadSelf : Fin n ↪ ℕ)
    (totalMeetingsToRun : ℕ) : State n where
  atMostTwo := 2
  mutex := 1
  semPriv := 0
  semPrint := 0
  meetingsLeft := totalMeetingsToRun
  firstArrived := 0
  done := 0
  A := ⟨.zero, 0⟩
  B := ⟨.zero, 0⟩
  creatures i := ⟨.loopTest, ⟨startingColors i, pthreadSelf i⟩, ⟨.zero, 0⟩, none, 0, 0⟩
  main := .posting 0
  firsts := []
  seconds := []

def meetings (startingColors : Fin n → Color) (pthreadSelf : Fin n ↪ ℕ)
    (totalMeetingsToRun : ℕ) : System (State n) (Thread n) where
  init := initial startingColors pthreadSelf totalMeetingsToRun
  step := step

/-- The creature stands before a semaphore of `meeting` whose value is zero. -/
def State.Blocked (s : State n) (i : Fin n) : Prop :=
  ((s.creatures i).pc = .waitAtMostTwo ∧ s.atMostTwo = 0) ∨
    ((s.creatures i).pc = .waitMutex ∧ s.mutex = 0) ∨
    ((s.creatures i).pc = .waitSemPriv ∧ s.semPriv = 0)

/-- The creature is behind the `while` loop of `creature`. -/
def Creature.LeftLoop (v : Creature) : Prop := v.pc = .waitSemPrint ∨ v.pc = .exited

instance (v : Creature) : Decidable v.LeftLoop :=
  inferInstanceAs (Decidable (v.pc = .waitSemPrint ∨ v.pc = .exited))

end PthreadBenchmark.Chameneos
