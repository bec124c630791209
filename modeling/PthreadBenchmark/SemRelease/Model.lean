import PthreadBenchmark.Shared.Barrier
import PthreadBenchmark.Shared.Transition
import Mathlib.Data.Int.Notation

/-! # The keepers of `semaphore_mutex_release.c`

`main` and its keeper meet at a barrier twice in each iteration. When `main` is done, it sets
`*status` to -1 and meets the keeper once more. -/

namespace PthreadBenchmark.SemRelease

inductive Party where
  | main
  | keeper
  deriving DecidableEq, Repr

/-- What the keeper keeps: `semaphore_keeper` and `mutex_keeper` differ in nothing else. -/
inductive Kind where
  | semaphore
  | mutex
  deriving DecidableEq, Repr

/-- A part of `semaphore_mutex_not_empty`: a keeper, whether `*status = 1` comes before its
creation, and the number of iterations. -/
structure Phase where
  kind : Kind
  statusFirst : Bool
  iterations : ℕ
  deriving DecidableEq, Repr

/-- Where `main` is in a phase. In a wait it knows the generation of the barrier in which it has
arrived. -/
inductive Stage where
  | setStatus
  | create
  | loop
  | first
  | firstWait (generation : ℕ)
  | second
  | secondWait (generation : ℕ)
  | acquire
  | release
  | setEnd
  | last
  | lastWait (generation : ℕ)
  | join
  deriving DecidableEq, Repr

/-- `main` in a phase, with the iterations behind the current one and the phases behind it. -/
inductive MainPoint where
  | within (stage : Stage) (phase : Phase) (i : ℕ) (rest : List Phase)
  | exited
  deriving DecidableEq, Repr

inductive KeeperPoint where
  | absent
  | test (kind : Kind)
  | first (kind : Kind)
  | firstWait (kind : Kind) (generation : ℕ)
  | recheck (kind : Kind)
  | acquire (kind : Kind)
  | second (kind : Kind)
  | secondWait (kind : Kind) (generation : ℕ)
  | release (kind : Kind)
  | returned
  deriving DecidableEq, Repr

structure State where
  status : ℤ
  barr : Barrier
  sem : ℕ
  mutex : Option Party
  main : MainPoint
  keeper : KeeperPoint
  deriving DecidableEq, Repr

/-- `sem_wait` or `pthread_mutex_lock`, by the given party. -/
def State.acquire (s : State) (who : Party) : Kind → Option State
  | .semaphore => if 0 < s.sem then some { s with sem := s.sem - 1 } else none
  | .mutex => if s.mutex = none then some { s with mutex := some who } else none

/-- `sem_post` or `pthread_mutex_unlock`. -/
def State.release (s : State) : Kind → State
  | .semaphore => { s with sem := s.sem + 1 }
  | .mutex => { s with mutex := none }

def enter : List Phase → MainPoint
  | [] => .exited
  | phase :: rest =>
    .within (if phase.statusFirst then .setStatus else .create) phase phase.iterations rest

def stepMain (s : State) : Option State :=
  match s.main with
  | .exited => none
  | .within stage phase i rest =>
    match stage with
    | .setStatus =>
      some { s with
        status := 1
        main := .within (if phase.statusFirst then .create else .loop) phase i rest }
    | .create =>
      some { s with
        keeper := .test phase.kind
        main := .within (if phase.statusFirst then .loop else .setStatus) phase i rest }
    | .loop =>
      match i with
      | 0 => some { s with main := .within .setEnd phase 0 rest }
      | i + 1 => some { s with main := .within .first phase i rest }
    | .first =>
      some { s with
        barr := s.barr.arrive 2
        main := .within (.firstWait s.barr.generation) phase i rest }
    | .firstWait generation =>
      if s.barr.generation = generation then none
      else some { s with main := .within .second phase i rest }
    | .second =>
      some { s with
        barr := s.barr.arrive 2
        main := .within (.secondWait s.barr.generation) phase i rest }
    | .secondWait generation =>
      if s.barr.generation = generation then none
      else some { s with main := .within .acquire phase i rest }
    | .acquire =>
      (s.acquire .main phase.kind).map fun s => { s with main := .within .release phase i rest }
    | .release => some { s.release phase.kind with main := .within .loop phase i rest }
    | .setEnd => some { s with status := -1, main := .within .last phase i rest }
    | .last =>
      some { s with
        barr := s.barr.arrive 2
        main := .within (.lastWait s.barr.generation) phase i rest }
    | .lastWait generation =>
      if s.barr.generation = generation then none
      else some { s with main := .within .join phase i rest }
    | .join => if s.keeper = .returned then some { s with main := enter rest } else none

def stepKeeper (s : State) : Option State :=
  match s.keeper with
  | .absent => none
  | .test kind => some { s with keeper := if s.status = -1 then .returned else .first kind }
  | .first kind =>
    some { s with barr := s.barr.arrive 2, keeper := .firstWait kind s.barr.generation }
  | .firstWait kind generation =>
    if s.barr.generation = generation then none else some { s with keeper := .recheck kind }
  | .recheck kind => some { s with keeper := if s.status = -1 then .returned else .acquire kind }
  | .acquire kind => (s.acquire .keeper kind).map fun s => { s with keeper := .second kind }
  | .second kind =>
    some { s with barr := s.barr.arrive 2, keeper := .secondWait kind s.barr.generation }
  | .secondWait kind generation =>
    if s.barr.generation = generation then none else some { s with keeper := .release kind }
  | .release kind => some { s.release kind with keeper := .test kind }
  | .returned => none

def step (s : State) : Party → Option State
  | .main => stepMain s
  | .keeper => stepKeeper s

/-- The phases of `semaphore_mutex_not_empty`. -/
def phases (wIterations : ℕ) (wDropCache : Bool) : List Phase :=
  [⟨.semaphore, true, wIterations⟩] ++
    (if wDropCache then [⟨.semaphore, false, wIterations / 10⟩] else []) ++
    [⟨.mutex, true, wIterations⟩] ++
    (if wDropCache then [⟨.mutex, true, wIterations / 10⟩] else [])

/-- The semaphore has been posted once, and the mutex is free. -/
def program (phases : List Phase) : System State Party where
  init := ⟨0, Barrier.empty, 1, none, enter phases, .absent⟩
  step := step

def semaphoreMutexNotEmpty (wIterations : ℕ) (wDropCache : Bool) : System State Party :=
  program (phases wIterations wDropCache)

end PthreadBenchmark.SemRelease
