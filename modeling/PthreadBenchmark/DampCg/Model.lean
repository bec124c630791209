import PthreadBenchmark.Shared.Pthread
import Mathlib.Data.Int.Notation

/-! # The master and the slaves of `fd4t10s-damp-zjh-cg.c`

A pointer to a block is the index of the block in `params`, which is also its `id`. Each access to a
`status` or to `g_status` is a step. No mutex is taken: a `pthread_cond_wait` may return at any
time, and its caller is one that tests again. -/

namespace PthreadBenchmark.DampCg

/-- `CG_MAX` -/
def cgMax : ℕ := 4

/-- `ND` -/
def nd : ℕ := 4

/-- `X_MAX * Z_MAX`, the length of `params` -/
def tableSize : ℕ := 4 * 4

/-- A block that a slave has processed. -/
structure Work where
  round : ℕ
  icg : Fin cgMax
  id : ℕ
  deriving DecidableEq, Repr

/-- `round` is the round of the master and `returned` counts the returns of `master_wait`;
`processed` and `used` have the blocks processed and the indices at which `params` was read. -/
structure Shared where
  gStatus : ℤ
  status : ℕ → ℤ
  exit : ℕ → Bool
  round : ℕ
  returned : ℕ
  processed : List Work
  used : List ℕ

/-- The master is `none`. -/
abbrev Tid := Option (Fin cgMax)

/-- Points of `fd4t10s_nobndry_zjh_2d_vtrans_cg`, with the number of the call, and of the slave
`icg`, with its `param`. -/
inductive Point where
  | call (k : ℕ)
  | masterSignal (k i : ℕ)
  | masterBroadcast (k : ℕ)
  | masterTest (k : ℕ)
  | masterReset (k : ℕ)
  | slaveTest (icg : Fin cgMax) (param : ℕ)
  | slaveExit (icg : Fin cgMax) (param : ℕ)
  | slaveStatus (icg : Fin cgMax) (param : ℕ)
  | body (icg : Fin cgMax) (param i : ℕ)
  | signalLoad (icg : Fin cgMax) (param : ℕ)
  | signalStore (icg : Fin cgMax) (param : ℕ) (gStatus : ℤ)
  | signalCond (icg : Fin cgMax) (param : ℕ)
  | returned (icg : Fin cgMax)
  | outside (icg : Fin cgMax)
  deriving DecidableEq, Repr

/-- The calls of the master, and then `fd4t10s_4cg`. A slave that reads behind the end of `params`
does not go on. -/
def code (calls : ℕ) (s : Shared) : Point → Op Tid Shared Point Empty Empty
  | .call k => if k < calls then .run { s with round := k } (.masterSignal k 0) else .halt
  | .masterSignal k i =>
    if i < cgMax then
      .run { s with status := Function.update s.status (i * nd) 0, used := s.used ++ [i * nd] }
        (.masterSignal k (i + 1))
    else .run s (.masterBroadcast k)
  | .masterBroadcast k => .run s (.masterTest k)
  | .masterTest k => .run s (if s.gStatus ≠ 0 then .masterTest k else .masterReset k)
  | .masterReset k =>
    .run { s with gStatus := cgMax, returned := s.returned + 1 } (.call (k + 1))
  | .slaveTest icg param =>
    .run s (if s.status param ≠ 0 then .slaveTest icg param else .slaveExit icg param)
  | .slaveExit icg param =>
    .run s (if s.exit param then .returned icg else .slaveStatus icg param)
  | .slaveStatus icg param =>
    .run { s with status := Function.update s.status param 1 } (.body icg param 0)
  | .body icg param i =>
    if i < nd then
      if param + i < tableSize then
        .run { s with
          processed := s.processed ++ [⟨s.round, icg, param + i⟩]
          used := s.used ++ [param + i] } (.body icg (param + i) (i + 1))
      else .run { s with used := s.used ++ [param + i] } (.outside icg)
    else .run s (.signalLoad icg param)
  | .signalLoad icg param => .run s (.signalStore icg param s.gStatus)
  | .signalStore icg param gStatus =>
    .run { s with gStatus := gStatus - 1 } (.signalCond icg param)
  | .signalCond icg param => .run s (.slaveTest icg param)
  | .returned _ | .outside _ => .halt

/-- The state behind the initialisation in the first call. -/
def initial : Shared where
  gStatus := cgMax
  status _ := 1
  exit _ := false
  round := 0
  returned := 0
  processed := []
  used := []

def start : Tid → Point
  | none => .call 0
  | some icg => .slaveTest icg (icg * nd)

def program (calls : ℕ) : System (Config Tid Shared Point Empty Empty) (Action Tid) :=
  Pthread.program (code calls) initial start

end PthreadBenchmark.DampCg
