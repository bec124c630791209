import PthreadBenchmark.Shared.Pthread
import Mathlib.Data.Int.Notation

/-! # The two loops of `test-membarrier-shared.c`

Memory is sequentially consistent, and each access to it is a step. -/

namespace PthreadBenchmark.Membarrier

inductive Mode where
  | mb
  | membarrier
  | compilerBarrier
  | membarrierMissingRegister
  deriving DecidableEq, Repr

inductive Side where
  | parent
  | child
  deriving DecidableEq, Repr

instance : Fintype Side := ⟨{.parent, .child}, fun side => by cases side <;> simp⟩

def Side.other : Side → Side
  | .parent => .child
  | .child => .parent

/-- `struct map_test`: the parent has `x`, `r2` and `r2_ready`, the child has `y`, `r4` and
`r4_ready`. -/
structure MapTest where
  flag : Side → ℤ
  ref : ℕ
  reg : Side → ℤ
  ready : Side → ℤ
  killed : ℤ

def MapTest.x (s : MapTest) : ℤ := s.flag .parent

def MapTest.y (s : MapTest) : ℤ := s.flag .child

def MapTest.r2Ready (s : MapTest) : ℤ := s.ready .parent

def MapTest.r4Ready (s : MapTest) : ℤ := s.ready .child

inductive Mutex where
  | lock
  deriving DecidableEq, Repr

inductive Pc where
  | switchMode
  | loop
  | inc
  | spin
  | testKilled
  | store
  | barrier
  | load
  | checkLock
  | checkReady
  | checkRegs
  | error
  | errorAborted
  | clearReady
  | clearX
  | clearY
  | saveReg
  | saveReady
  | checkUnlock
  | setKilled
  | aborted
  | finished
  deriving DecidableEq, Repr

/-- A point of a loop, with the locals `i` and `r2` or `r4`. -/
structure Point where
  side : Side
  i : ℕ
  r : ℤ
  pc : Pc
  deriving DecidableEq, Repr

abbrev Step := Op Side MapTest Point Mutex Empty

/-- The check of one side: the second one of a round compares both registers and resets, the
first one leaves its register for the other. -/
def checkRegs (side : Side) (s : MapTest) (p : Point) : Step :=
  match p.pc with
  | .checkLock => .lock .lock { p with pc := .checkReady }
  | .checkReady => .run s { p with pc := if s.ready side.other ≠ 0 then .checkRegs else .saveReg }
  | .checkRegs =>
    .run s { p with pc := if p.r = 0 ∧ s.reg side.other = 0 then .error else .clearReady }
  | .error => .run { s with killed := 1 } { p with pc := .errorAborted }
  | .clearReady =>
    .run { s with ready := Function.update s.ready side.other 0 } { p with pc := .clearX }
  | .clearX => .run { s with flag := Function.update s.flag .parent 0 } { p with pc := .clearY }
  | .clearY => .run { s with flag := Function.update s.flag .child 0 } { p with pc := .checkUnlock }
  | .saveReg => .run { s with reg := Function.update s.reg side p.r } { p with pc := .saveReady }
  | .saveReady =>
    .run { s with ready := Function.update s.ready side 1 } { p with pc := .checkUnlock }
  | .checkUnlock => .unlock .lock { p with i := p.i + 1, pc := .loop }
  | _ => .halt

def checkParentRegs : MapTest → Point → Step := checkRegs .parent

def checkChildRegs : MapTest → Point → Step := checkRegs .child

/-- The loop of one side, with what its barrier and its check do. -/
def loop (side : Side) (fence : Pc) (check : MapTest → Point → Step) (rounds : ℕ) (s : MapTest)
    (p : Point) : Step :=
  match p.pc with
  | .loop => .run s { p with pc := if p.i < rounds then .inc else .finished }
  | .inc => .run { s with ref := s.ref + 1 } { p with pc := .spin }
  | .spin => .run s { p with pc := if s.ref < 2 * (p.i + 1) then .testKilled else .store }
  | .testKilled => .run s { p with pc := if s.killed ≠ 0 then .aborted else .spin }
  | .store => .run { s with flag := Function.update s.flag side 1 } { p with pc := .barrier }
  | .barrier => .run s { p with pc := fence }
  | .load => .run s { p with r := s.flag side.other, pc := .checkLock }
  | .setKilled => .run { s with killed := 1 } { p with pc := .aborted }
  | .switchMode | .aborted | .finished => .halt
  | _ => check s p

/-- The parent gives up where it would have to call `membarrier`. -/
def loopParent (mode : Mode) : ℕ → MapTest → Point → Step :=
  loop .parent
    (match mode with
      | .mb | .compilerBarrier => .load
      | .membarrier | .membarrierMissingRegister => .setKilled)
    checkParentRegs

/-- The child gives up before its loop where it would have to register. -/
def loopChild (mode : Mode) (rounds : ℕ) (s : MapTest) (p : Point) : Step :=
  match p.pc with
  | .switchMode => .run s { p with pc := if mode = .membarrier then .setKilled else .loop }
  | _ => loop .child .load checkChildRegs rounds s p

def code (mode : Mode) (rounds : ℕ) (s : MapTest) (p : Point) : Step :=
  match p.side with
  | .parent => loopParent mode rounds s p
  | .child => loopChild mode rounds s p

def start : Side → Point
  | .parent => ⟨.parent, 0, 0, .loop⟩
  | .child => ⟨.child, 0, 0, .switchMode⟩

/-- Both processes, after the fork, with zero pages of shared memory. -/
def program (mode : Mode) (rounds : ℕ) :
    System (Config Side MapTest Point Mutex Empty) (Action Side) :=
  Pthread.program (code mode rounds) ⟨fun _ => 0, 0, fun _ => 0, fun _ => 0, 0⟩ start

end PthreadBenchmark.Membarrier
