import PthreadBenchmark.Shared.Pthread

/-! # The producer and the consumer of `06test_pro_con.c`

The producer makes one unit in each round, the consumer takes whatever there is in each of its
rounds. The accesses of one critical section are one operation. -/

namespace PthreadBenchmark.ProCon

structure Shared where
  data : ℕ
  deriving DecidableEq, Repr

inductive Tid where
  | main
  | pro
  | con
  deriving DecidableEq, Repr

instance : Fintype Tid := ⟨{.main, .pro, .con}, fun t => by cases t <;> simp⟩

inductive Mutex where
  | mutex
  deriving DecidableEq, Repr

inductive Cond where
  | cond
  deriving DecidableEq, Repr

/-- Points of `pro_handler` and of `con_handler`, with the rounds behind the current one, and of
`main` at its joins. -/
inductive Point where
  | proLock (i : ℕ)
  | proIncrement (i : ℕ)
  | proUnlock (i : ℕ)
  | proSignal (i : ℕ)
  | conLock (i : ℕ)
  | conTest (i : ℕ)
  | conUnlock (i : ℕ)
  | joinPro
  | joinCon
  | exited
  deriving DecidableEq, Repr

/-- `while (data > 0) --data` -/
def drain : ℕ → ℕ
  | 0 => 0
  | data + 1 => drain data

def code (s : Shared) : Point → Op Tid Shared Point Mutex Cond
  | .proLock 0 => .halt
  | .proLock (i + 1) => .lock .mutex (.proIncrement i)
  | .proIncrement i => .run ⟨s.data + 1⟩ (.proUnlock i)
  | .proUnlock i => .unlock .mutex (.proSignal i)
  | .proSignal i => .signal .cond (.proLock i)
  | .conLock 0 => .halt
  | .conLock (i + 1) => .lock .mutex (.conTest i)
  | .conTest i =>
    if s.data = 0 then .wait .cond .mutex (.conTest i) else .run ⟨drain s.data⟩ (.conUnlock i)
  | .conUnlock i => .unlock .mutex (.conLock i)
  | .joinPro => .join .pro .joinCon
  | .joinCon => .join .con .exited
  | .exited => .halt

/-- Both handlers go through `rounds` rounds. -/
def start (rounds : ℕ) : Tid → Point
  | .main => .joinPro
  | .pro => .proLock rounds
  | .con => .conLock rounds

def program (rounds data : ℕ) : System (Config Tid Shared Point Mutex Cond) (Action Tid) :=
  Pthread.program code ⟨data⟩ (start rounds)

end PthreadBenchmark.ProCon
