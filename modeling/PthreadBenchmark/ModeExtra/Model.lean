import PthreadBenchmark.Shared.Pthread
import PthreadBenchmark.Shared.BitTable
import Mathlib.Data.Int.Notation

/-! # The switch mode of `mode_extra.c`

Any number of threads call `mode_extra_switch`, and one runs `background_worker_main`. The
fields `s1` to `s9` of `answer` are its bits 0 to 8. Times and the score are integers. -/

namespace PthreadBenchmark.ModeExtra

open BitTable (mask)

/-- `SWITCH_BUTTON_NUM`. -/
def switchButtonNum : ℕ := 9

/-- `delay_base`. -/
def delayBase : ℤ := 300 * 1000 * 1000

/-- The fields of `struct mode_extra_status` that both functions use. -/
structure Status where
  answer : BitVec 16
  restTime : ℕ → ℤ
  score : ℤ
  terminated : Bool

/-- What `mode_extra_construct` leaves; it does not set `rest_time`. -/
def construct (restTime : ℕ → ℤ) : Status := ⟨0, restTime, 0, false⟩

/-- What the worker gets from outside: the results of `get_nano_time` and of `rand`, and
the comparison of doubles, by the score and the time since the last creation. -/
structure Env where
  clock : ℕ → ℤ
  rand : ℕ → ℕ
  due : ℤ → ℤ → Bool

/-- The variables of the worker, and how often it has called `get_nano_time` and `rand`. -/
structure Locals where
  times : ℕ
  rands : ℕ
  prevNanoTime : ℤ
  prevCreationTime : ℤ
  deriving DecidableEq, Repr

inductive Call where
  | switch (data : BitVec 16)
  | destroy
  deriving DecidableEq, Repr

/-- Points of the two functions. A call of the switch keeps in `old` the state in which it
began; the code does not read it. -/
inductive Point where
  | call (todo : List Call)
  | switchLock (data : BitVec 16) (todo : List Call)
  | answer (data : BitVec 16) (todo : List Call)
  | count (old : Status) (data : BitVec 16) (i : ℕ) (correct incorrect : BitVec 16)
      (todo : List Call)
  | clamp (old : Status) (data : BitVec 16) (todo : List Call)
  | switchUnlock (old : Status) (data : BitVec 16) (todo : List Call)
  | joinWorker
  | exited
  | workerStart
  | loop (v : Locals)
  | workerLock (v : Locals)
  | time (v : Locals)
  | expire (i : ℕ) (timeGap curNanoTime : ℤ) (v : Locals)
  | create (curNanoTime : ℤ) (v : Locals)
  | workerUnlock (v : Locals)

inductive Mutex where
  | mutex
  deriving DecidableEq, Repr

/-- `x & 1` as it is added to the score. -/
def lowBit (x : BitVec 16) : ℤ := (x &&& 1#16).toInt

/-- The clause for the button `i + 1`. -/
def expire (i : ℕ) (timeGap : ℤ) (s : Status) : Status :=
  if s.answer &&& mask 16 i ≠ 0 then
    let rest := s.restTime (i + 1) - timeGap
    let s := { s with restTime := Function.update s.restTime (i + 1) rest }
    if rest < 0 then
      { s with
        answer := s.answer &&& ~~~ mask 16 i
        score := if s.score > 0 then s.score - 1 else s.score }
    else s
  else s

/-- The creation of an answer, with the variables of the worker behind it. -/
def create (env : Env) (curNanoTime : ℤ) (v : Locals) (s : Status) : Status × Locals :=
  let microDelay := (env.rand v.rands % 10 + 1) * delayBase
  let v := { v with rands := v.rands + 1 }
  if env.due s.score (curNanoTime - v.prevCreationTime) then
    let no := 1 + env.rand v.rands % switchButtonNum
    ({ s with
      restTime := Function.update s.restTime no microDelay
      answer := s.answer ||| mask 16 (no - 1) },
      { v with rands := v.rands + 1, prevCreationTime := curNanoTime })
  else (s, v)

variable {n : ℕ}

/-- The worker is the thread `none`. -/
def code (env : Env) (s : Status) : Point → Op (Option (Fin n)) Status Point Mutex Empty
  | .call [] => .run s .exited
  | .call (.switch data :: todo) => .run s (.switchLock data todo)
  | .call (.destroy :: _) => .run { s with terminated := true } .joinWorker
  | .switchLock data todo => .lock .mutex (.answer data todo)
  | .answer data todo =>
    let correct := s.answer &&& data
    let incorrect := (s.answer ^^^ data) &&& data
    .run { s with answer := s.answer ^^^ correct } (.count s data 0 correct incorrect todo)
  | .count old data i correct incorrect todo =>
    if i < switchButtonNum then
      .run { s with score := s.score + lowBit correct - lowBit incorrect }
        (.count old data (i + 1) (correct.sshiftRight 1) (incorrect.sshiftRight 1) todo)
    else .run s (.clamp old data todo)
  | .clamp old data todo =>
    .run { s with score := if s.score < 0 then 0 else s.score } (.switchUnlock old data todo)
  | .switchUnlock _ _ todo => .unlock .mutex (.call todo)
  | .joinWorker => .join none .exited
  | .exited => .halt
  | .workerStart => .run s (.loop ⟨1, 0, env.clock 0, 0⟩)
  | .loop v => if s.terminated then .run s .exited else .run s (.workerLock v)
  | .workerLock v => .lock .mutex (.time v)
  | .time v =>
    let curNanoTime := env.clock v.times
    .run s (.expire 0 (curNanoTime - v.prevNanoTime) curNanoTime
      { v with times := v.times + 1, prevNanoTime := curNanoTime })
  | .expire i timeGap curNanoTime v =>
    if i < switchButtonNum then
      .run (expire i timeGap s) (.expire (i + 1) timeGap curNanoTime v)
    else .run s (.create curNanoTime v)
  | .create curNanoTime v =>
    let r := create env curNanoTime v s
    .run r.1 (.workerUnlock r.2)
  | .workerUnlock v => .unlock .mutex (.loop v)

/-- The calls of each thread, on a new status. -/
def program (env : Env) (restTime : ℕ → ℤ) (calls : Fin n → List Call) :
    System (Config (Option (Fin n)) Status Point Mutex Empty) (Action (Option (Fin n))) :=
  Pthread.program (code env) (construct restTime) fun
    | none => .workerStart
    | some i => .call (calls i)

end PthreadBenchmark.ModeExtra
