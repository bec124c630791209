import PthreadBenchmark.Shared.Pthread
import Mathlib.Data.Int.Notation

/-! # The event loop of `ir_event.c`

The main thread turns the keys of a remote control into commands to a music player, and `monitor`
keeps the connection alive. Both use the connection under `mutex1`, and hand it to `handle_error`
when a command has failed. -/

namespace PthreadBenchmark.IrEvent

structure InputEvent where
  type : ℕ
  code : ℕ
  value : ℤ
  deriving DecidableEq, Repr

/-- `EV_KEY`. -/
def evKey : ℕ := 1

/-- `KEY_MUTE`. -/
def keyMute : ℕ := 113

/-- `KEY_POWER`. -/
def keyPower : ℕ := 116

/-- `KEY_STOP`. -/
def keyStop : ℕ := 128

/-- `KEY_PLAYPAUSE`. -/
def keyPlaypause : ℕ := 164

/-- `enum mpd_state`. -/
inductive MpdState where
  | unknown
  | stop
  | play
  | pause
  deriving DecidableEq, Repr

/-- Whether a call on the connection succeeds; `state` is for `mpd_run_status`. -/
structure Reply where
  ok : Bool
  state : MpdState
  deriving DecidableEq, Repr

/-- The events that `read` returns, `none` where it fails, the replies to the calls on the
connection in the order of the calls, and whether the device can be opened. -/
structure Env where
  events : ℕ → Option InputEvent
  replies : ℕ → Reply
  opens : Bool

/-- How many events have been read and how many replies taken. As history, whether `handle_error`
has freed the connection, how often it has been freed, and whether it was used after that. The
process may have `exited`. -/
structure Shared where
  isRunning : Bool
  created : Bool
  reads : ℕ
  calls : ℕ
  handled : Bool
  freed : ℕ
  usedLate : Bool
  exited : Bool
  deriving DecidableEq, Repr

inductive Mutex where
  | mutex1
  deriving DecidableEq, Repr

inductive Tid where
  | main
  | monitor
  | signal
  deriving DecidableEq, Repr

instance : Fintype Tid := ⟨{.main, .monitor, .signal}, fun t => by cases t <;> simp⟩

/-- The keys that ask for the status. -/
inductive StatusKey where
  | stop
  | playpause
  deriving DecidableEq, Repr

/-- Points of `handle_error`. -/
inductive ErrorPc where
  | getError
  | getErrorMessage
  | free
  deriving DecidableEq, Repr

/-- Where the main thread calls `handle_error`. -/
inductive Caller where
  | connect
  | getStatus (key : StatusKey)
  | command
  deriving DecidableEq, Repr

/-- Points of `main`. It comes back to its loop with `held` when it has left the switch by
`continue`. -/
inductive MainPc where
  | connect
  | handleError (caller : Caller) (pc : ErrorPc)
  | create
  | openDevice
  | openFailed
  | test (held : Bool)
  | read (held : Bool)
  | lock (ev : InputEvent) (held : Bool)
  | switch (ev : InputEvent)
  | changeVolume
  | clearError
  | runStatus (key : StatusKey)
  | getState (key : StatusKey) (status : Option MpdState)
  | runStop
  | sendPause
  | responseFinish
  | runPlay
  | unlock
  | destroy (held : Bool)
  | join (held : Bool)
  | free (held : Bool)
  | exit (held : Bool)
  | gone (held : Bool)
  deriving DecidableEq, Repr

/-- Points of `monitor`. -/
inductive MonitorPc where
  | start
  | test
  | lock
  | changeVolume
  | clearError
  | handleError (pc : ErrorPc)
  | unlock
  | usleep
  | exit
  deriving DecidableEq, Repr

inductive Point where
  | main (pc : MainPc)
  | monitor (pc : MonitorPc)
  | signal
  deriving DecidableEq, Repr

variable (env : Env) (s : Shared)

/-- A call on the connection. -/
def Shared.use : Shared := { s with usedLate := s.usedLate || s.handled }

/-- A call on the connection that has a reply. -/
def Shared.call : Shared := { s.use with calls := s.calls + 1 }

def Env.reply : Reply := env.replies s.calls

/-- `mpd_connection_free(conn)`. -/
def Shared.free (byHandler : Bool) : Shared :=
  { s.use with handled := s.handled || byHandler, freed := s.freed + 1 }

abbrev Step := Op Tid Shared Point Mutex Empty

/-- The error of the call that has failed is still set, so the assertion holds. -/
def handleError (goto : ErrorPc → Point) (next : Point) : ErrorPc → Step
  | .getError => .run s.use (goto .getErrorMessage)
  | .getErrorMessage => .run s.use (goto .free)
  | .free => .run (s.free true) next

/-- A call that goes on at `onError` when it fails. -/
def runCommand (next onError : MainPc) : Step :=
  .run s.call (.main (if (env.reply s).ok then next else onError))

/-- Where the main thread goes on behind `handle_error`. Its status is `NULL` then. -/
def Caller.next : Caller → MainPc
  | .connect => .exit false
  | .getStatus key => .getState key none
  | .command => .unlock

def switch (ev : InputEvent) : MainPc :=
  if ev.code = keyPower then .unlock
  else if ev.code = keyMute then if ev.value = 1 then .changeVolume else .unlock
  else if ev.code = keyStop then if ev.value = 1 then .runStatus .stop else .unlock
  else if ev.code = keyPlaypause then if ev.value = 1 then .runStatus .playpause else .unlock
  else .test true

/-- The command that follows from the state of the player. -/
def command : StatusKey → MpdState → MainPc
  | .stop, .play | .stop, .pause => .runStop
  | .stop, _ => .unlock
  | .playpause, .play => .sendPause
  | .playpause, .pause | .playpause, .stop => .runPlay
  | .playpause, _ => .unlock

def main : MainPc → Step
  | .connect => runCommand env s .create (.handleError .connect .getError)
  | .handleError caller pc =>
    handleError s (fun pc => .main (.handleError caller pc)) (.main caller.next) pc
  | .create => .run { s with created := true } (.main .openDevice)
  | .openDevice => .run s (.main (if env.opens then .test false else .openFailed))
  | .openFailed => .run (s.free false) (.main (.exit false))
  | .test held => .run s (.main (if s.isRunning then .read held else .destroy held))
  | .read held =>
    .run { s with reads := s.reads + 1 } (.main (match env.events s.reads with
      | none => .test held
      | some ev => if ev.type ≠ evKey then .test held else .lock ev held))
  | .lock ev _ => .lock .mutex1 (.main (.switch ev))
  | .switch ev => .run s (.main (switch ev))
  | .changeVolume => runCommand env s .unlock .clearError
  | .clearError => runCommand env s .unlock (.handleError .command .getError)
  | .runStatus key =>
    if (env.reply s).ok then .run s.call (.main (.getState key (some (env.reply s).state)))
    else .run s.call (.main (.handleError (.getStatus key) .getError))
  | .getState key (some state) => .run s (.main (command key state))
  -- `mpd_status_get_state(NULL)` ends the process
  | .getState _ none => .run { s with exited := true } (.main (.gone true))
  | .runStop => runCommand env s .unlock (.handleError .command .getError)
  | .sendPause => .run s.use (.main .responseFinish)
  | .responseFinish => runCommand env s .unlock (.handleError .command .getError)
  | .runPlay => runCommand env s .unlock (.handleError .command .getError)
  | .unlock => .unlock .mutex1 (.main (.test false))
  | .destroy held => .run s (.main (.join held))
  | .join held => .join .monitor (.main (.free held))
  | .free held => .run (s.free false) (.main (.exit held))
  | .exit held => .run { s with exited := true } (.main (.gone held))
  | .gone _ => .halt

def monitor : MonitorPc → Step
  | .start => if s.created then .run s (.monitor .test) else .halt
  | .test => .run s (.monitor (if s.isRunning then .lock else .exit))
  | .lock => .lock .mutex1 (.monitor .changeVolume)
  | .changeVolume => .run s.call (.monitor (if (env.reply s).ok then .unlock else .clearError))
  | .clearError =>
    .run s.call (.monitor (if (env.reply s).ok then .unlock else .handleError .getError))
  | .handleError pc => handleError s (fun pc => .monitor (.handleError pc)) (.monitor .unlock) pc
  | .unlock => .unlock .mutex1 (.monitor .usleep)
  | .usleep => .run s (.monitor .test)
  | .exit => .halt

/-- The handler of `SIGINT` may run at any time. -/
def intHandler : Step := .run { s with isRunning := false } .signal

def operation : Point → Step
  | .main pc => main env s pc
  | .monitor pc => monitor env s pc
  | .signal => intHandler s

/-- No thread outlives the process. -/
def code (p : Point) : Step := if s.exited then .halt else operation env s p

def start : Tid → Point
  | .main => .main .connect
  | .monitor => .monitor .start
  | .signal => .signal

def initial : Shared := ⟨true, false, 0, 0, false, 0, false, false⟩

def program : System (Config Tid Shared Point Mutex Empty) (Action Tid) :=
  Pthread.program (code env) initial start

end PthreadBenchmark.IrEvent
