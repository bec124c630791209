import PthreadBenchmark.Concurio.Absolute.Subtract

/-! # `pthread_usleep` of `concurio.c` and `thr_sleep` of `helper.c`

Both sleep in a `pthread_cond_timedwait` on a condition variable of their own. A call is known by
what it hands to the system and prints. What the system returns is given. -/

namespace PthreadBenchmark.Sleep

open Concurio.Absolute (Timeval)

structure Timespec where
  tvSec : ℤ
  tvNsec : ℤ
  deriving DecidableEq, Repr

/-- `code` is an error that is printed behind the text. -/
inductive Event where
  | lock
  | timedwait (deadline : Timespec)
  | unlock
  | stderr (text : String) (code : Option ℤ)
  | destroy
  deriving DecidableEq, Repr

/-- `ETIMEDOUT`. -/
def etimedout : ℤ := 110

/-! ## `pthread_usleep` -/

/-- The product is an `unsigned int`. -/
def usleepDeadline (usecs : UInt32) (now : Timespec) : Timespec :=
  let nsec := now.tvNsec + ((usecs * 1000).toNat : ℤ)
  if nsec ≥ 1000000000 then ⟨now.tvSec + nsec.tdiv 1000000000, nsec.tmod 1000000000⟩
  else ⟨now.tvSec, nsec⟩

/-- The loop with what its calls return. The last call need not have returned. -/
def waits (deadline : Timespec) : List ℤ → List Event
  | [] => [.timedwait deadline]
  | result :: results =>
    .timedwait deadline :: if result ≠ etimedout then waits deadline results else [.unlock]

def pthreadUsleep (usecs : UInt32) (now : Timespec) (results : List ℤ) : List Event :=
  .lock :: waits (usleepDeadline usecs now) results

/-! ## `thr_sleep` -/

def thrSleepDeadline (sec nsec : ℤ) (now : Timeval) : Timespec :=
  let tvSec := now.tvSec + sec + nsec.tdiv 1000000000
  let tvNsec := now.tvUsec * 1000 + nsec.tmod 1000000000
  if tvNsec > 1000000000 then ⟨tvSec + 1, tvNsec - 1000000000⟩ else ⟨tvSec, tvNsec⟩

/-- What `pthread_mutex_lock`, `pthread_cond_timedwait` and `pthread_mutex_unlock` return. -/
structure Returns where
  lock : ℤ
  timedwait : ℤ
  unlock : ℤ

/-- From the `pthread_mutex_unlock` on. -/
def finish (r : Returns) : List Event :=
  .unlock ::
    if r.unlock ≠ 0 then [.stderr "Error: mutex_unlock -- %s\n" (some r.unlock)] else [.destroy]

def thrSleep (sec nsec : ℤ) (now : Timeval) (r : Returns) : List Event :=
  .lock ::
    if r.lock ≠ 0 then [.stderr "Error: mutex_lock -- %s\n" (some r.lock)]
    else
      .timedwait (thrSleepDeadline sec nsec now) ::
        if r.timedwait ≠ etimedout then
          if r.timedwait = 0 then
            .stderr "pthread_cond_timedwait returned early.\n" none :: finish r
          else [.stderr "pthread_cond_timedwait error: %s\n" (some r.timedwait)]
        else finish r

end PthreadBenchmark.Sleep
