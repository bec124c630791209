import PthreadBenchmark.Skynet.Start

/-! # The critical sections of the monitor

Each thread is in its critical section between the lock and the unlock that follow each other in its
code. A worker that waits is in it again when it has woken up. -/

namespace PthreadBenchmark.Skynet

open Pthread

variable {n : ℕ} {dispatch : Fin n → ℕ → ℤ} {poll : ℕ → ℤ} {m : Monitor} {p q : Point n}
  {s : Process}

def WorkerPc.Inside : WorkerPc → Prop
  | .loopTest | .loopUnlock | .breakUnlock | .sleepInc | .sleepTest | .sleepDec
  | .sleepUnlock => True
  | _ => False

def PollerPc.Inside : PollerPc → Prop
  | .loopTest | .loopUnlock | .breakUnlock | .wakeupTest _ | .wakeupSignal | .wakeupUnlock => True
  | _ => False

def ShutdownPc.Inside : ShutdownPc → Prop
  | .setQuit | .broadcast | .unlock => True
  | _ => False

def inside (p : Point n) (_ : Mutex) : Prop :=
  match p with
  | .worker _ _ pc => pc.Inside
  | .poller _ _ pc => pc.Inside
  | .shutdown pc => pc.Inside

theorem tracks_worker (m : Monitor) (i : Fin n) (k : ℕ) (pc : WorkerPc) :
    Tracks inside (.worker i k pc) (threadWorker dispatch m i k pc) := by
  cases pc with
  | loopLock | loopUnlock | breakUnlock | sleepLock | sleepUnlock =>
      intro m'
      simp [inside, WorkerPc.Inside]
  | loopTest =>
      intro m'
      simp only [inside]
      split <;> exact Iff.rfl
  | dispatch =>
      simp only [threadWorker]
      split <;> exact fun _ => Iff.rfl
  | sleepTest =>
      simp only [threadWorker]
      split
      · exact ⟨trivial, fun _ => Iff.rfl⟩
      · exact fun _ => Iff.rfl
  | sleepInc | sleepDec => exact fun _ => Iff.rfl
  | exited => trivial

theorem tracks_poller (m : Monitor) (which : Poller) (k : ℕ) (pc : PollerPc) :
    Tracks inside (.poller which k pc) (threadPoller (n := n) poll m which k pc) := by
  cases pc with
  | loopLock | loopUnlock | breakUnlock | wakeupLock busy | wakeupUnlock =>
      intro m'
      simp [inside, PollerPc.Inside]
  | loopTest | wakeupTest busy =>
      intro m'
      simp only [inside]
      split <;> exact Iff.rfl
  | poll =>
      cases which with
      | timer => exact fun _ => Iff.rfl
      | socket =>
          simp only [threadPoller]
          split
          · exact fun _ => Iff.rfl
          · split <;> exact fun _ => Iff.rfl
  | wakeupSignal => exact fun _ => Iff.rfl
  | exited => trivial

theorem tracks_shutdown (m : Monitor) (pc : ShutdownPc) :
    Tracks inside (.shutdown pc) (skynetShutdown (n := n) m pc) := by
  cases pc with
  | lock | unlock =>
      intro m'
      simp [inside, ShutdownPc.Inside]
  | setQuit | broadcast => exact fun _ => Iff.rfl
  | returned => trivial

theorem tracks_code (m : Monitor) (p : Point n) : Tracks inside p (code dispatch poll m p) := by
  cases p with
  | worker i k pc => exact tracks_worker m i k pc
  | poller which k pc => exact tracks_poller m which k pc
  | shutdown pc => exact tracks_shutdown m pc

def processInside (P : ProcessPoint n) (m : Mutex) : Prop :=
  match P with
  | .start _ => False
  | .thread p => inside p m

theorem tracks_processCode (s : Process) (P : ProcessPoint n) :
    Tracks processInside P (processCode dispatch poll s P) := by
  cases P with
  | start pc =>
      cases pc with
      | create i | join i =>
          simp only [processCode, skynetStart]
          split <;> exact fun _ => Iff.rfl
      | destroyMutex | destroyCond | freePids | freeMonitor => exact fun _ => Iff.rfl
      | returned => trivial
  | thread p =>
      simp only [processCode]
      split
      · exact tracks_map (fun _ _ => Iff.rfl) (tracks_code s.monitor p)
      · trivial

/-- The point of a worker behind its wait. -/
def Resting (P : ProcessPoint n) : Prop := ∃ i k, P = .thread (.worker i k .sleepDec)

theorem wait_code {cv : Cond} {m' : Mutex} (h : code dispatch poll m p = .wait cv m' q) :
    ∃ i k, q = .worker i k .sleepDec := by
  cases p with
  | worker i k pc =>
      cases pc <;> simp only [code, threadWorker, reduceCtorEq] at h
      case sleepTest =>
        split at h <;> cases h
        exact ⟨i, k, rfl⟩
  | poller which k pc =>
      cases pc <;> simp only [code, threadPoller, reduceCtorEq] at h
      case poll =>
        cases which with
        | timer => cases h
        | socket =>
            simp only at h
            split at h
            · cases h
            · split at h <;> cases h
  | shutdown pc => cases pc <;> cases h

theorem resting_of_wait (s : Process) (P : ProcessPoint n) (cv : Cond) (m : Mutex)
    (Q : ProcessPoint n) (h : processCode dispatch poll s P = .wait cv m Q) : Resting Q := by
  cases P with
  | start pc =>
      cases pc <;> simp only [processCode, skynetStart, reduceCtorEq] at h
      all_goals
        split at h <;> cases h
  | thread p =>
      simp only [processCode] at h
      split at h
      · obtain ⟨q, hq, rfl⟩ := Op.exists_of_wait_map h
        obtain ⟨i, k, rfl⟩ := wait_code hq
        exact ⟨i, k, rfl⟩
      · cases h

theorem not_inside_start (t : Thread n) (m : Mutex) : ¬ processInside (processStart t) m := by
  rcases t with - | i | service
  · exact id
  · exact id
  · cases service <;> exact id

end PthreadBenchmark.Skynet
