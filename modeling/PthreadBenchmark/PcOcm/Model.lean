import PthreadBenchmark.Shared.Pthread

/-! # The two buffers of `pc_ocm.c`

The producer copies the on-chip memory into the buffers A and B by turns, the consumer processes
them. What the code does with A it does with B. -/

namespace PthreadBenchmark.PcOcm

inductive Buffer where
  | a
  | b
  deriving DecidableEq, Repr

/-- A buffer and its flags. The content `mem` is known by the number of the copy that brought it;
`copies` and `processed` are history: how many copies have been made, and which of them have been
processed. -/
structure Slot where
  isProcessing : Bool
  isEmpty : Bool
  mem : ℕ
  copies : ℕ
  processed : List ℕ
  deriving DecidableEq, Repr

abbrev Shared : Type := Buffer → Slot

inductive Tid where
  | producer
  | consumer
  deriving DecidableEq, Repr

instance : Fintype Tid := ⟨{.producer, .consumer}, fun t => by cases t <;> simp⟩

inductive Mutex where
  | mutex (buf : Buffer)
  deriving DecidableEq, Repr

inductive Cond where
  | isReady (buf : Buffer)
  | isntProcessing (buf : Buffer)
  deriving DecidableEq, Repr

/-- Points of the producer and of the consumer, with the buffer in hand and the rounds behind the
current one. -/
inductive Point where
  | proLock (buf : Buffer) (i : ℕ)
  | proTest (buf : Buffer) (i : ℕ)
  | proUnlock (buf : Buffer) (i : ℕ)
  | proSignal (buf : Buffer) (i : ℕ)
  | conLock (buf : Buffer) (i : ℕ)
  | conTest (buf : Buffer) (i : ℕ)
  | conProcess (buf : Buffer) (i : ℕ)
  | conUnlock (buf : Buffer) (i : ℕ)
  | conSignal (buf : Buffer) (i : ℕ)
  | exited
  deriving DecidableEq, Repr

/-- `isEmpty = 0`, and the copy loop. -/
def copyIn (slot : Slot) : Slot :=
  { slot with isEmpty := false, mem := slot.copies, copies := slot.copies + 1 }

/-- `isProcessing = 1`, and the processing of the content. -/
def beginProcess (slot : Slot) : Slot :=
  { slot with isProcessing := true, processed := slot.processed ++ [slot.mem] }

def endProcess (slot : Slot) : Slot := { slot with isProcessing := false, isEmpty := true }

/-- The loop `for (i = 0; i < 20; i++)` over a body that takes A and then B, behind the buffer
`buf`. -/
def loop (lock : Buffer → ℕ → Point) : Buffer → ℕ → Point
  | .a, i => lock .b i
  | .b, 0 => .exited
  | .b, i + 1 => lock .a i

def code (s : Shared) : Point → Op Tid Shared Point Mutex Cond
  | .proLock buf i => .lock (.mutex buf) (.proTest buf i)
  | .proTest buf i =>
    if (s buf).isProcessing then .wait (.isntProcessing buf) (.mutex buf) (.proTest buf i)
    else .run (Function.update s buf (copyIn (s buf))) (.proUnlock buf i)
  | .proUnlock buf i => .unlock (.mutex buf) (.proSignal buf i)
  | .proSignal buf i => .signal (.isReady buf) (loop .proLock buf i)
  | .conLock buf i => .lock (.mutex buf) (.conTest buf i)
  | .conTest buf i =>
    if (s buf).isEmpty then .wait (.isReady buf) (.mutex buf) (.conTest buf i)
    else .run (Function.update s buf (beginProcess (s buf))) (.conProcess buf i)
  | .conProcess buf i => .run (Function.update s buf (endProcess (s buf))) (.conUnlock buf i)
  | .conUnlock buf i => .unlock (.mutex buf) (.conSignal buf i)
  | .conSignal buf i => .signal (.isntProcessing buf) (loop .conLock buf i)
  | .exited => .halt

/-- Before the loop the buffer B is behind us. -/
def start (rounds : ℕ) : Tid → Point
  | .producer => loop .proLock .b rounds
  | .consumer => loop .conLock .b rounds

def queueInit : Shared := fun _ => ⟨false, true, 0, 0, []⟩

def program (rounds : ℕ) : System (Config Tid Shared Point Mutex Cond) (Action Tid) :=
  Pthread.program code queueInit (start rounds)

end PthreadBenchmark.PcOcm
