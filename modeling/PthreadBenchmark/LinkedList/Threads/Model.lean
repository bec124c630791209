import PthreadBenchmark.LinkedList.Populate
import PthreadBenchmark.Shared.PthreadRules

/-! # `Thread_operation`

The threads share the list and lock nothing: `list_mutex` is initialised and never used. Each access
to the head, to `data` and to `next` is a step of its own. -/

namespace PthreadBenchmark.LinkedList

namespace Threads

inductive Operation where
  | member
  | insert
  | delete
  deriving DecidableEq, Repr

/-- `random_number % 3`. -/
def operation (randomNumber : ℤ) : Operation :=
  if randomNumber % 3 = 0 then .member else if randomNumber % 3 = 1 then .insert else .delete

/-- Points of a call. A thread that reads or writes through a pointer that does not point to a node
is at `crashed`. -/
inductive CallPoint where
  | load
  | test (prev curr : Option ℕ)
  | advance (curr : ℕ)
  | found (prev curr : Option ℕ)
  | malloc (prev curr : Option ℕ)
  | data (prev curr : Option ℕ) (temp : ℕ)
  | next (prev curr : Option ℕ) (temp : ℕ)
  | link (prev : Option ℕ) (temp : ℕ)
  | loadNext (prev : Option ℕ) (curr : ℕ)
  | unlink (prev : Option ℕ) (curr : ℕ) (next : Option ℕ)
  | free (curr : ℕ)
  | returned (result : ℕ)
  | crashed
  deriving DecidableEq, Repr

section Calls

variable {ι : Type*}

/-- A read of the node that `p` points to. -/
def read (s : State) (p : ℕ) (next : Node ℤ → CallPoint) : Op ι State CallPoint Empty Empty :=
  match s.heap.cells p with
  | none => .run s .crashed
  | some node => .run s (next node)

/-- A write to the node that `p` points to. -/
def write (s : State) (p : ℕ) (f : Node ℤ → Node ℤ) (next : CallPoint) :
    Op ι State CallPoint Empty Empty :=
  match s.heap.cells p with
  | none => .run s .crashed
  | some node => .run { s with heap := s.heap.write p (f node) } next

/-- `*head = target` where there is no `prev`, otherwise `prev->next = target`. -/
def store (s : State) (prev target : Option ℕ) (next : CallPoint) :
    Op ι State CallPoint Empty Empty :=
  match prev with
  | none => .run { s with head := target } next
  | some p => write s p (fun node => { node with next := target }) next

/-- What the test behind the loop leads to, for the node that it reads. -/
def Operation.branch (value : ℤ) (prev : Option ℕ) (curr : ℕ) (node : Node ℤ) :
    Operation → CallPoint
  | .member => if node.data > value then .returned 0 else .returned 1
  | .insert => if node.data > value then .malloc prev (some curr) else .returned 0
  | .delete => if node.data = value then .loadNext prev curr else .returned 0

/-- The same for `curr == 0`. -/
def Operation.branchNull (prev : Option ℕ) : Operation → CallPoint
  | .member => .returned 0
  | .insert => .malloc prev none
  | .delete => .returned 0

/-- `Member`, `Insert` and `Delete`. A new node has the content `junk`. -/
def call (malloc : Malloc (Node ℤ)) (junk : Node ℤ) (op : Operation) (value : ℤ) (s : State) :
    CallPoint → Op ι State CallPoint Empty Empty
  | .load => .run s (.test none s.head)
  | .test prev none => .run s (.found prev none)
  | .test prev (some a) =>
    read s a fun node => if node.data < value then .advance a else .found prev (some a)
  | .advance curr => read s curr fun node => .test (some curr) node.next
  | .found prev none => .run s (op.branchNull prev)
  | .found prev (some a) => read s a fun node => op.branch value prev a node
  | .malloc prev curr =>
    let temp := malloc.address s.heap
    .run { s with heap := s.heap.write temp junk } (.data prev curr temp)
  | .data prev curr temp => write s temp (fun node => { node with data := value })
    (.next prev curr temp)
  | .next prev curr temp => write s temp (fun node => { node with next := curr }) (.link prev temp)
  | .link prev temp => store s prev (some temp) (.returned 1)
  | .loadNext prev curr => read s curr fun node => .unlink prev curr node.next
  | .unlink prev curr next => store s prev next (.free curr)
  | .free curr =>
    match s.heap.cells curr with
    | none => .run s .crashed
    | some _ => .run { s with heap := s.heap.free curr } (.returned 1)
  | .returned _ | .crashed => .halt

inductive Point where
  | loop
  | call (op : Operation) (value : ℤ) (point : CallPoint)
  | exited
  deriving DecidableEq, Repr

/-- A thread with what its calls of `rand` return, the number of them, and how often it has called
each operation. -/
structure Thread where
  rand : ℕ → ℕ
  draws : ℕ
  counts : Operation → ℕ
  point : Point

/-- The round of the loop behind its test. -/
def Thread.round (limits : Operation → ℕ) (t : Thread) : Thread :=
  let value := draw t.rand t.draws
  let op := operation value
  if t.counts op < limits op then
    { t with
      draws := t.draws + 1
      counts := Function.update t.counts op (t.counts op + 1)
      point := .call op value .load }
  else { t with draws := t.draws + 1 }

/-- `thread_member_number < thread_max_member_number || ...` -/
def Thread.busy (limits : Operation → ℕ) (t : Thread) : Bool :=
  t.counts .member < limits .member || t.counts .insert < limits .insert ||
    t.counts .delete < limits .delete

def threadOperation (malloc : Malloc (Node ℤ)) (junk : Node ℤ) (limits : Operation → ℕ) (s : State)
    (t : Thread) : Op ι State Thread Empty Empty :=
  match t.point with
  | .loop => .run s (if t.busy limits then t.round limits else { t with point := .exited })
  | .call _ _ (.returned _) => .run s { t with point := .loop }
  | .call op value point =>
    (call malloc junk op value s point).map (fun i => i) (fun s => s)
      fun point => { t with point := .call op value point }
  | .exited => .halt

end Calls

/-- The threads that `main` creates, for the total numbers of operations. -/
def program (malloc : Malloc (Node ℤ)) (junk : Node ℤ) {threads : ℕ} (totals : Operation → ℕ)
    (rand : Fin threads → ℕ → ℕ) (s : State) :
    System (Config (Fin threads) State Thread Empty Empty) (Action (Fin threads)) :=
  Pthread.program (threadOperation malloc junk fun op => totals op / threads) s
    fun i => ⟨rand i, 0, fun _ => 0, .loop⟩

/-- The calls that a thread has made after so many draws. -/
def drawn (limits : Operation → ℕ) (rand : ℕ → ℕ) : ℕ → List (Operation × ℤ)
  | 0 => []
  | k + 1 =>
    let prior := drawn limits rand k
    let value := draw rand k
    let op := operation value
    if prior.countP (fun c => c.1 = op) < limits op then prior ++ [(op, value)] else prior

end Threads

end PthreadBenchmark.LinkedList
