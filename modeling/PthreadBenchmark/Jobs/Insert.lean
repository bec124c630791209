import PthreadBenchmark.Shared.Heap
import Mathlib.Data.Int.Notation

/-! # Building the job list of `assignment2question2.c`

A step fails, with result `none`, where the code would read through a pointer to no cell or
through an unassigned pointer, or where a loop has met more cells than were ever allocated.
Times are integers. -/

namespace PthreadBenchmark.Jobs

/-- The fields of a `struct node` other than `next`. -/
structure JobData (υ : Type) where
  user : υ
  process : UInt8
  arrival : ℤ
  duration : ℤ
  priority : ℤ
  deriving DecidableEq, Repr

variable {υ : Type}

/-- The key of the order, `arrival + duration`. -/
def JobData.due (x : JobData υ) : ℤ := x.arrival + x.duration

structure JobList (υ : Type) where
  heap : Heap (Node (JobData υ))
  head : Option ℕ

/-- The list as `initialise` leaves it. -/
def initialise : JobList υ := ⟨.empty, none⟩

/-- Why a call does not return. -/
inductive Stop where
  | fault
  | exited
  deriving DecidableEq, Repr

/-- Counts the nodes from `temp` on that pass the test. -/
def countLoop (test : JobData υ → Bool) (heap : Heap (Node (JobData υ))) :
    ℕ → Option ℕ → ℕ → Option ℕ
  | 0, _, _ => none
  | _ + 1, none, c => some c
  | fuel + 1, some a, c =>
    (heap.cells a).bind fun n =>
      countLoop test heap fuel n.next (if test n.data then c + 1 else c)

def countFrom (test : JobData υ → Bool) (s : JobList υ) : Option ℕ :=
  countLoop test s.heap (s.heap.bound + 1) s.head 0

/-- The first loop of `insert`. -/
def countSmaller (x : JobData υ) (s : JobList υ) : Option ℕ :=
  countFrom (fun y => decide (y.due < x.due)) s

def count (s : JobList υ) : Option ℕ := countFrom (fun _ => true) s

/-- The loop of `addafter` with `left`, which starts unassigned, and `right`. -/
def addafterLoop (heap : Heap (Node (JobData υ))) :
    ℕ → Option (Option ℕ) → Option ℕ → Option (Option (Option ℕ) × Option ℕ)
  | 0, left, right => some (left, right)
  | n + 1, _, right =>
    right.bind fun a => (heap.cells a).bind fun node =>
      addafterLoop heap n (some right) node.next

/-- `while (right->next != NULL) right = right->next`. -/
def lastLoop (heap : Heap (Node (JobData υ))) : ℕ → Option ℕ → Option ℕ
  | 0, _ => none
  | fuel + 1, right =>
    right.bind fun a => (heap.cells a).bind fun node =>
      match node.next with
      | none => some a
      | some b => lastLoop heap fuel (some b)

/-- A missing value is a fault of the program. -/
def orFault {β : Type} : Option β → Except Stop β
  | none => .error .fault
  | some b => .ok b

/-- `malloc`, which returns NULL unless `granted`, and the assignments to the new node; its
`next` is the one the caller gives it below. -/
def newNode (malloc : Malloc (Node (JobData υ))) (granted : Bool) (x : JobData υ)
    (next : Option ℕ) (s : JobList υ) : Except Stop (ℕ × Heap (Node (JobData υ))) :=
  if granted then
    .ok (malloc.address s.heap, s.heap.write (malloc.address s.heap) ⟨x, next⟩)
  else .error .exited

section

variable (malloc : Malloc (Node (JobData υ))) (granted : Bool) (x : JobData υ)

def add (s : JobList υ) : Except Stop (JobList υ) := do
  let (temp, heap) ← newNode malloc granted x s.head s
  return ⟨heap, some temp⟩

def addafter (loc : ℕ) (s : JobList υ) : Except Stop (JobList υ) := do
  let (left, right) ← orFault (addafterLoop s.heap (loc - 1) none s.head)
  let (temp, heap) ← newNode malloc granted x right s
  let left ← orFault left.join
  let (heap, head) ← orFault (relink heap s.head (some left) (some temp))
  return ⟨heap, head⟩

/-- The last branch of `insert`, which appends. -/
def append (s : JobList υ) : Except Stop (JobList υ) := do
  let (temp, heap) ← newNode malloc granted x none s
  let right ← orFault (lastLoop heap (heap.bound + 1) s.head)
  let (heap, head) ← orFault (relink heap s.head (some right) (some temp))
  return ⟨heap, head⟩

/-- The branch that `insert` takes. -/
inductive Branch where
  | add
  | addafter (loc : ℕ)
  | append
  deriving DecidableEq, Repr

def insertBranch (s : JobList υ) : Option Branch :=
  match s.head with
  | none => some .add
  | some _ =>
    (countSmaller x s).bind fun c =>
      if c = 0 then some .add
      else (count s).map fun total => if c < total then .addafter (c + 1) else .append

def insert (s : JobList υ) : Except Stop (JobList υ) := do
  match ← orFault (insertBranch x s) with
  | .add => add malloc granted x s
  | .addafter loc => addafter malloc granted x loc s
  | .append => append malloc granted x s

end

/-- The calls of `insert` in turn, each with whether its `malloc` is granted. -/
def insertAll (malloc : Malloc (Node (JobData υ))) :
    List (Bool × JobData υ) → JobList υ → Except Stop (JobList υ)
  | [], s => .ok s
  | (granted, x) :: calls, s => insert malloc granted x s >>= insertAll malloc calls

end PthreadBenchmark.Jobs
