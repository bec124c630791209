import PthreadBenchmark.Shared.HeapOwners
import PthreadBenchmark.Shared.PthreadRules

/-! # The producers and the consumers of `02.c`

The nodes are cells of a heap, and what is freed may be allocated again. A consumer frees its node
behind the unlock. -/

namespace PthreadBenchmark.NodeStack

/-- The lines `"Producer %d produced %d\n"`, `"%d consume wait\n"` and
`"Consumer %d consumed %d\n"`. -/
inductive Event (consumers producers : ℕ) where
  | produced (id : Fin producers) (num : ℕ)
  | consumeWait (id : Fin consumers)
  | consumed (id : Fin consumers) (num : ℕ)
  deriving DecidableEq, Repr

structure Shared (consumers producers : ℕ) where
  heap : Heap (Node ℕ)
  head : Option ℕ
  printed : List (Event consumers producers)

/-- Points of `consume`. A thread that reads or writes through a pointer that does not point to a
node is at `crashed`. -/
inductive ConsumePoint where
  | lock
  | test
  | printWait
  | wait
  | load
  | advance (p : Option ℕ)
  | print (p : Option ℕ)
  | unlock (p : Option ℕ)
  | free (p : Option ℕ)
  | crashed
  deriving DecidableEq, Repr

/-- Points of `produce`, in the round for the number `i`. -/
inductive ProducePoint where
  | lock (i : ℕ)
  | malloc (i : ℕ)
  | num (p i : ℕ)
  | next (p i : ℕ)
  | head (p i : ℕ)
  | print (p i : ℕ)
  | signal (i : ℕ)
  | unlock (i : ℕ)
  | crashed
  deriving DecidableEq, Repr

inductive Point (consumers producers : ℕ) where
  | consume (id : Fin consumers) (point : ConsumePoint)
  | produce (id : Fin producers) (point : ProducePoint)
  deriving DecidableEq, Repr

inductive Mutex where
  | mutex
  deriving DecidableEq, Repr

inductive Cond where
  | cond
  deriving DecidableEq, Repr

abbrev Tid (consumers producers : ℕ) : Type := Fin consumers ⊕ Fin producers

variable {consumers producers : ℕ}

/-- The node that `p` points to. -/
def node? (s : Shared consumers producers) (p : Option ℕ) : Option (Node ℕ) := p.bind s.heap.cells

def consume (id : Fin consumers) (s : Shared consumers producers) : ConsumePoint →
    Op (Tid consumers producers) (Shared consumers producers) ConsumePoint Mutex Cond
  | .lock => .lock .mutex .test
  | .test => .run s (if s.head = none then .printWait else .load)
  | .printWait => .run { s with printed := s.printed ++ [.consumeWait id] } .wait
  | .wait => .wait .cond .mutex .test
  | .load => .run s (.advance s.head)
  | .advance p =>
    match node? s s.head with
    | none => .run s .crashed
    | some node => .run { s with head := node.next } (.print p)
  | .print p =>
    match node? s p with
    | none => .run s .crashed
    | some node => .run { s with printed := s.printed ++ [.consumed id node.data] } (.unlock p)
  | .unlock p => .unlock .mutex (.free p)
  | .free none => .run s .lock
  | .free (some p) =>
    match s.heap.cells p with
    | none => .run s .crashed
    | some _ => .run { s with heap := s.heap.free p } .lock
  | .crashed => .halt

/-- `p->... = ...` -/
def store (s : Shared consumers producers) (p : ℕ) (f : Node ℕ → Node ℕ) (q : ProducePoint) :
    Op (Tid consumers producers) (Shared consumers producers) ProducePoint Mutex Cond :=
  match s.heap.cells p with
  | none => .run s .crashed
  | some node => .run { s with heap := s.heap.write p (f node) } q

def produce (malloc : Malloc (Node ℕ)) (id : Fin producers) (s : Shared consumers producers) :
    ProducePoint → Op (Tid consumers producers) (Shared consumers producers) ProducePoint Mutex Cond
  | .lock i => .lock .mutex (.malloc i)
  | .malloc i =>
    let p := malloc.address s.heap
    .run { s with heap := s.heap.write p ⟨0, none⟩ } (.num p i)
  | .num p i => store s p (fun node => { node with data := i }) (.next p i)
  | .next p i => store s p (fun node => { node with next := s.head }) (.head p i)
  | .head p i => .run { s with head := some p } (.print p i)
  | .print p i =>
    match s.heap.cells p with
    | none => .run s .crashed
    | some node => .run { s with printed := s.printed ++ [.produced id node.data] } (.signal i)
  | .signal i => .signal .cond (.unlock i)
  | .unlock i => .unlock .mutex (.lock (i + 1))
  | .crashed => .halt

def code (malloc : Malloc (Node ℕ)) (s : Shared consumers producers) :
    Point consumers producers →
      Op (Tid consumers producers) (Shared consumers producers) (Point consumers producers) Mutex
        Cond
  | .consume id point => (consume id s point).map (fun j => j) (fun s => s) (.consume id)
  | .produce id point => (produce malloc id s point).map (fun j => j) (fun s => s) (.produce id)

def start : Tid consumers producers → Point consumers producers
  | .inl id => .consume id .lock
  | .inr id => .produce id (.lock 0)

/-- The threads of `main`. -/
def program (malloc : Malloc (Node ℕ)) (consumers producers : ℕ) :
    System (Config (Tid consumers producers) (Shared consumers producers)
      (Point consumers producers) Mutex Cond) (Action (Tid consumers producers)) :=
  Pthread.program (code malloc) ⟨.empty, none, []⟩ start

/-! ## The stack that the threads share -/

/-- What a line says of the stack of the numbers that have not been consumed. -/
def apply (stack : List ℕ) : Event consumers producers → Option (List ℕ)
  | .produced _ num => some (num :: stack)
  | .consumeWait _ => if stack = [] then some stack else none
  | .consumed _ num =>
    match stack with
    | [] => none
    | top :: rest => if top = num then some rest else none

/-- The stack behind the lines, if they can be those of a stack. -/
def replay (printed : List (Event consumers producers)) : Option (List ℕ) :=
  printed.foldlM apply []

/-- The number of a line of the producer. -/
def number? (id : Fin producers) : Event consumers producers → Option ℕ
  | .produced id' num => if id' = id then some num else none
  | _ => none

def numbers (id : Fin producers) (printed : List (Event consumers producers)) : List ℕ :=
  printed.filterMap (number? id)

/-- The lines are those of a stack onto which each producer puts its numbers one by one. -/
structure IsTrace (printed : List (Event consumers producers)) : Prop where
  stack : (replay printed).isSome
  numbers : ∀ id, numbers id printed = List.range (numbers id printed).length

end PthreadBenchmark.NodeStack
