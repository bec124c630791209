import PthreadBenchmark.Shared.Heap
import PthreadBenchmark.Shared.Blocking
import Mathlib.Data.Int.Notation

/-! # The list with a semaphore of `zad_dom1.c`

An operation on the list fails, with result `none`, where the code would read through a pointer to
no cell, or where its loop has met more cells than were ever allocated. A thread whose
operation fails stops at `fault`. -/

namespace PthreadBenchmark.SemStack

structure Lista where
  heap : Heap (Node ℤ)
  lista : Option ℕ

/-- `while (cursor->next)`, with the last values of `prev` and `cursor`. -/
def walk (heap : Heap (Node ℤ)) : ℕ → Option ℕ → ℕ → Option (Option ℕ × ℕ)
  | 0, _, _ => none
  | fuel + 1, prev, cursor =>
    (heap.cells cursor).bind fun n =>
      match n.next with
      | none => some (prev, cursor)
      | some next => walk heap fuel (some cursor) next

def pushF (malloc : Malloc (Node ℤ)) (value : ℤ) (l : Lista) : Option Lista :=
  let newElement := malloc.address l.heap
  let heap := l.heap.write newElement ⟨value, none⟩
  match l.lista with
  | none => some ⟨heap, some newElement⟩
  | some head =>
    (walk heap (heap.bound + 1) none head).bind fun (_, cursor) =>
      (heap.cells cursor).map fun n =>
        ⟨heap.write cursor { n with next := some newElement }, l.lista⟩

def popF (l : Lista) : Option (ℤ × Lista) :=
  match l.lista with
  | none => some (-1, l)
  | some head =>
    (walk l.heap (l.heap.bound + 1) none head).bind fun (prev, cursor) =>
      (l.heap.cells cursor).bind fun n =>
        match prev with
        | none => some (n.data, ⟨l.heap.free cursor, none⟩)
        | some p =>
          ((l.heap.free cursor).cells p).map fun m =>
            (n.data, ⟨(l.heap.free cursor).write p { m with next := none }, l.lista⟩)

/-! ## Threads -/

/-- What `push_f` has been given and `pop_f` has returned. -/
inductive Event where
  | push (value : ℤ)
  | pop (value : ℤ)
  deriving DecidableEq, Repr

/-- `log` is history. -/
structure Shared where
  list : Lista
  sem : ℕ
  log : List Event

inductive Mutex where
  | mutex
  deriving DecidableEq, Repr

/-- Points of `popThread`, and of the `pushThread` with the number `id` in its round `k`. -/
inductive Point (n : ℕ) where
  | popWait
  | popLock
  | popBody
  | popUnlock
  | pushLock (id : Fin n) (k : ℕ)
  | pushBody (id : Fin n) (k : ℕ) (val : ℤ)
  | pushUnlock (id : Fin n) (k : ℕ)
  | pushPost (id : Fin n) (k : ℕ)
  | fault

/-- The threads that pop and the threads that push. -/
abbrev Tid (poppers pushers : ℕ) := Fin poppers ⊕ Fin pushers

variable {m n : ℕ}

/-- `rand id k` is what `rand` returns to the thread `id` in its round `k`. -/
def code (malloc : Malloc (Node ℤ)) (rand : Fin n → ℕ → ℕ) (s : Shared) (p : Point n) :
    Op (Tid m n) Shared (Point n) Mutex Empty :=
  match p with
  | .popWait => .await (0 < s.sem) s { s with sem := s.sem - 1 } .popWait .popLock
  | .popLock => .lock .mutex .popBody
  | .popBody =>
    match popF s.list with
    | none => .run s .fault
    | some (val, list) => .run { s with list := list, log := s.log ++ [.pop val] } .popUnlock
  | .popUnlock => .unlock .mutex .popWait
  | .pushLock id k => .lock .mutex (.pushBody id k (rand id k % 100 : ℕ))
  | .pushBody id k val =>
    match pushF malloc val s.list with
    | none => .run s .fault
    | some list => .run { s with list := list, log := s.log ++ [.push val] } (.pushUnlock id k)
  | .pushUnlock id k => .unlock .mutex (.pushPost id k)
  | .pushPost id k => .run { s with sem := s.sem + 1 } (.pushLock id (k + 1))
  | .fault => .halt

def start : Tid m n → Point n
  | .inl _ => .popWait
  | .inr id => .pushLock id 0

def program (m : ℕ) (malloc : Malloc (Node ℤ)) (rand : Fin n → ℕ → ℕ) :
    System (Config (Tid m n) Shared (Point n) Mutex Empty) (Action (Tid m n)) :=
  Pthread.program (code malloc rand) ⟨⟨.empty, none⟩, 0, []⟩ start

end PthreadBenchmark.SemStack
