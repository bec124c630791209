import PthreadBenchmark.Shared.Heap
import Mathlib.Data.Int.Notation

/-! # The sorted list of `mutex_linked_list.c`

An operation fails, with result `none`, where the code would read through a pointer to no
cell, or where its loop has met more cells than were ever allocated. -/

namespace PthreadBenchmark.LinkedList

structure State where
  heap : Heap (Node ℤ)
  head : Option ℕ

/-- The loop of the three operations, `while (curr != 0 && curr->data < value)`, with the
last two values of `curr`. -/
def walk (value : ℤ) (heap : Heap (Node ℤ)) :
    ℕ → Option ℕ → Option ℕ → Option (Option ℕ × Option ℕ)
  | 0, _, _ => none
  | _ + 1, prev, none => some (prev, none)
  | fuel + 1, prev, some a =>
    (heap.cells a).bind fun n =>
      if n.data < value then walk value heap fuel (some a) n.next else some (prev, some a)

def walkFrom (value : ℤ) (s : State) : Option (Option ℕ × Option ℕ) :=
  walk value s.heap (s.heap.bound + 1) none s.head

/-- `curr == 0 || curr->data > value`. -/
def isBeyond (value : ℤ) (heap : Heap (Node ℤ)) : Option ℕ → Option Bool
  | none => some true
  | some a => (heap.cells a).map fun n => decide (value < n.data)

def member (value : ℤ) (s : State) : Option ℕ :=
  (walkFrom value s).bind fun (_, curr) =>
    (isBeyond value s.heap curr).map fun beyond => if beyond then 0 else 1

/-- `temp->data = value; temp->next = curr` is one write to the new cell. -/
def insert (malloc : Malloc (Node ℤ)) (value : ℤ) (s : State) : Option (ℕ × State) :=
  (walkFrom value s).bind fun (prev, curr) =>
    (isBeyond value s.heap curr).bind fun beyond =>
      if beyond then
        let temp := malloc.address s.heap
        (relink (s.heap.write temp ⟨value, curr⟩) s.head prev (some temp)).map fun r =>
          (1, ⟨r.1, r.2⟩)
      else some (0, s)

def delete (value : ℤ) (s : State) : Option (ℕ × State) :=
  (walkFrom value s).bind fun (prev, curr) =>
    match curr with
    | none => some (0, s)
    | some a =>
      (s.heap.cells a).bind fun n =>
        if n.data = value then
          (relink s.heap s.head prev n.next).map fun r => (1, ⟨r.1.free a, r.2⟩)
        else some (0, s)

/-! ## Sequences of calls -/

inductive Call where
  | member (value : ℤ)
  | insert (value : ℤ)
  | delete (value : ℤ)
  deriving DecidableEq, Repr

def Call.run (malloc : Malloc (Node ℤ)) (s : State) : Call → Option (ℕ × State)
  | .member value => (LinkedList.member value s).map fun r => (r, s)
  | .insert value => LinkedList.insert malloc value s
  | .delete value => LinkedList.delete value s

/-- The results of the calls and the state behind them. -/
def runCalls (malloc : Malloc (Node ℤ)) : State → List Call → Option (List ℕ × State)
  | s, [] => some ([], s)
  | s, c :: cs =>
    (c.run malloc s).bind fun (r, s) => (runCalls malloc s cs).map fun (rs, s) => (r :: rs, s)

def emptyList : State := ⟨.empty, none⟩

/-- A list of one node. -/
def oneNode (malloc : Malloc (Node ℤ)) (data : ℤ) : State :=
  let a := malloc.address .empty
  ⟨Heap.empty.write a ⟨data, none⟩, some a⟩

end PthreadBenchmark.LinkedList
