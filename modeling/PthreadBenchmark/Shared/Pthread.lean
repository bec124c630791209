import PthreadBenchmark.Shared.Transition
import PthreadBenchmark.Shared.Threads
import Mathlib.Data.Fintype.Basic
import Mathlib.Logic.Function.Basic

/-! # Threads with mutexes and condition variables

A program gives, for each point of a thread and the shared variables, the next operation
of the thread. This module gives the operations their meaning: a mutex has at most one owner, a
wait releases the mutex and sleeps, a signal wakes a sleeper if there is one, and a woken
thread has to lock the mutex again. -/

namespace PthreadBenchmark

/-- The next operation of a thread. `run` is an access to the shared variables, `join`
waits for another thread to halt. -/
inductive Op (ι σ π μ κ : Type*) where
  | lock (m : μ) (next : π)
  | unlock (m : μ) (next : π)
  | wait (c : κ) (m : μ) (next : π)
  | signal (c : κ) (next : π)
  | broadcast (c : κ) (next : π)
  | run (s : σ) (next : π)
  | join (j : ι) (next : π)
  | halt

/-- A thread sleeps in `pthread_cond_wait` until it is woken, and is `woken` until it has
its mutex back. -/
inductive Status (π μ κ : Type*) where
  | running (p : π)
  | asleep (c : κ) (m : μ) (next : π)
  | woken (m : μ) (next : π)

structure Config (ι σ π μ κ : Type*) where
  owner : μ → Option ι
  shared : σ
  threads : ι → Status π μ κ

/-- `run i wake` lets the thread `i` go on; where it signals, `wake` is the sleeper that
the signal reaches. `spurious i` wakes `i` without a signal. -/
inductive Action (ι : Type*) where
  | run (i : ι) (wake : Option ι)
  | spurious (i : ι)
  deriving DecidableEq, Repr

namespace Pthread

variable {ι σ π μ κ : Type*}

def AsleepOn (c : κ) : Status π μ κ → Prop
  | .asleep c' _ _ => c' = c
  | _ => False

instance [DecidableEq κ] (c : κ) (t : Status π μ κ) : Decidable (AsleepOn c t) :=
  match t with
  | .running _ => isFalse id
  | .asleep c' _ _ => inferInstanceAs (Decidable (c' = c))
  | .woken _ _ => isFalse id

def wake [DecidableEq κ] (c : κ) : Status π μ κ → Status π μ κ
  | .asleep c' m p => if c' = c then .woken m p else .asleep c' m p
  | t => t

def isHalt : Op ι σ π μ κ → Bool
  | .halt => true
  | _ => false

def Halted (code : σ → π → Op ι σ π μ κ) (s : σ) : Status π μ κ → Prop
  | .running p => isHalt (code s p) = true
  | _ => False

instance (code : σ → π → Op ι σ π μ κ) (s : σ) (t : Status π μ κ) :
    Decidable (Halted code s t) :=
  match t with
  | .running p => inferInstanceAs (Decidable (isHalt (code s p) = true))
  | .asleep _ _ _ => isFalse id
  | .woken _ _ => isFalse id

/-! ## Who holds which mutex -/

/-- The mutexes a thread holds, from those that a point says it is inside of. -/
def Holds (inside : π → μ → Prop) (m : μ) : Status π μ κ → Prop
  | .running p => inside p m
  | .asleep _ m' p | .woken m' p => m ≠ m' ∧ inside p m

/-- A waiting thread goes on inside of the mutex it has given back. -/
def Returns (inside : π → μ → Prop) : Status π μ κ → Prop
  | .running _ => True
  | .asleep _ m p | .woken m p => inside p m

/-- Every mutex is owned by the thread that is inside of it, and only by that one. -/
structure Owned (inside : π → μ → Prop) (c : Config ι σ π μ κ) : Prop where
  owner : ∀ i m, c.owner m = some i ↔ Holds inside m (c.threads i)
  returns : ∀ i, Returns inside (c.threads i)

variable {inside : π → μ → Prop} {c c' : Config ι σ π μ κ} {i j : ι} {m : μ}
  {t : Status π μ κ} {s : σ}

/-- Two threads are never inside of the same mutex. -/
theorem Owned.unique (h : Owned inside c) (hi : Holds inside m (c.threads i))
    (hj : Holds inside m (c.threads j)) : i = j :=
  Option.some.inj (((h.owner i m).mpr hi).symm.trans ((h.owner j m).mpr hj))

theorem Owned.not_holds_of_free (h : Owned inside c) (hfree : c.owner m = none) (i : ι) :
    ¬ Holds inside m (c.threads i) := by
  rw [← h.owner i m, hfree]
  simp

theorem holds_wake [DecidableEq κ] (cond : κ) (t : Status π μ κ) (m : μ) :
    Holds inside m (wake cond t) ↔ Holds inside m t := by
  cases t with
  | running p => rfl
  | woken m' p => rfl
  | asleep c' m' p =>
      simp only [wake]
      split <;> rfl

theorem returns_wake [DecidableEq κ] (cond : κ) (t : Status π μ κ) :
    Returns inside (wake cond t) ↔ Returns inside t := by
  cases t with
  | running p => rfl
  | woken m' p => rfl
  | asleep c' m' p =>
      simp only [wake]
      split <;> rfl

theorem returns_update [DecidableEq ι] (h : Owned inside c) (ht : Returns inside t) (j : ι) :
    Returns inside (Function.update c.threads i t j) := by
  apply (Function.forall_update_iff c.threads fun _ t => Returns inside t).mpr
  exact ⟨ht, fun k _ => h.returns k⟩

/-- A thread that moves without touching a mutex keeps what it holds. -/
theorem Owned.update [DecidableEq ι] (h : Owned inside c)
    (heq : ∀ m, Holds inside m t ↔ Holds inside m (c.threads i)) (ht : Returns inside t) :
    Owned inside ⟨c.owner, s, Function.update c.threads i t⟩ := by
  refine ⟨fun j m => ?_, returns_update h ht⟩
  by_cases hj : j = i
  · subst j
    simp only [Function.update_self]
    exact (h.owner i m).trans (heq m).symm
  · simp only [Function.update_of_ne hj]
    exact h.owner j m

/-- A thread takes a free mutex. -/
theorem Owned.take [DecidableEq ι] [DecidableEq μ] (h : Owned inside c)
    (hfree : c.owner m = none)
    (heq : ∀ m', Holds inside m' t ↔ m' = m ∨ Holds inside m' (c.threads i))
    (ht : Returns inside t) :
    Owned inside ⟨Function.update c.owner m (some i), s, Function.update c.threads i t⟩ := by
  refine ⟨fun j m' => ?_, returns_update h ht⟩
  have hall := h.owner j m'
  by_cases hm : m' = m
  · subst m'
    by_cases hj : j = i
    · subst j
      simp [heq]
    · simpa [Function.update_of_ne hj, h.not_holds_of_free hfree j] using Ne.symm hj
  · by_cases hj : j = i
    · subst j
      simpa [Function.update_of_ne hm, heq, hm] using hall
    · simpa [Function.update_of_ne hm, Function.update_of_ne hj] using hall

/-- A thread gives a mutex back. -/
theorem Owned.release [DecidableEq ι] [DecidableEq μ] (h : Owned inside c)
    (hown : c.owner m = some i)
    (heq : ∀ m', Holds inside m' t ↔ m' ≠ m ∧ Holds inside m' (c.threads i))
    (ht : Returns inside t) :
    Owned inside ⟨Function.update c.owner m none, s, Function.update c.threads i t⟩ := by
  refine ⟨fun j m' => ?_, returns_update h ht⟩
  have hall := h.owner j m'
  by_cases hm : m' = m
  · subst m'
    by_cases hj : j = i
    · subst j
      simp [heq]
    · have hnone : ¬ Holds inside m (c.threads j) := by
        rw [← h.owner j m, hown]
        simpa using Ne.symm hj
      simp [Function.update_of_ne hj, hnone]
  · by_cases hj : j = i
    · subst j
      simpa [Function.update_of_ne hm, heq, hm] using hall
    · simpa [Function.update_of_ne hm, Function.update_of_ne hj] using hall

/-! ## Steps -/

variable [DecidableEq ι] [DecidableEq μ] [DecidableEq κ]
  (code : σ → π → Op ι σ π μ κ)

/-- The effect of the next operation of the thread `i`. -/
def exec [Fintype ι] (c : Config ι σ π μ κ) (i : ι) (target : Option ι) :
    Op ι σ π μ κ → Option (Config ι σ π μ κ)
  | .lock m next =>
    if c.owner m = none then
      some { c with
        owner := Function.update c.owner m (some i)
        threads := Function.update c.threads i (.running next) }
    else none
  | .unlock m next =>
    if c.owner m = some i then
      some { c with
        owner := Function.update c.owner m none
        threads := Function.update c.threads i (.running next) }
    else none
  | .wait cond m next =>
    if c.owner m = some i then
      some { c with
        owner := Function.update c.owner m none
        threads := Function.update c.threads i (.asleep cond m next) }
    else none
  | .signal cond next =>
    match target with
    | none =>
      if ∃ j, AsleepOn cond (c.threads j) then none
      else some { c with threads := Function.update c.threads i (.running next) }
    | some j =>
      if AsleepOn cond (c.threads j) then
        some { c with
          threads := Function.update (Function.update c.threads j (wake cond (c.threads j))) i
            (.running next) }
      else none
  | .broadcast cond next =>
    some { c with
      threads := Function.update (fun j => wake cond (c.threads j)) i (.running next) }
  | .run s next =>
    some { c with shared := s, threads := Function.update c.threads i (.running next) }
  | .join j next =>
    if Halted code c.shared (c.threads j) then
      some { c with threads := Function.update c.threads i (.running next) }
    else none
  | .halt => none

def step [Fintype ι] (c : Config ι σ π μ κ) : Action ι → Option (Config ι σ π μ κ)
  | .run i target =>
    match c.threads i with
    | .running p => exec code c i target (code c.shared p)
    | .asleep _ _ _ => none
    | .woken m next => exec code c i none (.lock m next)
  | .spurious i =>
    match c.threads i with
    | .asleep _ m next =>
      some { c with threads := Function.update c.threads i (.woken m next) }
    | _ => none

/-- The program with all threads at their first point and all mutexes free. -/
def program [Fintype ι] (shared : σ) (start : ι → π) : System (Config ι σ π μ κ) (Action ι) where
  init := ⟨fun _ => none, shared, fun i => .running (start i)⟩
  step := step code

/-- The program in which a thread wakes up only when it is signalled. -/
def signalledProgram [Fintype ι] (shared : σ) (start : ι → π) :
    System (Config ι σ π μ κ) (Action ι) where
  init := (program code shared start).init
  step c
    | .run i target => step code c (.run i target)
    | .spurious _ => none

/-! ## What a step does -/

/-- The steps of a program, by the operation of the thread that moves. -/
inductive Move (c : Config ι σ π μ κ) : Config ι σ π μ κ → Prop where
  | lock {i p m next} (thread : c.threads i = .running p) (op : code c.shared p = .lock m next)
      (free : c.owner m = none) :
      Move c ⟨Function.update c.owner m (some i), c.shared,
        Function.update c.threads i (.running next)⟩
  | unlock {i p m next} (thread : c.threads i = .running p)
      (op : code c.shared p = .unlock m next) (own : c.owner m = some i) :
      Move c ⟨Function.update c.owner m none, c.shared,
        Function.update c.threads i (.running next)⟩
  | wait {i p cond m next} (thread : c.threads i = .running p)
      (op : code c.shared p = .wait cond m next) (own : c.owner m = some i) :
      Move c ⟨Function.update c.owner m none, c.shared,
        Function.update c.threads i (.asleep cond m next)⟩
  | signalNone {i p cond next} (thread : c.threads i = .running p)
      (op : code c.shared p = .signal cond next) (awake : ∀ j, ¬ AsleepOn cond (c.threads j)) :
      Move c ⟨c.owner, c.shared, Function.update c.threads i (.running next)⟩
  | signal {i j p cond m next q} (thread : c.threads i = .running p)
      (op : code c.shared p = .signal cond next) (sleeper : c.threads j = .asleep cond m q) :
      Move c ⟨c.owner, c.shared,
        Function.update (Function.update c.threads j (.woken m q)) i (.running next)⟩
  | broadcast {i p cond next} (thread : c.threads i = .running p)
      (op : code c.shared p = .broadcast cond next) :
      Move c ⟨c.owner, c.shared,
        Function.update (fun j => wake cond (c.threads j)) i (.running next)⟩
  | run {i p s next} (thread : c.threads i = .running p) (op : code c.shared p = .run s next) :
      Move c ⟨c.owner, s, Function.update c.threads i (.running next)⟩
  | join {i j p next} (thread : c.threads i = .running p)
      (op : code c.shared p = .join j next) (halted : Halted code c.shared (c.threads j)) :
      Move c ⟨c.owner, c.shared, Function.update c.threads i (.running next)⟩
  | relock {i m next} (thread : c.threads i = .woken m next) (free : c.owner m = none) :
      Move c ⟨Function.update c.owner m (some i), c.shared,
        Function.update c.threads i (.running next)⟩
  | spurious {i cond m next} (thread : c.threads i = .asleep cond m next) :
      Move c ⟨c.owner, c.shared, Function.update c.threads i (.woken m next)⟩

variable {code}

theorem move_of_step [Fintype ι] {a : Action ι} (h : step code c a = some c') : Move code c c' := by
  cases a with
  | spurious i =>
      cases hi : c.threads i <;> simp only [step, hi, Option.some.injEq, reduceCtorEq] at h
      subst h
      exact .spurious hi
  | run i target =>
      cases hi : c.threads i with
      | asleep cond m next => simp [step, hi] at h
      | woken m next =>
          simp only [step, hi, exec] at h
          split at h
          · cases h
            exact .relock hi ‹_›
          · cases h
      | running p =>
          simp only [step, hi] at h
          cases hop : code c.shared p <;> simp only [hop, exec] at h
          case lock m next =>
            split at h
            · cases h
              exact .lock hi hop ‹_›
            · cases h
          case unlock m next =>
            split at h
            · cases h
              exact .unlock hi hop ‹_›
            · cases h
          case wait cond m next =>
            split at h
            · cases h
              exact .wait hi hop ‹_›
            · cases h
          case signal cond next =>
            cases target with
            | none =>
                simp only at h
                split at h
                · cases h
                · next hnone =>
                    cases h
                    exact .signalNone hi hop fun j hj => hnone ⟨j, hj⟩
            | some j =>
                simp only at h
                split at h
                · next hasleep =>
                    cases h
                    cases hj : c.threads j with
                    | running q => simp [hj, AsleepOn] at hasleep
                    | woken m q => simp [hj, AsleepOn] at hasleep
                    | asleep cond' m q =>
                        obtain rfl : cond' = cond := by simpa [hj, AsleepOn] using hasleep
                        simp only [wake, if_true]
                        exact .signal hi hop hj
                · cases h
          case broadcast cond next =>
            cases h
            exact .broadcast hi hop
          case run s next =>
            cases h
            exact .run hi hop
          case join j next =>
            split at h
            · cases h
              exact .join hi hop ‹_›
            · cases h
          case halt => cases h

/-! ## Mutual exclusion -/

/-- The operation leads to a point that says truly which mutexes its thread is inside of. -/
def Tracks (inside : π → μ → Prop) (p : π) : Op ι σ π μ κ → Prop
  | .lock m q => ∀ m', inside q m' ↔ m' = m ∨ inside p m'
  | .unlock m q => ∀ m', inside q m' ↔ m' ≠ m ∧ inside p m'
  | .wait _ m q => inside p m ∧ ∀ m', inside q m' ↔ inside p m'
  | .signal _ q | .broadcast _ q | .run _ q | .join _ q => ∀ m', inside q m' ↔ inside p m'
  | .halt => True

theorem Owned.of_move
    (hd : ∀ i p, c.threads i = .running p → Tracks inside p (code c.shared p))
    (h : Owned inside c) (hmove : Move code c c') : Owned inside c' := by
  have htracks : ∀ {i p o}, c.threads i = .running p → code c.shared p = o → Tracks inside p o :=
    fun thread op => op ▸ hd _ _ thread
  cases hmove with
  | @lock i p m next thread op free =>
      have htrack := htracks thread op
      exact h.take free (fun m' => by simpa [thread, Holds] using htrack m') trivial
  | @unlock i p m next thread op own =>
      have htrack := htracks thread op
      exact h.release own (fun m' => by simpa [thread, Holds] using htrack m') trivial
  | @wait i p cond m next thread op own =>
      have htrack := htracks thread op
      refine h.release own (fun m' => ?_) ((htrack.2 m).mpr htrack.1)
      simp only [thread, Holds, htrack.2]
  | @signalNone i p cond next thread op awake =>
      have htrack := htracks thread op
      exact h.update (fun m' => by simpa [thread, Holds] using htrack m') trivial
  | @signal i j p cond m next q thread op sleeper =>
      have htrack := htracks thread op
      have hwoken : Owned inside ⟨c.owner, c.shared, Function.update c.threads j (.woken m q)⟩ := by
        apply h.update (fun m' => by simp [sleeper, Holds])
        have := h.returns j
        rwa [sleeper] at this
      have hne : i ≠ j := by
        intro heq
        subst heq
        rw [thread] at sleeper
        cases sleeper
      refine hwoken.update (fun m' => ?_) trivial
      simpa [Function.update_of_ne hne, thread, Holds] using htrack m'
  | @broadcast i p cond next thread op =>
      have htrack := htracks thread op
      have hwoken : Owned inside ⟨c.owner, c.shared, fun j => wake cond (c.threads j)⟩ :=
        ⟨fun j m' => (h.owner j m').trans (holds_wake cond _ m').symm,
          fun j => (returns_wake cond _).mpr (h.returns j)⟩
      refine hwoken.update (fun m' => ?_) trivial
      simpa [thread, wake, Holds] using htrack m'
  | @run i p s next thread op =>
      have htrack := htracks thread op
      exact h.update (fun m' => by simpa [thread, Holds] using htrack m') trivial
  | @join i j p next thread op halted =>
      have htrack := htracks thread op
      exact h.update (fun m' => by simpa [thread, Holds] using htrack m') trivial
  | @relock i m next thread free =>
      refine h.take free (fun m' => ?_) trivial
      have hnext : inside next m := by
        have := h.returns i
        rwa [thread] at this
      by_cases hm : m' = m
      · subst m'
        simp [Holds, hnext]
      · simp [Holds, thread, hm]
  | @spurious i cond m next thread =>
      apply h.update (fun m' => by simp [thread, Holds])
      have := h.returns i
      rwa [thread] at this

theorem owned_init [Fintype ι] {shared : σ} {start : ι → π}
    (hstart : ∀ i m, ¬ inside (start i) m) :
    Owned inside (program code shared start).init := by
  refine ⟨fun i m => ?_, fun i => trivial⟩
  simpa [program, Holds] using hstart i m

/-- In every reachable state the mutexes are owned as the points say. -/
theorem owned_of_reachable [Fintype ι] (hd : ∀ s p, Tracks inside p (code s p)) {shared : σ}
    {start : ι → π} (hstart : ∀ i m, ¬ inside (start i) m)
    (h : (program code shared start).Reachable c) : Owned inside c := by
  exact h.invariant (owned_init hstart)
    fun _ _ _ hinv hs => hinv.of_move (fun _ p _ => hd _ p) (move_of_step hs)

end Pthread

end PthreadBenchmark
