import PthreadBenchmark.Shared.PthreadUnlocked
import PthreadBenchmark.Shared.PthreadProgress
import Mathlib.Data.Fin.VecNotation
import Mathlib.Data.Fintype.Option

/-! # The employee of the day (`employee_with_mutex.c`)

Threads copy one of the employees each, over and over, into a shared record. `main` looks whether
the record is one of the employees. One of the two files of this name has lost the calls that lock
and unlock. -/

namespace PthreadBenchmark.Employees

structure Employee where
  number : ℤ
  id : ℤ
  firstName : String
  lastName : String
  department : String
  rootNumber : ℤ
  deriving DecidableEq, Repr

inductive Field where
  | number
  | id
  | firstName
  | lastName
  | department
  | rootNumber
  deriving DecidableEq, Repr

/-- `employees` -/
def employees : Fin 2 → Employee :=
  ![⟨1, 12345678, "astro", "Bluse", "Accounting", 101⟩,
    ⟨2, 87654321, "Shrek", "Charl", "Programmer", 102⟩]

def Employee.same (a b : Employee) : Field → Bool
  | .number => a.number = b.number
  | .id => a.id = b.id
  | .firstName => a.firstName = b.firstName
  | .lastName => a.lastName = b.lastName
  | .department => a.department = b.department
  | .rootNumber => a.rootNumber = b.rootNumber

def Employee.copyField (src dst : Employee) : Field → Employee
  | .number => { dst with number := src.number }
  | .id => { dst with id := src.id }
  | .firstName => { dst with firstName := src.firstName }
  | .lastName => { dst with lastName := src.lastName }
  | .department => { dst with department := src.department }
  | .rootNumber => { dst with rootNumber := src.rootNumber }

/-- The fields that `main` compares, in its order. -/
def checked : List Field := [.id, .firstName, .lastName, .department, .rootNumber]

inductive Mutex where
  | lock
  deriving DecidableEq, Repr

/-- Points of `do_loop`, with the fields that are still to be copied, and of `main`, with the
employee that `p` points to and the fields that are still to be compared. -/
inductive Point (n : ℕ) where
  | lock (k : Fin n)
  | copy (k : Fin n) (rest : List Field)
  | mainLock
  | mainFind
  | mainCheck (p : Fin n) (rest : List Field)
  | mainMismatch (f : Field)
  | mainOutside
  deriving DecidableEq, Repr

/-- `order` is the order in which `memcpy` copies the fields. A `number` that no employee has would
make `main` look outside of the table. -/
def code {ι : Type} {n : ℕ} (employees : Fin n → Employee) (order : List Field)
    (employeeOfTheDay : Employee) : Point n → Op ι Employee (Point n) Mutex Empty
  | .lock k => .lock .lock (.copy k order)
  | .copy k (f :: rest) =>
    .run ((employees k).copyField employeeOfTheDay f) (.copy k rest)
  | .copy k [] => .unlock .lock (.lock k)
  | .mainLock => .lock .lock .mainFind
  | .mainFind =>
    .run employeeOfTheDay
      (if h : 1 ≤ employeeOfTheDay.number ∧ employeeOfTheDay.number ≤ n then
        .mainCheck ⟨(employeeOfTheDay.number - 1).toNat, by omega⟩ checked
      else .mainOutside)
  | .mainCheck p (f :: rest) =>
    .run employeeOfTheDay
      (if (employees p).same employeeOfTheDay f then .mainCheck p rest else .mainMismatch f)
  | .mainCheck _ [] => .unlock .lock .mainLock
  | .mainMismatch _ => .halt
  | .mainOutside => .halt

/-- `main` and one thread for each employee. -/
abbrev Tid (n : ℕ) : Type := Option (Fin n)

def start {n : ℕ} : Tid n → Point n
  | none => .mainLock
  | some k => .lock k

/-- `main` copies the first employee before it creates the threads. -/
def program {n : ℕ} (employees : Fin (n + 1) → Employee) (order : List Field) :
    System (Config (Tid (n + 1)) Employee (Point (n + 1)) Mutex Empty) (Action (Tid (n + 1))) :=
  Pthread.program (code employees order) (employees ⟨0, n.succ_pos⟩) start

/-- The file without the calls that lock and unlock. -/
def unlockedProgram {n : ℕ} (employees : Fin (n + 1) → Employee) (order : List Field) :
    System (Config (Tid (n + 1)) Employee (Point (n + 1)) Empty Empty) (Action (Tid (n + 1))) :=
  Pthread.program (Pthread.unlocked (code employees order)) (employees ⟨0, n.succ_pos⟩) start

/-! ## Whether the employee of the day is one of the employees

Under the mutex the record is always one of the employees when `main` looks at it. Without the mutex
`main` may see the next employee in the middle of its comparison. -/

open Pthread

variable {n : ℕ} {table : Fin (n + 1) → Employee} {order : List Field}
  {day : Employee} {k l : Fin (n + 1)} {f g : Field} {p q : Point (n + 1)} {i : Tid (n + 1)}

/-! ## Copies -/

theorem same_copyField_self (src dst : Employee) (f : Field) :
    src.same (src.copyField dst f) f = true := by
  cases f <;> simp [Employee.same, Employee.copyField]

theorem same_copyField_of_ne (a src dst : Employee) (hne : f ≠ g) :
    a.same (src.copyField dst g) f = a.same dst f := by
  cases f <;> cases g <;> first | exact absurd rfl hne | rfl

theorem eq_of_same {a b : Employee} (h : ∀ f, a.same b f = true) : b = a := by
  have hnumber := h .number
  have hid := h .id
  have hfirst := h .firstName
  have hlast := h .lastName
  have hdepartment := h .department
  have hroot := h .rootNumber
  simp only [Employee.same, decide_eq_true_eq] at *
  obtain ⟨number, id, first, last, department, root⟩ := b
  subst hnumber hid hfirst hlast hdepartment hroot
  rfl

theorem same_self (a : Employee) (f : Field) : a.same a f = true := by
  cases f <;> simp [Employee.same]

/-! ## With the lock -/

def inside (p : Point n) (_ : Mutex) : Prop :=
  match p with
  | .lock _ | .mainLock => False
  | .copy _ _ | .mainFind | .mainCheck _ _ | .mainMismatch _ | .mainOutside => True

theorem tracks (day : Employee) (p : Point (n + 1)) :
    Tracks inside p (code (ι := Tid (n + 1)) table order day p) := by
  cases p with
  | lock k | mainLock => exact fun m => by cases m; simp [inside]
  | copy k rest =>
      cases rest with
      | nil => exact fun m => by cases m; simp [inside]
      | cons f rest => exact fun _ => Iff.rfl
  | mainFind =>
      simp only [code]
      split <;> exact fun _ => Iff.rfl
  | mainCheck p rest =>
      cases rest with
      | nil => exact fun m => by cases m; simp [inside]
      | cons f rest =>
          simp only [code]
          split <;> exact fun _ => Iff.rfl
  | mainMismatch | mainOutside => trivial

/-- What the thread that holds the mutex knows of the record. -/
def Knows (table : Fin n → Employee) (day : Employee) : Point n → Prop
  | .lock _ | .mainLock | .mainFind => ∃ k, day = table k
  | .copy k rest => ∀ f, f ∉ rest → (table k).same day f = true
  | .mainCheck p _ => day = table p
  | .mainMismatch _ | .mainOutside => False

theorem Knows.step (horder : ∀ f, f ∈ order) (hnumber : ∀ k, (table k).number = k + 1)
    (h : Knows table day p)
    (hq : (code (ι := Tid (n + 1)) table order day p).next? = some q) :
    Knows table ((code (ι := Tid (n + 1)) table order day p).after day) q := by
  cases p with
  | lock k =>
      cases hq
      exact fun f hf => absurd (horder f) hf
  | mainLock =>
      cases hq
      exact h
  | copy k rest =>
      cases rest with
      | nil =>
          cases hq
          exact ⟨k, eq_of_same fun f => h f List.not_mem_nil⟩
      | cons g rest =>
          cases hq
          intro f hf
          by_cases hfg : f = g
          · subst hfg
            exact same_copyField_self _ _ _
          · simp only [code, Op.after, same_copyField_of_ne _ _ _ hfg]
            exact h f fun hmem => (List.mem_cons.mp hmem).elim hfg hf
  | mainFind =>
      obtain ⟨k, rfl⟩ := h
      have hk := hnumber k
      have hrange : 1 ≤ (table k).number ∧ (table k).number ≤ (n + 1 : ℕ) := by omega
      simp only [code, dif_pos hrange, Op.next?] at hq ⊢
      cases hq
      have hindex : (⟨((table k).number - 1).toNat, by omega⟩ : Fin (n + 1)) = k :=
        Fin.ext (by simp only; omega)
      simp only [Knows, hindex, Op.after]
  | mainCheck p rest =>
      obtain rfl := h
      cases rest with
      | nil =>
          cases hq
          exact ⟨p, rfl⟩
      | cons f rest =>
          simp only [code, same_self, if_true, Op.next?] at hq ⊢
          cases hq
          rfl
  | mainMismatch | mainOutside => exact h.elim

theorem not_inside_start (i : Tid (n + 1)) (m : Mutex) : ¬ inside (start i) m := by
  cases i <;> exact id

theorem knows_of_reachable (horder : ∀ f, f ∈ order) (hnumber : ∀ k, (table k).number = k + 1)
    {c : Config (Tid (n + 1)) Employee (Point (n + 1)) Mutex Empty}
    (hc : (program table order).Reachable c) :
    (c.owner .lock = none → ∃ k, c.shared = table k) ∧
      ∀ i, c.owner .lock = some i → Knows table c.shared (points c i) := by
  refine monitor_invariant (F := fun day => ∃ k, day = table k) (V := Knows table)
    (R := fun _ _ => True) tracks not_wait not_inside_start (fun _ _ _ => trivial)
    (fun s p hout => ?_) ⟨_, rfl⟩ (fun _ _ _ _ _ h hq => h.step horder hnumber hq)
    (fun s p q hp hq hnext => ?_) hc
  · cases p with
    | lock | mainLock => exact Iff.rfl
    | copy | mainFind | mainCheck | mainMismatch | mainOutside => exact absurd trivial hout
  · cases p with
    | lock | mainLock =>
        cases hnext
        exact absurd trivial hq
    | copy | mainFind | mainCheck | mainMismatch | mainOutside => exact absurd trivial hp

/-- Under the lock `main` never leaves its loop with a mismatch or looks outside of the table, and
whenever the mutex is free the record is one of the employees. -/
theorem never_mismatch (horder : ∀ f, f ∈ order) (hnumber : ∀ k, (table k).number = k + 1)
    {c : Config (Tid (n + 1)) Employee (Point (n + 1)) Mutex Empty}
    (hc : (program table order).Reachable c) :
    (∀ i f, c.threads i ≠ .running (.mainMismatch f)) ∧
      (∀ i, c.threads i ≠ .running .mainOutside) ∧
      (c.owner .lock = none → ∃ k, c.shared = table k) := by
  obtain ⟨hfree, hknows⟩ := knows_of_reachable horder hnumber hc
  have howned := owned_of_reachable tracks not_inside_start hc
  refine ⟨fun i f hi => ?_, fun i hi => ?_, hfree⟩
  · have hown := howned.owner_of_inside (m := .lock) hi trivial
    have := hknows i hown
    rwa [points_of_running hi] at this
  · have hown := howned.owner_of_inside (m := .lock) hi trivial
    have := hknows i hown
    rwa [points_of_running hi] at this

/-- The fields in the order of the source. -/
def allFields : List Field := [.number, .id, .firstName, .lastName, .department, .rootNumber]

/-- The thread of the second employee copies it, and `main` compares it field by field. -/
def comparedOnce (i : Fin 2) : Option (Config (Tid 2) Employee (Point 2) Mutex Empty) :=
  (program employees allFields).exec (program employees allFields).init
    (List.replicate 8 (Action.run (some i) none) ++ List.replicate 7 (Action.run none none))

theorem never_mismatch_employees : ∃ c, comparedOnce 1 = some c ∧
    c.shared = employees 1 ∧ points c none = .mainCheck 1 [] ∧
    (∀ i f, c.threads i ≠ .running (.mainMismatch f)) ∧
    ∀ i, c.threads i ≠ .running .mainOutside := by
  have hrun : (comparedOnce 1).isSome = true := by decide
  obtain ⟨hmismatch, houtside, -⟩ := never_mismatch (fun f => by cases f <;> decide) (by decide)
    (System.Reachable.init.exec (Option.some_get hrun).symm)
  exact ⟨(comparedOnce 1).get hrun, (Option.some_get hrun).symm, rfl, rfl, hmismatch,
    houtside⟩

end PthreadBenchmark.Employees
