import PthreadBenchmark.Concurio.Absolute.Model
import PthreadBenchmark.Shared.PthreadConditions
import Mathlib.Data.Int.ModEq

/-! # What `timeval_subtract` needs of the time that all workers subtract

A block of `timeval_subtract` moves whole seconds from one field of `asbolute_start` to the other,
which does not change the time. Between its two stores the time is wrong by these seconds. -/

namespace PthreadBenchmark.Concurio.Absolute

open Pthread

variable {workers trials : ℕ} {start : Timeval} {after : Fin workers → ℕ → Timeval}
  {s s' : Shared workers} {ps : Fin workers → Point workers} {i : Fin workers}
  {p q : Point workers} {c : Config (Fin workers) (Shared workers) (Point workers) Mutex Cond}

/-- The time in microseconds. -/
def Timeval.value (v : Timeval) : ℤ := v.tvSec * 1000000 + v.tvUsec

/-- What the claim of `deltas[t]` is, for the time behind the write and the start. -/
def elapsed (x start : Timeval) : ℕ := ((x.value - start.value) % 2 ^ 64).toNat

/-- The values that have been recorded are the times since the start. -/
def Right (start : Timeval) (after : Fin workers → ℕ → Timeval) (s : Shared workers) : Prop :=
  ∀ id, ∀ r ∈ s.recorded id, r.2 = elapsed (after id r.1) start

/-! ## The condition -/

/-- The worker has stored to one field, and has still to store to the other. -/
def Between : Point workers → Prop
  | .subtract _ _ (.secLoad _ _) | .subtract _ _ (.secStore _ _ _) => True
  | _ => False

instance (p : Point workers) : Decidable (Between p) :=
  match p with
  | .subtract _ _ (.secLoad _ _) | .subtract _ _ (.secStore _ _ _) => isTrue trivial
  | .subtract _ _ (.test _) | .subtract _ _ (.nsec _) | .subtract _ _ (.usecLoad _ _)
  | .subtract _ _ (.usecStore _ _ _) | .subtract _ _ .resultSec | .subtract _ _ (.resultUsec _)
  | .subtract _ _ (.result _) | .subtract _ _ (.record _) | .worker _ => isFalse id

/-- A field is stored to while it has the value that was loaded. The last field of the result is
loaded while the other one is as it was loaded, and no other worker is between its stores. -/
def SteadyAt (s : Shared workers) (ps : Fin workers → Point workers) (i : Fin workers) :
    Point workers → Prop
  | .subtract _ _ (.usecStore _ _ usec) => s.asboluteStart.tvUsec = usec
  | .subtract _ _ (.secStore _ _ sec) => s.asboluteStart.tvSec = sec
  | .subtract _ _ (.resultUsec sec) =>
    s.asboluteStart.tvSec = sec ∧ ∀ j, j ≠ i → ¬ Between (ps j)
  | _ => True

instance (s : Shared workers) (ps : Fin workers → Point workers) (i : Fin workers)
    (p : Point workers) : Decidable (SteadyAt s ps i p) :=
  match p with
  | .subtract _ _ (.usecStore _ _ usec) =>
    inferInstanceAs (Decidable (s.asboluteStart.tvUsec = usec))
  | .subtract _ _ (.secStore _ _ sec) => inferInstanceAs (Decidable (s.asboluteStart.tvSec = sec))
  | .subtract _ _ (.resultUsec sec) =>
    inferInstanceAs (Decidable (s.asboluteStart.tvSec = sec ∧ ∀ j, j ≠ i → ¬ Between (ps j)))
  | .subtract _ _ (.test _) | .subtract _ _ (.nsec _) | .subtract _ _ (.usecLoad _ _)
  | .subtract _ _ (.secLoad _ _) | .subtract _ _ .resultSec
  | .subtract _ _ (.result _) | .subtract _ _ (.record _) | .worker _ => isTrue trivial

def Steady (s : Shared workers) (ps : Fin workers → Point workers) (i : Fin workers) : Prop :=
  SteadyAt s ps i (ps i)

instance (s : Shared workers) (ps : Fin workers → Point workers) (i : Fin workers) :
    Decidable (Steady s ps i) :=
  inferInstanceAs (Decidable (SteadyAt s ps i (ps i)))

/-! ## The invariant -/

/-- The microseconds that a block has taken out of `tv_usec`. -/
def Block.taken (nsec : ℤ) : Block → ℤ
  | .borrow => 1000000 * nsec
  | .carry => -(1000000 * nsec)

/-- The microseconds by which a worker has the time wrong. -/
def owed : Point workers → ℤ
  | .subtract _ _ (.secLoad b nsec) | .subtract _ _ (.secStore b nsec _) => b.taken nsec
  | _ => 0

/-- What a worker knows of its result. -/
def Point.Knows (start : Timeval) (after : Fin workers → ℕ → Timeval) : Point workers → Prop
  | .subtract id t (.result diff) | .subtract id t (.record diff) =>
    diff.value = (after id t).value - start.value
  | _ => True

structure Balanced (start : Timeval) (after : Fin workers → ℕ → Timeval) (s : Shared workers)
    (ps : Fin workers → Point workers) : Prop where
  balance : s.asboluteStart.value + ∑ j, owed (ps j) = start.value
  knows : ∀ j, (ps j).Knows start after
  right : Right start after s

theorem balanced_start : Balanced start after (initial workers start)
    fun id => .worker ⟨id, .registerLock⟩ where
  balance := by simp [initial, owed]
  knows _ := trivial
  right _ _ hr := by cases hr

theorem value_borrow (b : Block) (v : Timeval) (nsec : ℤ) :
    (⟨v.tvSec, b.usec v.tvUsec nsec⟩ : Timeval).value + b.taken nsec = v.value := by
  cases b <;> simp only [Timeval.value, Block.usec, Block.taken] <;> omega

theorem value_repay (b : Block) (v : Timeval) (nsec : ℤ) :
    (⟨b.sec v.tvSec nsec, v.tvUsec⟩ : Timeval).value = v.value + b.taken nsec := by
  cases b <;> simp only [Timeval.value, Block.sec, Block.taken] <;> omega

theorem delta_eq (diff : Timeval) : delta diff = (diff.value % 2 ^ 64).toNat := rfl

theorem owed_of_not_between (h : ¬ Between p) : owed p = 0 := by
  cases p with
  | worker p => rfl
  | subtract id t place =>
      cases place with
      | secLoad | secStore => exact absurd trivial h
      | _ => rfl

/-- A step of one worker, with what it does to the time. -/
theorem Balanced.move (h : Balanced start after s ps)
    (hvalue : s'.asboluteStart.value + owed q = s.asboluteStart.value + owed (ps i))
    (hknows : q.Knows start after) (hright : Right start after s') :
    Balanced start after s' (Function.update ps i q) := by
  have hsum := balance_update owed ps i q
  have hbalance := h.balance
  refine ⟨by omega, ?_, hright⟩
  exact (Function.forall_update_iff ps fun _ p => p.Knows start after).mpr
    ⟨hknows, fun j _ => h.knows j⟩

theorem eq_record_or (p : Concurio.Point workers) :
    (∃ id t, p = ⟨id, .record t⟩) ∨ ∀ t, p.pc ≠ .record t := by
  obtain ⟨id, pc⟩ := p
  by_cases hrecord : ∃ t, pc = .record t
  · obtain ⟨t, rfl⟩ := hrecord
    exact .inl ⟨id, t, rfl⟩
  · exact .inr (not_exists.mp hrecord)

/-- Only the record of a trial is another one than in the program without `timeval_subtract`. -/
theorem code_worker {p : Concurio.Point workers} (h : ∀ t, p.pc ≠ .record t) :
    code trials after s (.worker p) =
      (workerRun trials s.base p).map (fun i => i) (fun base => { s with base := base })
        .worker := by
  obtain ⟨id, pc⟩ := p
  cases pc with
  | record t => exact absurd rfl (h t)
  | _ => rfl

/-- The operations of the program without `timeval_subtract` leave the time and the records
alone. -/
theorem Balanced.worker (h : Balanced start after s ps)
    {o : Op (Fin workers) (Concurio.Shared workers) (Concurio.Point workers) Mutex Cond}
    (howed : owed (ps i) = 0)
    (hq : (o.map (fun i => i) (fun base => { s with base := base }) .worker).next? = some q) :
    Balanced start after
      ((o.map (fun i => i) (fun base => { s with base := base }) Point.worker).after s)
      (Function.update ps i q) := by
  rw [Op.next?_map, Option.map_eq_some_iff] at hq
  obtain ⟨q', -, rfl⟩ := hq
  refine h.move ?_ trivial ?_
  · rw [howed]
    cases o <;> rfl
  · cases o <;> exact h.right

/-- The worker stores its result. -/
theorem Right.record (h : Right start after s) {id : Fin workers} {t : ℕ} {diff : Timeval}
    (hdiff : diff.value = (after id t).value - start.value) (base : Concurio.Shared workers) :
    Right start after (s.record id t diff base) := by
  intro j r hr
  by_cases hj : j = id
  · subst hj
    simp only [Shared.record, Function.update_self, List.mem_append, List.mem_singleton] at hr
    rcases hr with hr | rfl
    · exact h j r hr
    · rw [delta_eq, elapsed, hdiff]
  · simp only [Shared.record, Function.update_of_ne hj] at hr
    exact h j r hr

theorem Balanced.subtract (h : Balanced start after s ps) {id : Fin workers} {t : ℕ} {place : At}
    (hp : ps i = .subtract id t place) (hsteady : SteadyAt s ps i (.subtract id t place))
    (hq : (timevalSubtract trials (after id t) s id t place).next? = some q) :
    Balanced start after ((timevalSubtract trials (after id t) s id t place).after s)
      (Function.update ps i q) := by
  have hknows := h.knows i
  rw [hp] at hknows
  have howed : ∀ b, owed (.subtract id t (Block.next b) : Point workers) = 0 := by
    intro b
    cases b <;> rfl
  have hnext : ∀ b, (Point.subtract id t (Block.next b)).Knows start after := by
    intro b
    cases b <;> trivial
  cases place with
  | test b =>
      cases hq
      refine h.move ?_ ?_ h.right
      · rw [hp]
        simp only [timevalSubtract, Op.after]
        split
        · rfl
        · rw [howed]
          rfl
      · split
        · trivial
        · exact hnext b
  | nsec b | usecLoad b nsec | secLoad b nsec | resultSec =>
      cases hq
      exact h.move (by rw [hp]; rfl) trivial h.right
  | usecStore b nsec usec =>
      cases hq
      obtain rfl : s.asboluteStart.tvUsec = usec := hsteady
      refine h.move ?_ trivial h.right
      rw [hp]
      exact (value_borrow b s.asboluteStart nsec).trans (add_zero _).symm
  | secStore b nsec sec =>
      cases hq
      obtain rfl : s.asboluteStart.tvSec = sec := hsteady
      refine h.move ?_ (hnext b) h.right
      rw [hp, howed, add_zero]
      exact value_repay b s.asboluteStart nsec
  | resultUsec sec =>
      cases hq
      obtain ⟨rfl, hothers⟩ := hsteady
      refine h.move (by rw [hp]; rfl) ?_ h.right
      have hnone : ∑ j, owed (ps j) = 0 := by
        refine Finset.sum_eq_zero fun j _ => ?_
        by_cases hj : j = i
        · rw [hj, hp]
          rfl
        · exact owed_of_not_between (hothers j hj)
      have hbalance := h.balance
      simp only [Point.Knows, Timeval.value] at hbalance ⊢
      omega
  | result diff =>
      cases hq
      exact h.move (by rw [hp]; rfl) hknows h.right
  | record diff =>
      cases hq
      refine h.move (by rw [hp]; rfl) trivial ?_
      exact h.right.record hknows _

theorem Balanced.step (h : Balanced start after s ps) (hsteady : Steady s ps i)
    (hq : (code trials after s (ps i)).next? = some q) :
    Balanced start after ((code trials after s (ps i)).after s) (Function.update ps i q) := by
  rw [Steady] at hsteady
  cases hp : ps i with
  | subtract id t place =>
      rw [hp] at hsteady hq
      exact h.subtract hp hsteady hq
  | worker p =>
      rw [hp] at hq
      rcases eq_record_or p with ⟨id, t, rfl⟩ | hrecord
      · cases hq
        exact h.move (by rw [hp]; rfl) trivial h.right
      · rw [code_worker hrecord] at hq ⊢
        exact h.worker (by rw [hp]; rfl) hq

/-- The runs that meet the condition. -/
abbrev SteadyRun (trials : ℕ) (start : Timeval) (after : Fin workers → ℕ → Timeval) :
    Config (Fin workers) (Shared workers) (Point workers) Mutex Cond → Prop :=
  (program trials start after).ReachableBy (Meets Steady fun _ _ _ => True)

theorem balanced_of_steady (h : SteadyRun trials start after c) :
    Balanced start after c.shared (points c) :=
  conditional_points_invariant h balanced_start
    fun _ _ _ _ hbalanced hsteady hq => hbalanced.step hsteady hq

/-! ## Where all runs meet the condition -/

/-- The fields that the worker relies on are as it has loaded them. -/
def Point.Loaded (v : Timeval) : Point workers → Prop
  | .subtract _ _ (.usecStore _ _ usec) => v.tvUsec = usec
  | .subtract _ _ (.secStore _ _ sec) | .subtract _ _ (.resultUsec sec) => v.tvSec = sec
  | _ => True

/-- The worker does not change the time. -/
def Reading : Point workers → Prop
  | .subtract _ _ (.nsec _) | .subtract _ _ (.usecLoad _ _) | .subtract _ _ (.usecStore _ _ _)
  | .subtract _ _ (.secLoad _ _) | .subtract _ _ (.secStore _ _ _) => False
  | _ => True

theorem steady_of_loaded (hloaded : (ps i).Loaded s.asboluteStart)
    (hothers : ∀ j, j ≠ i → ¬ Between (ps j)) : Steady s ps i := by
  rw [Steady]
  cases hp : ps i with
  | worker p => trivial
  | subtract id t place =>
      rw [hp] at hloaded
      cases place with
      | resultUsec sec => exact ⟨hloaded, hothers⟩
      | usecStore | secStore => exact hloaded
      | _ => trivial

theorem Reading.not_between (h : Reading p) : ¬ Between p := by
  intro hbetween
  cases p with
  | worker p => exact hbetween
  | subtract id t place => cases place <;> first | exact hbetween | exact h

theorem exists_worker {p : Concurio.Point workers} (hrecord : ∀ t, p.pc ≠ .record t)
    (hq : (code trials after s (.worker p)).next? = some q) :
    (∃ q', q = .worker q') ∧
      ((code trials after s (.worker p)).after s).asboluteStart = s.asboluteStart := by
  rw [code_worker hrecord] at hq ⊢
  rw [Op.next?_map, Option.map_eq_some_iff] at hq
  obtain ⟨q', -, rfl⟩ := hq
  refine ⟨⟨q', rfl⟩, ?_⟩
  cases workerRun trials s.base p <;> rfl

/-- A worker relies on what it has just loaded. -/
theorem loaded_next (hq : (code trials after s p).next? = some q) :
    q.Loaded ((code trials after s p).after s).asboluteStart := by
  cases p with
  | worker p =>
      rcases eq_record_or p with ⟨id, t, rfl⟩ | hrecord
      · cases hq
        trivial
      · obtain ⟨⟨q', rfl⟩, -⟩ := exists_worker hrecord hq
        trivial
  | subtract id t place =>
      have hnext : ∀ b (v : Timeval), (Point.subtract id t (Block.next b)).Loaded v := by
        intro b v
        cases b <;> trivial
      cases place with
      | test b =>
          cases hq
          split
          · trivial
          · exact hnext b _
      | secStore b nsec sec =>
          cases hq
          exact hnext b _
      | usecLoad | secLoad | resultSec =>
          cases hq
          rfl
      | _ =>
          cases hq
          trivial

/-- A single worker is not disturbed. -/
theorem steady_of_single (hworkers : workers ≤ 1)
    (h : (program trials start after).Reachable c) : SteadyRun trials start after c := by
  refine reachableBy_of_good (fun c i p hc _ => ?_) h
  have hloaded : ∀ j, (points c j).Loaded c.shared.asboluteStart := by
    refine points_invariant (P := fun s ps => ∀ j, (ps j).Loaded s.asboluteStart) hc.reachable
      (fun _ => trivial) ?_
    intro s ps i q _ hq j
    obtain rfl : j = i := Fin.ext (by omega)
    rw [Function.update_self]
    exact loaded_next hq
  exact steady_of_loaded (hloaded i) fun j hj => absurd (Fin.ext (by omega)) hj

/-- The time is not changed by a worker that has no seconds to borrow. -/
theorem Reading.next (h : Reading p) (hstart : s.asboluteStart = start)
    (hafter : ∀ id t, start.tvUsec ≤ (after id t).tvUsec ∧
      (after id t).tvUsec ≤ start.tvUsec + 1000000)
    (hq : (code trials after s p).next? = some q) :
    Reading q ∧ ((code trials after s p).after s).asboluteStart = s.asboluteStart := by
  cases p with
  | worker p =>
      rcases eq_record_or p with ⟨id, t, rfl⟩ | hrecord
      · cases hq
        exact ⟨trivial, rfl⟩
      · obtain ⟨⟨q', rfl⟩, hsame⟩ := exists_worker hrecord hq
        exact ⟨trivial, hsame⟩
  | subtract id t place =>
      cases place with
      | test b =>
          have hlow := (hafter id t).1
          have hhigh := (hafter id t).2
          have hskips : b.applies (after id t) s.asboluteStart.tvUsec = false := by
            rw [hstart]
            cases b <;> simp only [Block.applies, decide_eq_false_iff_not] <;> omega
          cases hq
          rw [hskips]
          refine ⟨?_, rfl⟩
          cases b <;> trivial
      | resultSec | resultUsec | result | record =>
          cases hq
          exact ⟨trivial, rfl⟩
      | _ => exact h.elim

/-- Where no worker has to borrow or to carry, nobody changes the time. -/
theorem steady_of_reading (hafter : ∀ id t, start.tvUsec ≤ (after id t).tvUsec ∧
      (after id t).tvUsec ≤ start.tvUsec + 1000000)
    (h : (program trials start after).Reachable c) : SteadyRun trials start after c := by
  refine reachableBy_of_good (fun c i p hc _ => ?_) h
  obtain ⟨-, hall⟩ : c.shared.asboluteStart = start ∧ ∀ j, Reading (points c j) ∧
      (points c j).Loaded c.shared.asboluteStart := by
    refine points_invariant (P := fun s ps => s.asboluteStart = start ∧ ∀ j, Reading (ps j) ∧
      (ps j).Loaded s.asboluteStart) hc.reachable ⟨rfl, fun _ => ⟨trivial, trivial⟩⟩ ?_
    rintro s ps i q ⟨hstart, hall⟩ hq
    obtain ⟨hreading, hsame⟩ := (hall i).1.next hstart hafter hq
    have hloaded := loaded_next hq
    rw [hsame] at hloaded ⊢
    refine ⟨hstart, (Function.forall_update_iff ps fun _ p => Reading p ∧
      p.Loaded s.asboluteStart).mpr ⟨⟨hreading, hloaded⟩, fun j _ => hall j⟩⟩
  exact steady_of_loaded (hall i).2 fun j _ => (hall j).1.not_between

/-! ## Results -/

/-- For any number of workers and trials, any times and any interleaving of the loads and stores:
all recorded values are right where each worker stores to the field that it has loaded and
takes its result while nobody else is at work. This is so for a single worker, and where
nobody has to borrow or to carry. -/
theorem recorded_correct (trials : ℕ) (start : Timeval) (after : Fin workers → ℕ → Timeval) :
    (∀ c, SteadyRun trials start after c → Right start after c.shared) ∧
    (workers ≤ 1 → ∀ c, (program trials start after).Reachable c →
      SteadyRun trials start after c) ∧
    ((∀ id t, start.tvUsec ≤ (after id t).tvUsec ∧
        (after id t).tvUsec ≤ start.tvUsec + 1000000) →
      ∀ c, (program trials start after).Reachable c → SteadyRun trials start after c) :=
  ⟨fun _ h => (balanced_of_steady h).right, fun hworkers _ h => steady_of_single hworkers h,
    fun hafter _ h => steady_of_reading hafter h⟩

/-- Worker 0 gets its first time before the second is over, all other times are behind it. -/
def afterWrite (id : Fin 2) (t : ℕ) : Timeval :=
  if id.val = 0 then (if t = 0 then ⟨0, 960000⟩ else ⟨1, 10000⟩) else ⟨1, 10001⟩

/-- Both workers get ready, and worker 0 is between its two stores in its second trial. -/
def borrowing (i j : Fin 2) : List (Action (Fin 2)) :=
  List.replicate 3 (Action.run i none) ++ List.replicate 3 (Action.run j none) ++
    List.replicate 21 (Action.run i none)

/-- Worker 0 has made both stores before worker 1 goes on. -/
def recordedInTurn (i j : Fin 2) :
    Option (Config (Fin 2) (Shared 2) (Point 2) Mutex Cond) :=
  ((program 2 ⟨0, 900000⟩ afterWrite).guarded (Meets Steady fun _ _ _ => True)).exec
    (program 2 ⟨0, 900000⟩ afterWrite).init
    (borrowing i j ++ List.replicate 2 (Action.run i none) ++
      List.replicate 12 (Action.run j none))

theorem recorded_correct_inTurn : ∃ c, recordedInTurn 0 1 = some c ∧
    Right ⟨0, 900000⟩ afterWrite c.shared ∧ c.shared.recorded 1 = [(0, 110001)] := by
  have hrun : (recordedInTurn 0 1).any
      (fun c => decide (c.shared.recorded 1 = [(0, 110001)])) = true := by decide
  obtain ⟨c, hexec, hrecorded⟩ := (Option.any_eq_true _ _).mp hrun
  have hreach : SteadyRun 2 ⟨0, 900000⟩ afterWrite c := .of_exec hexec
  exact ⟨c, hexec, (recorded_correct 2 ⟨0, 900000⟩ afterWrite).1 c hreach,
    of_decide_eq_true hrecorded⟩

/-- Worker 1 subtracts while worker 0 is between its stores. -/
def recordedBetween (i j : Fin 2) :
    Option (Config (Fin 2) (Shared 2) (Point 2) Mutex Cond) :=
  (program 2 ⟨0, 900000⟩ afterWrite).exec (program 2 ⟨0, 900000⟩ afterWrite).init
    (borrowing i j ++ List.replicate 12 (Action.run j none))

/-- It records a second too much. -/
theorem recorded_second_too_much : ¬ ∀ c,
    (program 2 ⟨0, 900000⟩ afterWrite).Reachable c → Right ⟨0, 900000⟩ afterWrite c.shared := by
  intro hright
  have hrun : (recordedBetween 0 1).any
      (fun c => decide (c.shared.recorded 1 = [(0, 1110001)])) = true := by decide
  obtain ⟨c, hexec, hrecorded⟩ := (Option.any_eq_true _ _).mp hrun
  have hmem : (0, 1110001) ∈ c.shared.recorded 1 := by
    rw [of_decide_eq_true hrecorded]
    exact List.mem_singleton_self _
  exact absurd (hright c (System.Reachable.init.exec hexec) 1 _ hmem) (by decide)

end PthreadBenchmark.Concurio.Absolute
