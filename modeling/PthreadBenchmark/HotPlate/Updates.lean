import PthreadBenchmark.HotPlate.Init
import PthreadBenchmark.HotPlate.Invariant
import PthreadBenchmark.Shared.PthreadHistory

/-! # What the workers update

The rounds of `hot_plate_barriers.c` with the list of all updates beside them. Nothing here needs
rows that can be divided evenly, or barriers: each worker goes over its own rows. -/

namespace PthreadBenchmark.HotPlate

open Pthread

variable {n : ℕ} {ν : Type*} {P : Problem ν}

/-! ## The list of updates -/

/-- The round, the row and the column of an update. -/
abbrev Update := ℕ × ℤ × ℤ

/-- The cell that a thread writes in `update_plate`. -/
def Point.update? : Point n ν → Option Update
  | .worker _ r (.read i j _ [] _) => some (r, i, j)
  | _ => none

/-- The program, with the list of updates as its history. -/
def recordedProgram (n : ℕ) (P : Problem ν) (plate prevPlate : Plate ν) :
    System (Config (Tid n) (Recorded (Shared ν) Update) (Point n ν) Mutex Empty)
      (Action (Tid n)) :=
  Pthread.program (recorded (fun _ p => p.update?) (code P))
    ⟨⟨plate, prevPlate, .empty, .empty⟩, []⟩ start

theorem updates_run :
    EventsRun (fun _ p => p.update?) (code P : Shared ν → Point n ν → Step n ν) := by
  intro s p u hu
  simp only [Point.update?] at hu
  split at hu
  · exact ⟨_, _, rfl⟩
  · cases hu

/-! ## Workers -/

/-- The rows that a worker goes over are its own. -/
def WorkerPc.Placed (P : Problem ν) (w : Fin n) : WorkerPc ν → Prop
  | .argsEnd b => b = HotPlate.first P.gridSize n w
  | .argsUnlock b e => b = HotPlate.first P.gridSize n w ∧ e = last P.gridSize n w
  | .row i e => HotPlate.first P.gridSize n w ≤ i ∧ e = last P.gridSize n w
  | .cell i j e => Row P.gridSize n w i ∧ 0 ≤ j ∧ e = last P.gridSize n w
  | .read i j e _ _ =>
    Row P.gridSize n w i ∧ 0 ≤ j ∧ e = last P.gridSize n w ∧ P.lockedCells i j = '0'
  | _ => True

def Placed (P : Problem ν) : Tid n → Point n ν → Prop
  | some w, .worker w' _ pc => w' = w ∧ pc.Placed P w
  | none, .worker .. => False
  | some _, .main .. => False
  | _, _ => True

/-- The worker has gone past the cell in round `k`. -/
def Point.Done (k : ℕ) (i j : ℤ) : Point n ν → Prop
  | .worker _ r pc => k < r ∨ k = r ∧ pc.Written i j
  | _ => False

/-- The update is in the list once, if it has been made. -/
def Listed (updates : List Update) (u : Update) (done : Prop) : Prop :=
  (done → updates.count u = 1) ∧ (¬ done → updates.count u = 0)

structure Counted (P : Problem ν) (updates : List Update) (ps : Tid n → Point n ν) : Prop where
  placed : ∀ t, Placed P t (ps t)
  listed : ∀ (w : Fin n) (k : ℕ) (i j : ℤ), ps (some w) ≠ .fault → Row P.gridSize n w i →
    0 ≤ j ∧ j < P.gridSize → P.lockedCells i j = '0' →
      Listed updates (k, i, j) ((ps (some w)).Done k i j)

variable {updates new : List Update} {ps : Tid n → Point n ν} {t : Tid n} {q : Point n ν}
  {w : Fin n} {r : ℕ}

/-- A thread makes updates in its own rows only. -/
theorem Counted.move (h : Counted P updates ps) (hrun : ps t ≠ .fault) (hplaced : Placed P t q)
    (hnew : ∀ u ∈ new, ∀ w, Row P.gridSize n w u.2.1 → t = some w)
    (hlisted : ∀ w k i (j : ℤ), t = some w → q ≠ .fault → Row P.gridSize n w i →
      0 ≤ j ∧ j < P.gridSize → P.lockedCells i j = '0' →
      Listed updates (k, i, j) ((ps t).Done k i j) →
      Listed (updates ++ new) (k, i, j) (q.Done k i j)) :
    Counted P (updates ++ new) (Function.update ps t q) where
  placed := (Function.forall_update_iff ps fun t p => Placed P t p).mpr
    ⟨hplaced, fun t _ => h.placed t⟩
  listed w k i j hnot hrow hj hfree := by
    by_cases ht : some w = t
    · subst ht
      rw [Function.update_self] at hnot ⊢
      exact hlisted w k i j rfl hnot hrow hj hfree (h.listed w k i j hrun hrow hj hfree)
    · rw [Function.update_of_ne ht] at hnot ⊢
      have hother : new.count (k, i, j) = 0 := by
        apply List.count_eq_zero.mpr
        intro hmem
        exact ht (hnew _ hmem w hrow).symm
      rw [Listed, List.count_append, hother, Nat.add_zero]
      exact h.listed w k i j hnot hrow hj hfree

/-- A step that makes no update. -/
theorem Counted.silent (h : Counted P updates ps) (hnew : new = []) (hrun : ps t ≠ .fault)
    (hplaced : Placed P t q)
    (hdone : ∀ w k i (j : ℤ), t = some w → Row P.gridSize n w i → 0 ≤ j ∧ j < P.gridSize →
      P.lockedCells i j = '0' → q ≠ .fault → (q.Done k i j ↔ (ps t).Done k i j)) :
    Counted P (updates ++ new) (Function.update ps t q) := by
  subst hnew
  refine h.move hrun hplaced (by simp) ?_
  intro w k i j ht hnot hrow hj hfree hlisted
  rw [List.append_nil, Listed, hdone w k i j ht hrow hj hfree hnot]
  exact hlisted

/-- A worker goes on in its round. -/
theorem Counted.workOn (h : Counted P updates ps) {pc pc' : WorkerPc ν}
    (hp : ps (some w) = .worker w r pc) (hnew : new = []) (hplaced : pc'.Placed P w)
    (hwritten : ∀ i j : ℤ, Row P.gridSize n w i → 0 ≤ j ∧ j < P.gridSize →
      P.lockedCells i j = '0' → (pc'.Written i j ↔ pc.Written i j)) :
    Counted P (updates ++ new) (Function.update ps (some w) (.worker w r pc')) := by
  refine h.silent hnew (by simp [hp]) ⟨rfl, hplaced⟩ ?_
  intro w' k i j hw hrow hj hfree _
  cases hw
  rw [hp, Point.Done, Point.Done, hwritten i j hrow hj hfree]

theorem Counted.stepRead (h : Counted P updates ps) {s : Shared ν} {i j e : ℤ}
    {todo : List (ℤ × ℤ)} {values : List ν}
    (hp : ps (some w) = .worker w r (.read i j e todo values))
    (hplaced : (WorkerPc.read i j e todo values).Placed P w)
    (hq : (updatePlate P s w r (.read i j e todo values)).next? = some q) :
    Counted P (updates ++ (Point.worker w r (.read i j e todo values)).update?.toList)
      (Function.update ps (some w) q) := by
  obtain ⟨hrow, hj, rfl, hfree⟩ : _ ∧ _ ∧ e = _ ∧ _ := hplaced
  cases todo with
  | nil =>
      cases hq
      refine h.move (by simp [hp]) ⟨rfl, hrow, by omega, rfl⟩ ?_ ?_
      · intro u hu w' hrow'
        simp only [Point.update?, Option.toList_some, List.mem_singleton] at hu
        subst hu
        rw [hrow.unique hrow']
      · intro w' k i' j' hw _ _ _ _ hlisted
        simp only [Point.update?, Option.toList_some, Listed, List.count_append, hp, Point.Done,
          WorkerPc.Written] at hlisted ⊢
        by_cases hcell : (r, i, j) = (k, i', j')
        · cases hcell
          rw [List.count_singleton_self, hlisted.2 (by omega)]
          exact ⟨fun _ => rfl, fun hnot => absurd (.inr ⟨rfl, .inr ⟨rfl, by omega⟩⟩) hnot⟩
        · rw [List.count_singleton, beq_eq_false_iff_ne.mpr hcell, if_neg Bool.false_ne_true,
            Nat.add_zero]
          have hiff : (k < r ∨ k = r ∧ (i' < i ∨ i' = i ∧ j' < j + 1)) ↔
              (k < r ∨ k = r ∧ (i' < i ∨ i' = i ∧ j' < j)) := by
            simp only [Prod.mk.injEq] at hcell
            omega
          rw [hiff]
          exact hlisted
  | cons c todo =>
      obtain ⟨a, b⟩ := c
      simp only [updatePlate] at hq
      split at hq
      · cases hq
        exact h.workOn hp rfl ⟨hrow, hj, rfl, hfree⟩ fun _ _ _ _ _ => Iff.rfl
      · cases hq
        exact h.silent rfl (by simp [hp]) trivial fun _ _ _ _ _ _ _ _ hnot => absurd rfl hnot

theorem Counted.stepWorker (h : Counted P updates ps) {s : Shared ν} {pc : WorkerPc ν}
    (hp : ps (some w) = .worker w r pc) (hplaced : pc.Placed P w)
    (hq : (updatePlate P s w r pc).next? = some q) :
    Counted P (updates ++ (Point.worker w r pc).update?.toList)
      (Function.update ps (some w) q) := by
  cases pc with
  | read i j e todo values => exact h.stepRead hp hplaced hq
  | first | argsLock | second =>
      cases hq
      exact h.workOn hp rfl trivial fun _ _ _ _ _ => Iff.rfl
  | argsBegin =>
      cases hq
      exact h.workOn hp rfl rfl fun _ _ _ _ _ => Iff.rfl
  | argsEnd b =>
      cases hq
      exact h.workOn hp rfl ⟨hplaced, rfl⟩ fun _ _ _ _ _ => Iff.rfl
  | argsUnlock b e =>
      cases hq
      obtain ⟨rfl, rfl⟩ : b = _ ∧ e = _ := hplaced
      refine h.workOn hp rfl ⟨le_rfl, rfl⟩ ?_
      intro i j hrow _ _
      exact iff_of_false hrow.1.not_gt id
  | firstWait generation =>
      simp only [updatePlate] at hq
      rcases Op.await_cases hq with ⟨-, rfl, -⟩ | ⟨rfl, -⟩
      · exact h.workOn hp rfl trivial fun _ _ _ _ _ => Iff.rfl
      · exact h.workOn hp rfl trivial fun _ _ _ _ _ => Iff.rfl
  | secondWait generation =>
      simp only [updatePlate] at hq
      rcases Op.await_cases hq with ⟨-, rfl, -⟩ | ⟨rfl, -⟩
      · refine h.silent rfl (by simp [hp]) ⟨rfl, trivial⟩ ?_
        intro w' k i j _ _ _ _ _
        simp only [hp, Point.Done, WorkerPc.Written, and_true, and_false, or_false]
        omega
      · exact h.workOn hp rfl trivial fun _ _ _ _ _ => Iff.rfl
  | row i e =>
      obtain ⟨hfirst, rfl⟩ : _ ∧ e = _ := hplaced
      cases hq
      split
      · next hlt =>
          refine h.workOn hp rfl ⟨⟨hfirst, hlt⟩, le_rfl, rfl⟩ ?_
          intro i' j' _ hj _
          simp only [WorkerPc.Written]
          omega
      · next hge =>
          refine h.workOn hp rfl trivial ?_
          intro i' j' hrow _ _
          apply iff_of_true trivial
          exact hrow.2.trans_le (not_lt.mp hge)
  | cell i j e =>
      obtain ⟨hrow, h0, rfl⟩ : _ ∧ _ ∧ e = _ := hplaced
      simp only [updatePlate] at hq
      split at hq
      · next hj =>
          cases hq
          split
          · next hfree =>
              exact h.workOn hp rfl ⟨hrow, h0, rfl, hfree⟩ fun _ _ _ _ _ => Iff.rfl
          · next hlocked =>
              refine h.workOn hp rfl ⟨hrow, by omega, rfl⟩ ?_
              intro i' j' _ _ hfree
              have hne : ¬ (i' = i ∧ j' = j) := by
                rintro ⟨rfl, rfl⟩
                exact hlocked hfree
              simp only [WorkerPc.Written]
              omega
      · next hj =>
          cases hq
          refine h.workOn hp rfl ⟨by have := hrow.1; omega, rfl⟩ ?_
          intro i' j' _ hj' _
          simp only [WorkerPc.Written]
          omega

/-! ## Runs -/

theorem placed_main {s : Shared ν} {pc : MainPc ν}
    (hq : (startUpdate P s r pc : Step n ν).next? = some q) : Placed P none q := by
  cases pc with
  | first | second | copyWrite =>
      cases hq
      trivial
  | firstWait generation | secondWait generation =>
      simp only [startUpdate] at hq
      rcases Op.await_cases hq with ⟨-, rfl, -⟩ | ⟨rfl, -⟩
      · trivial
      · trivial
  | copyRow | copyCell =>
      cases hq
      split <;> trivial
  | steadyRow =>
      simp only [startUpdate] at hq
      split at hq
      · cases hq
        trivial
      · cases hq
        split <;> trivial
  | steadyCell =>
      simp only [startUpdate] at hq
      split at hq
      · cases hq
        split <;> trivial
      · cases hq
        trivial
  | steadyRead i j seen todo values =>
      cases todo with
      | nil =>
          cases hq
          trivial
      | cons c todo =>
          simp only [startUpdate] at hq
          split at hq
          · cases hq
            trivial
          · cases hq
            trivial
  | returned => cases hq

theorem Counted.step (h : Counted P updates ps) {s : Shared ν}
    (hq : (code P s (ps t)).next? = some q) :
    Counted P (updates ++ (ps t).update?.toList) (Function.update ps t q) := by
  have hplaced := h.placed t
  cases hp : ps t with
  | worker w r pc =>
      rw [hp] at hq hplaced
      cases t with
      | none => exact hplaced.elim
      | some w' =>
          obtain ⟨rfl, hplaced⟩ := hplaced
          exact h.stepWorker hp hplaced hq
  | main r pc =>
      rw [hp] at hq hplaced
      cases t with
      | none => exact h.silent rfl (by simp [hp]) (placed_main hq) (by simp)
      | some w => exact hplaced.elim
  | fault =>
      rw [hp] at hq
      cases hq

theorem counted_start : Counted P [] (start : Tid n → Point n ν) where
  placed t := by
    cases t with
    | none => trivial
    | some w => exact ⟨rfl, trivial⟩
  listed w k i j _ _ _ _ := by
    refine ⟨fun hdone => ?_, fun _ => rfl⟩
    rcases hdone with hdone | ⟨-, hdone⟩
    · exact absurd hdone (Nat.not_lt_zero k)
    · exact hdone.elim

theorem counted_of_reachable {plate prevPlate : Plate ν}
    {c : Config (Tid n) (Recorded (Shared ν) Update) (Point n ν) Mutex Empty}
    (h : (recordedProgram n P plate prevPlate).Reachable c) :
    Counted P c.shared.history (points c) := by
  apply history_invariant (P := fun _ updates ps => Counted P updates ps) updates_run h
    counted_start
  intro b _ updates t q hcounted hq
  exact hcounted.step hq

/-- The worker has ended its loops of round `k`. -/
def Point.Over (k : ℕ) : Point n ν → Prop
  | .worker _ r .second | .worker _ r (.secondWait _) => k ≤ r
  | .worker _ r _ => k < r
  | _ => False

theorem Point.Over.done {p : Point n ν} {k : ℕ} (h : p.Over k) (i j : ℤ) : p.Done k i j := by
  cases p with
  | worker w r pc =>
      cases pc with
      | second | secondWait => exact (Nat.lt_or_eq_of_le h).imp_right fun heq => ⟨heq, trivial⟩
      | _ => exact .inl h
  | main r pc => exact h.elim
  | fault => exact h.elim

/-! ## The rows of `allocateWorkload` -/

/-- What `allocateWorkload` is for, on the plate of `initPlate`. -/
structure WorkloadRight (n : ℕ) (P : Problem ν) (plate prevPlate : Plate ν) : Prop where
  disjoint : ∀ (w w' : Fin n) (i : ℤ), Row P.gridSize n w i → Row P.gridSize n w' i → w = w'
  inside : ∀ (w : Fin n) (i : ℤ), Row P.gridSize n w i → 0 ≤ i ∧ i < P.gridSize
  covers : ∀ i j, InGrid P.gridSize i j → P.lockedCells i j = '0' →
    ∃ w : Fin n, Row P.gridSize n w i
  once : ∀ c, (recordedProgram n P plate prevPlate).Reachable c →
    ∀ k, (∀ w : Fin n, (points c (some w)).Over k) →
      ∀ i j, InGrid P.gridSize i j → P.lockedCells i j = '0' → c.shared.history.count (k, i, j) = 1

/-- Only the coverage depends on the number of workers. -/
theorem workloadRight_of_covers {plate prevPlate : Plate ν}
    (h : ∀ i j, InGrid P.gridSize i j → P.lockedCells i j = '0' →
      ∃ w : Fin n, Row P.gridSize n w i) : WorkloadRight n P plate prevPlate where
  disjoint w w' i hrow hrow' := hrow.unique hrow'
  inside _ _ hrow := hrow.bounds
  covers := h
  once c hc k hover i j hgrid hfree := by
    obtain ⟨w, hrow⟩ := h i j hgrid hfree
    have hnot : points c (some w) ≠ .fault := by
      intro hfault
      have hw := hover w
      rw [hfault] at hw
      exact hw
    exact ((counted_of_reachable hc).listed w k i j hnot hrow hgrid.2.2 hfree).1
      ((hover w).done i j)

variable [NatCast ν] {gridSize : ℕ} {p : Plates ν} {stencil : List ν → ν}
  {steady : List (List ν) → Bool} {i j : ℤ}

theorem free_iff (hgrid : InGrid gridSize i j) :
    (initialProblem gridSize p stencil steady).lockedCells i j = '0' ↔
      i % 20 ≠ 0 ∧ j % 20 ≠ 0 ∧ i ≠ gridSize - 1 ∧ j ≠ gridSize - 1 := by
  have hcell := cell_initPlate (p := p) hgrid
  simp only [Plates.cell, both, Prod.mk.injEq] at hcell
  rw [← finalCell_free_iff (ν := ν), ← hcell.2.2]
  rfl

/-- The rows that are left over do not matter as long as they are locked: the last one is, and the
one before has a free cell. -/
theorem covers_iff (hsize : 3 ≤ gridSize) (hfree : gridSize % 20 ≠ 2) :
    (∀ i j, InGrid gridSize i j →
      (initialProblem gridSize p stencil steady).lockedCells i j = '0' →
      ∃ w : Fin n, Row gridSize n w i) ↔ gridSize % n ≤ 1 := by
  have hdiv := Nat.div_add_mod gridSize n
  constructor
  · intro h
    have hgrid : InGrid gridSize (gridSize - 2) 1 := by
      simp only [InGrid]
      omega
    have hrow := exists_row_iff.mp (h _ _ hgrid ((free_iff hgrid).mpr (by omega)))
    omega
  · intro hmod i j hgrid hcell
    rw [free_iff hgrid] at hcell
    rw [exists_row_iff]
    simp only [InGrid] at hgrid
    omega

theorem workloadRight_iff_mod (hsize : 3 ≤ gridSize) (hfree : gridSize % 20 ≠ 2)
    {plate prevPlate : Plate ν} :
    WorkloadRight n (initialProblem gridSize p stencil steady) plate prevPlate ↔
      gridSize % n ≤ 1 := by
  constructor
  · intro h
    exact (covers_iff hsize hfree).mp h.covers
  · intro hmod
    exact workloadRight_of_covers ((covers_iff hsize hfree).mpr hmod)

/-- On the plate of the program, of which the last row but one has free cells: exactly these numbers
of workers get rows that are disjoint, inside of the plate and enough, such that each free cell is
updated once in each round. -/
theorem workload_right_iff (n : ℕ) (p : Plates ν) (stencil : List ν → ν)
    (steady : List (List ν) → Bool) :
    WorkloadRight n (initialProblem 16384 p stencil steady) (initPlate 16384 p).plate
      (initPlate 16384 p).prevPlate ↔ 16384 % n ≤ 1 :=
  workloadRight_iff_mod (by omega) (by omega)

/-- With five workers, rows 16381 and 16382 have free cells and no worker. -/
theorem workload_wrong_five : ∃ p : Plates ℕ,
    ¬ WorkloadRight 5 (initialProblem 16384 p List.sum fun _ => false) (initPlate 16384 p).plate
      (initPlate 16384 p).prevPlate := by
  refine ⟨⟨fun _ _ => 0, fun _ _ => 0, fun _ _ => '0'⟩, ?_⟩
  rw [workloadRight_iff_mod (by omega) (by omega)]
  omega

end PthreadBenchmark.HotPlate
