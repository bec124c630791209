import PthreadBenchmark.HotPlate.Init
import PthreadBenchmark.HotPlate.Invariant

/-! # The rounds compute the sequential sweeps -/

namespace PthreadBenchmark.HotPlate

open Pthread Barrier

variable {n : ℕ} {ν : Type*} {P : Problem ν} {plate : Plate ν} {s : Shared ν}
  {ps : Tid n → Point n ν} {q : Point n ν} {w : Fin n} {r : ℕ}

/-! ## Values -/

theorem sweeps_of_locked {i j : ℤ} (h : P.lockedCells i j ≠ '0') (r : ℕ) :
    sweeps P plate r i j = plate i j := by
  induction r with
  | zero => rfl
  | succ r ih => rw [sweeps_succ, sweep, if_neg h, ih]

theorem sweeps_of_free {i j : ℤ} (h : P.lockedCells i j = '0') {values : List ν}
    (hreads : Reads (sweeps P plate r) (neighbours i j) [] values) :
    sweeps P plate (r + 1) i j = P.stencil values := by
  obtain ⟨done, hdone, hvalues⟩ := hreads
  rw [List.append_nil] at hdone
  rw [sweeps_succ, sweep, if_pos h, hdone, hvalues]

theorem Value.locked {mainPlate : Plate ν} {written : Prop} {i j : ℤ}
    (h : Value P plate mainPlate r written i j) (hlocked : P.lockedCells i j ≠ '0') :
    mainPlate i j = plate i j := by
  by_cases hwritten : written
  · rw [h.1 hwritten, sweeps_of_locked hlocked]
  · rw [h.2 hwritten, sweeps_of_locked hlocked]

/-- A locked cell counts as written at any time. -/
theorem Value.of_locked {mainPlate : Plate ν} {written written' : Prop} {i j : ℤ}
    (h : Value P plate mainPlate r written i j) (hlocked : P.lockedCells i j ≠ '0') :
    Value P plate mainPlate r written' i j := by
  have hold := h.locked hlocked
  constructor
  · intro _
    rw [hold, sweeps_of_locked hlocked]
  · intro _
    rw [hold, sweeps_of_locked hlocked]

theorem Reads.next {cells todo : List (ℤ × ℤ)} {values : List ν} {c : ℤ × ℤ}
    (h : Reads plate cells (c :: todo) values) :
    Reads plate cells todo (values ++ [plate c.1 c.2]) := by
  obtain ⟨done, rfl, rfl⟩ := h
  exact ⟨done ++ [c], by simp, by simp⟩

theorem Reads.mem {cells todo : List (ℤ × ℤ)} {values : List ν} {c : ℤ × ℤ}
    (h : Reads plate cells (c :: todo) values) : c ∈ cells := by
  obtain ⟨done, rfl, rfl⟩ := h
  simp

/-! ## Workers -/

/-- Behind a cell, only that cell is new. -/
theorem written_next {i j e i' j' : ℤ} (h : ¬ (i' = i ∧ j' = j)) :
    (WorkerPc.cell i (j + 1) e : WorkerPc ν).Written i' j' ↔
      (WorkerPc.cell i j e : WorkerPc ν).Written i' j' := by
  simp only [WorkerPc.Written]
  omega

/-- A step of a worker that writes no cell. -/
theorem Sweeping.workOn (h : Sweeping P plate s ps) {pc pc' : WorkerPc ν}
    (hp : ps (some w) = .worker w r pc) (hpc : pc.part = .inner) (hpc' : pc'.part = .inner)
    (hfine : pc'.Fine P plate w r)
    (hwritten : ∀ i j : ℤ, Row P.gridSize n w i → 0 ≤ j ∧ j < P.gridSize →
      (pc'.Written i j ↔ pc.Written i j)) :
    Sweeping P plate s (Function.update ps (some w) (.worker w r pc')) := by
  refine h.work hp hpc hpc' hfine (fun _ _ _ => rfl) ?_
  intro i j hrow hj hvalue
  rwa [Value, hwritten i j hrow hj]

/-- A worker reads the five values of a cell, and writes the cell behind them. -/
theorem Sweeping.stepRead (hborder : BorderLocked P) (h : Sweeping P plate s ps) {i j e : ℤ}
    {todo : List (ℤ × ℤ)} {values : List ν}
    (hp : ps (some w) = .worker w r (.read i j e todo values))
    (hq : (updatePlate P s w r (.read i j e todo values)).next? = some q) :
    Sweeping P plate ((updatePlate P s w r (.read i j e todo values)).after s)
      (Function.update ps (some w) q) := by
  have hfine : (WorkerPc.read i j e todo values).Fine P plate w r := by
    have hall := h.fine (some w)
    rw [hp] at hall
    exact hall.2
  obtain ⟨hrow, hj, rfl, hfree, hreads⟩ : _ ∧ _ ∧ e = _ ∧ _ ∧ _ := hfine
  cases todo with
  | nil =>
      cases hq
      have hnext : (WorkerPc.cell i (j + 1) (last P.gridSize n w)).Fine P plate w r :=
        ⟨hrow, by omega, by omega, rfl⟩
      refine h.work hp rfl rfl hnext ?_ ?_
      · intro i' j' hrow'
        have hne : ¬ (i' = i ∧ j' = j) := by
          rintro ⟨rfl, -⟩
          exact hrow' hrow
        exact if_neg hne
      · intro i' j' _ _ hvalue
        by_cases hcell : i' = i ∧ j' = j
        · obtain ⟨rfl, rfl⟩ := hcell
          constructor
          · intro _
            rw [sweeps_of_free hfree hreads]
            exact if_pos ⟨rfl, rfl⟩
          · intro hnot
            exact absurd (.inr ⟨rfl, Int.lt_succ j'⟩) hnot
        · have hframe : s.mainPlate.set i j (P.stencil values) i' j' = s.mainPlate i' j' :=
            if_neg hcell
          rwa [Value, written_next hcell, hframe]
  | cons c todo =>
      obtain ⟨a, b⟩ := c
      have hgrid : InGrid P.gridSize a b :=
        hborder.neighbours (hrow.inGrid hj) hfree (a, b) hreads.mem
      obtain ⟨hfirst, hsecond⟩ := h.rounds.inner (t := some w) (by rw [hp]; rfl)
      have hprev := (h.computing (by omega)).prevPlate a b hgrid
      rw [hsecond] at hprev
      simp only [updatePlate, if_pos hgrid] at hq ⊢
      cases hq
      rw [hprev]
      exact h.workOn hp rfl rfl ⟨hrow, hj, rfl, hfree, hreads.next⟩ fun _ _ _ _ => Iff.rfl

/-- A worker comes to a cell, and leaves it alone if it is locked. -/
theorem Sweeping.stepCell (h : Sweeping P plate s ps) {i j e : ℤ}
    (hp : ps (some w) = .worker w r (.cell i j e))
    (hfine : (WorkerPc.cell i j e : WorkerPc ν).Fine P plate w r)
    (hq : (updatePlate P s w r (.cell i j e)).next? = some q) :
    Sweeping P plate ((updatePlate P s w r (.cell i j e)).after s)
      (Function.update ps (some w) q) := by
  obtain ⟨hrow, h0, hle, rfl⟩ : _ ∧ _ ∧ _ ∧ e = _ := hfine
  by_cases hj : j < P.gridSize
  · simp only [updatePlate, if_pos hj] at hq ⊢
    by_cases hfree : P.lockedCells i j = '0'
    · cases hq
      simp only [if_pos hfree]
      exact h.workOn hp rfl rfl ⟨hrow, ⟨h0, hj⟩, rfl, hfree, [], rfl, rfl⟩
        fun _ _ _ _ => Iff.rfl
    · cases hq
      simp only [if_neg hfree]
      have hnext : (WorkerPc.cell i (j + 1) (last P.gridSize n w)).Fine P plate w r :=
        ⟨hrow, by omega, by omega, rfl⟩
      refine h.work hp rfl rfl hnext (fun _ _ _ => rfl) ?_
      intro i' j' _ _ hvalue
      by_cases hcell : i' = i ∧ j' = j
      · obtain ⟨rfl, rfl⟩ := hcell
        exact hvalue.of_locked hfree
      · rwa [Value, written_next hcell]
  · simp only [updatePlate, if_neg hj] at hq ⊢
    cases hq
    obtain ⟨hfirst, hlast⟩ := hrow
    refine h.workOn hp rfl rfl ⟨by omega, by omega, rfl⟩ ?_
    intro i' j' _ hj'
    simp only [WorkerPc.Written]
    omega

theorem Sweeping.stepWorker (hborder : BorderLocked P) (hdvd : n ∣ P.gridSize)
    (h : Sweeping P plate s ps) {pc : WorkerPc ν} (hp : ps (some w) = .worker w r pc)
    (hq : (updatePlate P s w r pc).next? = some q) :
    Sweeping P plate ((updatePlate P s w r pc).after s) (Function.update ps (some w) q) := by
  have hposition : (ps (some w)).position = ⟨r, pc.part⟩ := by rw [hp, Point.position]
  have hfine : pc.Fine P plate w r := by
    have hall := h.fine (some w)
    rw [hp] at hall
    exact hall.2
  cases pc with
  | first =>
      cases hq
      exact h.arriveFirst hposition rfl ⟨rfl, (h.rounds.arriveFirst hposition).2.1⟩
  | firstWait generation =>
      obtain rfl : generation = r := hfine
      simp only [updatePlate] at hq ⊢
      rcases Op.await_cases hq with ⟨hready, rfl, hafter⟩ | ⟨rfl, hafter⟩
      · rw [hafter]
        refine h.pass (h.rounds.passFirst hposition hready) ⟨rfl, trivial⟩ ?_ ?_
        · intro _ w' i j _
          rw [hp]
          exact Iff.rfl
        · intro _ i j ht
          cases ht
      · rw [hafter, ← hp, Function.update_eq_self]
        exact h
  | argsLock =>
      cases hq
      exact h.workOn hp rfl rfl trivial fun _ _ _ _ => Iff.rfl
  | argsBegin =>
      cases hq
      exact h.workOn hp rfl rfl rfl fun _ _ _ _ => Iff.rfl
  | argsEnd b =>
      cases hq
      exact h.workOn hp rfl rfl ⟨hfine, rfl⟩ fun _ _ _ _ => Iff.rfl
  | argsUnlock b e =>
      cases hq
      obtain ⟨rfl, rfl⟩ : b = _ ∧ e = _ := hfine
      refine h.workOn hp rfl rfl ⟨le_rfl, first_le_last w, rfl⟩ ?_
      intro i j hrow _
      exact iff_of_false hrow.1.not_gt id
  | row i e =>
      obtain ⟨hfirst, hlast, rfl⟩ : _ ∧ _ ∧ e = _ := hfine
      cases hq
      split
      · next hlt =>
          refine h.workOn hp rfl rfl ⟨⟨hfirst, hlt⟩, le_rfl, Int.natCast_nonneg _, rfl⟩ ?_
          intro i' j' _ hj
          simp only [WorkerPc.Written]
          omega
      · next hge =>
          refine h.workOn hp rfl rfl trivial ?_
          intro i' j' hrow _
          apply iff_of_true trivial
          exact hrow.2.trans_le (not_lt.mp hge)
  | cell i j e => exact h.stepCell hp hfine hq
  | read i j e todo values => exact h.stepRead hborder hp hq
  | second =>
      cases hq
      refine h.arriveSecond hdvd hposition ?_ rfl ⟨rfl, (h.rounds.inner hposition).2⟩
      intro w' i j _
      rw [hp]
      trivial
  | secondWait generation =>
      obtain rfl : generation = r := hfine
      simp only [updatePlate] at hq ⊢
      rcases Op.await_cases hq with ⟨hready, rfl, hafter⟩ | ⟨rfl, hafter⟩
      · rw [hafter]
        have hpassed := h.rounds.passSecond hposition hready
        have hnext := hpassed.next (Function.update_self ..)
        rw [Function.update_idem] at hnext
        refine h.pass hnext ⟨rfl, trivial⟩ ?_ ?_
        · intro hne
          obtain ⟨hfirst, hsecond⟩ := hpassed.outer (Function.update_self ..)
          exact absurd (hfirst.trans hsecond.symm) hne
        · intro _ i j ht
          cases ht
      · rw [hafter, ← hp, Function.update_eq_self]
        exact h

/-! ## `main` -/

/-- A step of `main` that copies no cell. -/
theorem Sweeping.copyOn (h : Sweeping P plate s ps) {pc pc' : MainPc ν}
    (hp : ps none = .main r pc) (hpc : pc.part = .outer) (hpc' : pc'.part = .outer)
    (hfine : pc'.Fine P plate r)
    (hcopied : ∀ i j, InGrid P.gridSize i j → pc'.Copied i j → pc.Copied i j) :
    Sweeping P plate s (Function.update ps none (.main r pc')) := by
  refine h.copy hp hpc hpc' hfine ?_
  intro i j hgrid hcopy hvalue
  exact hvalue (hcopied i j hgrid hcopy)

/-- `main` reads the next cell of the row, if there is one. -/
theorem Sweeping.stepCopyCell (h : Sweeping P plate s ps) {i j : ℤ}
    (hp : ps none = .main r (.copyCell i j)) (hfine : (.copyCell i j : MainPc ν).Fine P plate r)
    (hq : (startUpdate P s r (.copyCell i j) : Step n ν).next? = some q) :
    Sweeping P plate ((startUpdate P s r (.copyCell i j) : Step n ν).after s)
      (Function.update ps none q) := by
  have hposition : (ps none).position = ⟨r, .outer⟩ := by
    rw [hp]
    rfl
  obtain ⟨hi, hj⟩ : _ ∧ 0 ≤ j := hfine
  cases hq
  split
  · next hlt =>
      have hgrid : InGrid P.gridSize i j := ⟨hi.1, hi.2, hj, hlt⟩
      obtain ⟨hfirst, hsecond⟩ := h.rounds.outer hposition
      have hmain := (h.copying (by omega)).mainPlate i j hgrid
      rw [hsecond] at hmain
      exact h.copyOn hp rfl rfl ⟨hgrid, hmain⟩ fun _ _ _ hcopied => hcopied
  · next hge =>
      refine h.copyOn hp rfl rfl (Int.le_add_one hi.1) ?_
      intro i' j' hgrid hcopied
      simp only [MainPc.Copied, InGrid] at hgrid hcopied ⊢
      omega

/-- `main` copies a cell. -/
theorem Sweeping.stepCopyWrite (h : Sweeping P plate s ps) {i j : ℤ} {v : ν}
    (hp : ps none = .main r (.copyWrite i j v))
    (hfine : (.copyWrite i j v : MainPc ν).Fine P plate r)
    (hq : (startUpdate P s r (.copyWrite i j v) : Step n ν).next? = some q) :
    Sweeping P plate ((startUpdate P s r (.copyWrite i j v) : Step n ν).after s)
      (Function.update ps none q) := by
  obtain ⟨hgrid, rfl⟩ : _ ∧ v = _ := hfine
  cases hq
  have hnext : (MainPc.copyCell i (j + 1)).Fine P plate r :=
    ⟨⟨hgrid.1, hgrid.2.1⟩, Int.le_add_one hgrid.2.2.1⟩
  refine h.copy hp rfl rfl hnext ?_
  intro i' j' _ hcopied hvalue
  by_cases hcell : i' = i ∧ j' = j
  · obtain ⟨rfl, rfl⟩ := hcell
    exact if_pos ⟨rfl, rfl⟩
  · have hframe : s.prevPlate.set i j (sweeps P plate (r + 1) i j) i' j' = s.prevPlate i' j' :=
      if_neg hcell
    rw [hframe]
    apply hvalue
    simp only [MainPc.Copied] at hcopied ⊢
    omega

/-- `main` reads the five values of a cell. -/
theorem Sweeping.stepSteadyRead (hborder : BorderLocked P) (h : Sweeping P plate s ps) {i j : ℤ}
    {seen : List (List ν)} {todo : List (ℤ × ℤ)} {values : List ν}
    (hp : ps none = .main r (.steadyRead i j seen todo values))
    (hfine : (.steadyRead i j seen todo values : MainPc ν).Fine P plate r)
    (hq : (startUpdate P s r (.steadyRead i j seen todo values) : Step n ν).next? = some q) :
    Sweeping P plate ((startUpdate P s r (.steadyRead i j seen todo values) : Step n ν).after s)
      (Function.update ps none q) := by
  obtain ⟨hgrid, hfree, htodo⟩ : _ ∧ _ ∧ _ := hfine
  cases todo with
  | nil =>
      cases hq
      exact h.copyOn hp rfl rfl ⟨⟨hgrid.1, hgrid.2.1⟩, Int.le_add_one hgrid.2.2.1⟩
        fun _ _ _ _ => trivial
  | cons c todo =>
      obtain ⟨a, b⟩ := c
      have hread : InGrid P.gridSize a b :=
        hborder.neighbours hgrid hfree (a, b)
          (mem_neighbours_of_steady (htodo _ List.mem_cons_self))
      simp only [startUpdate, if_pos hread] at hq ⊢
      cases hq
      exact h.copyOn hp rfl rfl ⟨hgrid, hfree, fun c hc => htodo c (List.mem_cons_of_mem _ hc)⟩
        fun _ _ _ _ => trivial

/-- `main` copies the plate, and decides on the next round. -/
theorem Sweeping.stepCopy (hborder : BorderLocked P) (h : Sweeping P plate s ps) {pc : MainPc ν}
    (hp : ps none = .main r pc) (hpc : pc.part = .outer)
    (hq : (startUpdate P s r pc : Step n ν).next? = some q) :
    Sweeping P plate ((startUpdate P s r pc : Step n ν).after s) (Function.update ps none q) := by
  have hposition : (ps none).position = ⟨r, .outer⟩ := by rw [hp, Point.position, hpc]
  have hfine : pc.Fine P plate r := by
    have hall := h.fine none
    rwa [hp] at hall
  cases pc with
  | first | firstWait | second | secondWait => cases hpc
  | returned => cases hq
  | copyRow i =>
      cases hq
      split
      · next hlt =>
          refine h.copyOn hp rfl rfl ⟨⟨hfine, hlt⟩, le_rfl⟩ ?_
          intro i' j' hgrid hcopied
          simp only [MainPc.Copied, InGrid] at hgrid hcopied ⊢
          omega
      · next hge =>
          refine h.copyOn hp rfl rfl le_rfl ?_
          intro i' j' hgrid _
          exact hgrid.2.1.trans_le (not_lt.mp hge)
  | copyCell i j => exact h.stepCopyCell hp hfine hq
  | copyWrite i j v => exact h.stepCopyWrite hp hfine hq
  | steadyRow i seen =>
      by_cases hlt : i < P.gridSize
      · simp only [startUpdate, if_pos hlt] at hq ⊢
        cases hq
        exact h.copyOn hp rfl rfl ⟨⟨hfine, hlt⟩, le_rfl⟩ fun _ _ _ _ => trivial
      · simp only [startUpdate, if_neg hlt] at hq ⊢
        cases hq
        split
        · refine h.pass (h.rounds.next hposition) trivial ?_ ?_
          · intro _ w i j ht
            cases ht
          · intro _ i j _ _ _
            rw [hp]
            trivial
        · exact h.copyOn hp rfl rfl trivial fun _ _ _ _ => trivial
  | steadyCell i j seen =>
      obtain ⟨hi, hj⟩ : _ ∧ 0 ≤ j := hfine
      by_cases hlt : j < P.gridSize
      · simp only [startUpdate, if_pos hlt] at hq ⊢
        cases hq
        split
        · next hfree =>
            exact h.copyOn hp rfl rfl ⟨⟨hi.1, hi.2, hj, hlt⟩, hfree, fun _ hc => hc⟩
              fun _ _ _ _ => trivial
        · exact h.copyOn hp rfl rfl ⟨hi, Int.le_add_one hj⟩ fun _ _ _ _ => trivial
      · simp only [startUpdate, if_neg hlt] at hq ⊢
        cases hq
        exact h.copyOn hp rfl rfl (Int.le_add_one hi.1) fun _ _ _ _ => trivial
  | steadyRead i j seen todo values => exact h.stepSteadyRead hborder hp hfine hq

theorem Sweeping.stepMain (hborder : BorderLocked P) (hdvd : n ∣ P.gridSize)
    (h : Sweeping P plate s ps) {pc : MainPc ν} (hp : ps none = .main r pc)
    (hq : (startUpdate P s r pc : Step n ν).next? = some q) :
    Sweeping P plate ((startUpdate P s r pc : Step n ν).after s) (Function.update ps none q) := by
  have hposition : (ps none).position = ⟨r, pc.part⟩ := by rw [hp, Point.position]
  have hfine : pc.Fine P plate r := by
    have hall := h.fine none
    rwa [hp] at hall
  cases pc with
  | returned => cases hq
  | first =>
      cases hq
      exact h.arriveFirst hposition rfl (h.rounds.arriveFirst hposition).2.1
  | firstWait generation =>
      obtain rfl : generation = r := hfine
      simp only [startUpdate] at hq ⊢
      rcases Op.await_cases hq with ⟨hready, rfl, hafter⟩ | ⟨rfl, hafter⟩
      · rw [hafter]
        refine h.pass (h.rounds.passFirst hposition hready) trivial ?_ ?_
        · intro _ w i j ht
          cases ht
        · intro _ i j _ _ _
          rw [hp]
          trivial
      · rw [hafter, ← hp, Function.update_eq_self]
        exact h
  | second =>
      cases hq
      refine h.arriveSecond hdvd hposition ?_ rfl (h.rounds.inner hposition).2
      intro w i j ht
      cases ht
  | secondWait generation =>
      obtain rfl : generation = r := hfine
      simp only [startUpdate] at hq ⊢
      rcases Op.await_cases hq with ⟨hready, rfl, hafter⟩ | ⟨rfl, hafter⟩
      · rw [hafter]
        refine h.pass (h.rounds.passSecond hposition hready) le_rfl ?_ ?_
        · intro _ w i j ht
          cases ht
        · intro _ i j _ hgrid hcopied
          exact absurd hcopied hgrid.1.not_gt
      · rw [hafter, ← hp, Function.update_eq_self]
        exact h
  | copyRow | copyCell | copyWrite => exact h.stepCopy hborder hp rfl hq
  | steadyRow | steadyCell | steadyRead => exact h.stepCopy hborder hp rfl hq

/-! ## Runs -/

theorem Sweeping.step (hborder : BorderLocked P) (hdvd : n ∣ P.gridSize) (h : Sweeping P plate s ps)
    {t : Tid n} (hq : (code P s (ps t)).next? = some q) :
    Sweeping P plate ((code P s (ps t)).after s) (Function.update ps t q) := by
  have hfine := h.fine t
  cases t with
  | none =>
      cases hp : ps none with
      | main r pc =>
          rw [hp] at hq
          exact h.stepMain hborder hdvd hp hq
      | worker w r pc =>
          rw [hp] at hfine
          exact hfine.elim
      | fault =>
          rw [hp] at hfine
          exact hfine.elim
  | some w =>
      cases hp : ps (some w) with
      | worker w' r pc =>
          rw [hp] at hfine hq
          obtain rfl : w' = w := hfine.1
          exact h.stepWorker hborder hdvd hp hq
      | main r pc =>
          rw [hp] at hfine
          exact hfine.elim
      | fault =>
          rw [hp] at hfine
          exact hfine.elim

theorem sweeping_of_reachable {prevPlate : Plate ν} (hborder : BorderLocked P)
    (hdvd : n ∣ P.gridSize) (heq : ∀ i j, InGrid P.gridSize i j → prevPlate i j = plate i j)
    {c : Config (Tid n) (Shared ν) (Point n ν) Mutex Empty}
    (h : (program n P plate prevPlate).Reachable c) : Sweeping P plate c.shared (points c) := by
  apply points_invariant (P := Sweeping P plate) h (sweeping_start heq)
  intro s ps t q hsweeping hq
  exact hsweeping.step hborder hdvd hq

/-! ## Result -/

/-- The rounds behind which `main` is, unless it waits for the workers or copies. -/
def Point.roundsDone : Point n ν → Option ℕ
  | .main r .first => some r
  | .main r (.steadyRow ..) | .main r (.steadyCell ..) | .main r (.steadyRead ..)
  | .main r .returned => some (r + 1)
  | _ => none

theorem Sweeping.plates (h : Sweeping P plate s ps) {k : ℕ} (hk : (ps none).roundsDone = some k)
    {i j : ℤ} (hgrid : InGrid P.gridSize i j) :
    s.mainPlate i j = sweeps P plate k i j ∧ s.prevPlate i j = sweeps P plate k i j := by
  have hfine := h.fine none
  rcases hp : ps none with _ | ⟨r, pc⟩ | _
  · rw [hp] at hfine
    exact hfine.elim
  · have hposition : (ps none).position = ⟨r, pc.part⟩ := by rw [hp, Point.position]
    rw [hp] at hk
    cases pc with
    | firstWait | second | secondWait | copyRow | copyCell | copyWrite => cases hk
    | first =>
        cases hk
        obtain ⟨-, hfirst, hsecond, -⟩ := h.rounds.arriveFirst hposition
        have hcopying := h.copying (hfirst.trans hsecond.symm)
        rw [hsecond] at hcopying
        exact ⟨hcopying.mainPlate i j hgrid, hcopying.prevPlate i j hgrid (by rw [hp]; trivial)⟩
    | steadyRow | steadyCell | steadyRead | returned =>
        cases hk
        obtain ⟨hfirst, hsecond⟩ := h.rounds.outer hposition
        have hcopying := h.copying (hfirst.trans hsecond.symm)
        rw [hsecond] at hcopying
        exact ⟨hcopying.mainPlate i j hgrid, hcopying.prevPlate i j hgrid (by rw [hp]; trivial)⟩
  · rw [hp] at hfine
    exact hfine.elim

theorem Sweeping.locked (hdvd : n ∣ P.gridSize) (h : Sweeping P plate s ps) {i j : ℤ}
    (hgrid : InGrid P.gridSize i j) (hlocked : P.lockedCells i j ≠ '0') :
    s.mainPlate i j = plate i j := by
  by_cases heq : s.barrierFirst.generation = s.barrierSecond.generation
  · rw [(h.copying heq).mainPlate i j hgrid, sweeps_of_locked hlocked]
  · obtain ⟨w, hrow⟩ := exists_row hdvd hgrid.1 hgrid.2.1
    exact ((h.computing heq).mainPlate w i j hrow hgrid.2.2).locked hlocked

/-- `initPlate` makes the plates equal and locks the border, for any size. From such plates, with
any number of workers that divides the rows evenly, and in any interleaving: no thread reads outside
of the grid, locked cells never change, and behind each round both plates are the one that so many
sequential sweeps compute. -/
theorem hot_plate_correct [NatCast ν] :
    (∀ (gridSize : ℕ) (p : Plates ν) (i j : ℤ), InGrid gridSize i j →
      Ready gridSize (initPlate gridSize p) i j) ∧
    ∀ (n : ℕ) (P : Problem ν) (plate prevPlate : Plate ν), n ∣ P.gridSize → BorderLocked P →
      (∀ i j, InGrid P.gridSize i j → prevPlate i j = plate i j) →
      ∀ c, (program n P plate prevPlate).Reachable c →
        (∀ t, points c t ≠ .fault) ∧
        (∀ i j, InGrid P.gridSize i j → P.lockedCells i j ≠ '0' →
          c.shared.mainPlate i j = plate i j) ∧
        ∀ k, (points c none).roundsDone = some k → ∀ i j, InGrid P.gridSize i j →
          c.shared.mainPlate i j = sweeps P plate k i j ∧
            c.shared.prevPlate i j = sweeps P plate k i j := by
  constructor
  · intro gridSize p i j hgrid
    exact ready_initPlate hgrid
  · intro n P plate prevPlate hdvd hborder heq c hc
    have hsweeping := sweeping_of_reachable hborder hdvd heq hc
    refine ⟨fun t ht => ?_, fun i j => hsweeping.locked hdvd, fun k hk i j => hsweeping.plates hk⟩
    have hfine := hsweeping.fine t
    rw [ht] at hfine
    cases t <;> exact hfine

/-- A grid with one cell that is not locked. -/
def oneCell : Problem ℕ where
  gridSize := 3
  lockedCells i j := if i = 1 ∧ j = 1 then '0' else '1'
  stencil values := (values.take 4).sum + 4 * values.getLast?.getD 0
  steady _ := false

def onePlate : Plate ℕ := fun i j => if i = 1 ∧ j = 1 then 0 else 100

/-- A round of one worker, up to `steady`. -/
def oneRound (w : Fin 1) :
    Option (Config (Tid 1) (Shared ℕ) (Point 1 ℕ) Mutex Empty) :=
  (program 1 oneCell onePlate onePlate).exec (program 1 oneCell onePlate onePlate).init
    (.run (some w) none :: List.replicate 3 (Action.run none none) ++
      List.replicate 40 (Action.run (some w) none) ++ List.replicate 30 (Action.run none none))

theorem hot_plate_correct_one : ∃ c, oneRound 0 = some c ∧ (∀ t, points c t ≠ .fault) ∧
    c.shared.mainPlate 1 1 = 400 ∧ c.shared.prevPlate 1 1 = 400 := by
  have hrun : ((oneRound 0).bind fun c => (points c none).roundsDone) = some 1 := by
    decide +kernel
  obtain ⟨c, hc, hdone⟩ := Option.bind_eq_some_iff.mp hrun
  have hborder : BorderLocked oneCell := by
    intro i j hgrid hborder hfree
    simp only [oneCell, Nat.cast_ofNat] at hborder hfree
    split at hfree
    · omega
    · cases hfree
  have hcorrect := hot_plate_correct.2 1 oneCell onePlate onePlate (by decide) hborder
    (fun _ _ _ => rfl) c (System.Reachable.init.exec hc)
  have hplates := hcorrect.2.2 1 hdone 1 1 (by decide)
  have hsweep : sweeps oneCell onePlate 1 1 1 = 400 := by decide
  rw [hsweep] at hplates
  exact ⟨c, hc, hcorrect.1, hplates⟩

end PthreadBenchmark.HotPlate
