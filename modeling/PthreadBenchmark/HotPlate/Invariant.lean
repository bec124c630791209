import PthreadBenchmark.HotPlate.Sweep

/-! # What holds in the two parts of a round

Between the barriers the workers write a plate and read the other one. Behind the second
barrier they wait, while `main` copies the plate and reads it again. -/

namespace PthreadBenchmark.HotPlate

open Pthread Barrier

variable {n : ℕ} {ν : Type*} {P : Problem ν} {plate : Plate ν} {s : Shared ν}
  {ps : Tid n → Point n ν} {t : Tid n} {q : Point n ν} {w : Fin n} {r : ℕ}

def WorkerPc.part : WorkerPc ν → Part
  | .first => .first
  | .firstWait _ => .firstWait
  | .secondWait _ => .secondWait
  | _ => .inner

def MainPc.part : MainPc ν → Part
  | .first => .first
  | .firstWait _ => .firstWait
  | .second => .inner
  | .secondWait _ => .secondWait
  | _ => .outer

def Point.position : Point n ν → Position
  | .worker _ r pc => ⟨r, pc.part⟩
  | .main r pc => ⟨r, pc.part⟩
  | .fault => ⟨0, .first⟩

/-! ## Threads -/

/-- The values are those of the first cells of the list. -/
def Reads (plate : Plate ν) (cells todo : List (ℤ × ℤ)) (values : List ν) : Prop :=
  ∃ done, cells = done ++ todo ∧ values = done.map fun c => plate c.1 c.2

/-- What holds of the locals of a worker in round `r`. -/
def WorkerPc.Fine (P : Problem ν) (plate : Plate ν) (w : Fin n) (r : ℕ) : WorkerPc ν → Prop
  | .firstWait generation | .secondWait generation => generation = r
  | .argsEnd b => b = HotPlate.first P.gridSize n w
  | .argsUnlock b e => b = HotPlate.first P.gridSize n w ∧ e = last P.gridSize n w
  | .row i e =>
    HotPlate.first P.gridSize n w ≤ i ∧ i ≤ last P.gridSize n w ∧ e = last P.gridSize n w
  | .cell i j e => Row P.gridSize n w i ∧ 0 ≤ j ∧ j ≤ P.gridSize ∧ e = last P.gridSize n w
  | .read i j e todo values =>
    Row P.gridSize n w i ∧ (0 ≤ j ∧ j < P.gridSize) ∧ e = last P.gridSize n w ∧
      P.lockedCells i j = '0' ∧ Reads (sweeps P plate r) (neighbours i j) todo values
  | _ => True

/-- What holds of the locals of `main` in round `r`. -/
def MainPc.Fine (P : Problem ν) (plate : Plate ν) (r : ℕ) : MainPc ν → Prop
  | .firstWait generation | .secondWait generation => generation = r
  | .copyRow i | .steadyRow i _ => 0 ≤ i
  | .copyCell i j | .steadyCell i j _ => (0 ≤ i ∧ i < P.gridSize) ∧ 0 ≤ j
  | .copyWrite i j v => InGrid P.gridSize i j ∧ v = sweeps P plate (r + 1) i j
  | .steadyRead i j _ todo _ =>
    InGrid P.gridSize i j ∧ P.lockedCells i j = '0' ∧ ∀ c ∈ todo, c ∈ steadyNeighbours i j
  | _ => True

def Fine (P : Problem ν) (plate : Plate ν) : Tid n → Point n ν → Prop
  | some w, .worker w' r pc => w' = w ∧ pc.Fine P plate w r
  | none, .main r pc => pc.Fine P plate r
  | _, _ => False

/-- The worker has written the cell of one of its rows in this round. -/
def WorkerPc.Written (i' j' : ℤ) : WorkerPc ν → Prop
  | .row i _ => i' < i
  | .cell i j _ | .read i j _ _ _ => i' < i ∨ i' = i ∧ j' < j
  | .second | .secondWait _ => True
  | _ => False

/-- `main` has copied the cell. -/
def MainPc.Copied (i' j' : ℤ) : MainPc ν → Prop
  | .second | .secondWait _ => False
  | .copyRow i => i' < i
  | .copyCell i j | .copyWrite i j _ => i' < i ∨ i' = i ∧ j' < j
  | _ => True

def Point.Written (i j : ℤ) : Point n ν → Prop
  | .worker _ _ pc => pc.Written i j
  | _ => False

def Point.Copied (i j : ℤ) : Point n ν → Prop
  | .main _ pc => pc.Copied i j
  | _ => False

/-- A cell that is written from round `r` has its next value, and the other ones their last. -/
def Value (P : Problem ν) (plate mainPlate : Plate ν) (r : ℕ) (written : Prop) (i j : ℤ) : Prop :=
  (written → mainPlate i j = sweeps P plate (r + 1) i j) ∧
    (¬ written → mainPlate i j = sweeps P plate r i j)

/-- The values between the barriers of round `r`. -/
structure Computing (P : Problem ν) (plate : Plate ν) (r : ℕ) (s : Shared ν)
    (ps : Tid n → Point n ν) : Prop where
  prevPlate : ∀ i j, InGrid P.gridSize i j → s.prevPlate i j = sweeps P plate r i j
  mainPlate : ∀ (w : Fin n) (i j : ℤ), Row P.gridSize n w i → 0 ≤ j ∧ j < P.gridSize →
    Value P plate s.mainPlate r ((ps (some w)).Written i j) i j

/-- The values behind `r` rounds. -/
structure Copying (P : Problem ν) (plate : Plate ν) (r : ℕ) (s : Shared ν)
    (ps : Tid n → Point n ν) : Prop where
  mainPlate : ∀ i j, InGrid P.gridSize i j → s.mainPlate i j = sweeps P plate r i j
  prevPlate : ∀ i j, InGrid P.gridSize i j → (ps none).Copied i j →
    s.prevPlate i j = sweeps P plate r i j

structure Sweeping (P : Problem ν) (plate : Plate ν) (s : Shared ν) (ps : Tid n → Point n ν) :
    Prop where
  rounds : Rounds s.barrierFirst s.barrierSecond fun t => (ps t).position
  fine : ∀ t, Fine P plate t (ps t)
  computing : s.barrierFirst.generation ≠ s.barrierSecond.generation →
    Computing P plate s.barrierSecond.generation s ps
  copying : s.barrierFirst.generation = s.barrierSecond.generation →
    Copying P plate s.barrierSecond.generation s ps

theorem sweeping_start {prevPlate : Plate ν}
    (heq : ∀ i j, InGrid P.gridSize i j → prevPlate i j = plate i j) :
    Sweeping P plate ⟨plate, prevPlate, .empty, .empty⟩ (start : Tid n → Point n ν) where
  rounds := by
    have hposition : (fun t : Tid n => (start t : Point n ν).position) = fun _ => ⟨0, .first⟩ := by
      funext t
      cases t <;> rfl
    rw [hposition]
    exact rounds_start
  fine t := by
    cases t with
    | none => trivial
    | some w => exact ⟨rfl, trivial⟩
  computing h := absurd rfl h
  copying _ := ⟨fun _ _ _ => rfl, fun i j hgrid _ => heq i j hgrid⟩

/-! ## Steps -/

theorem position_update (ps : Tid n → Point n ν) (t : Tid n) (q : Point n ν) :
    (fun u => (Function.update ps t q u).position) =
      Function.update (fun u => (ps u).position) t q.position :=
  Function.comp_update Point.position ps t q

/-- Where all threads are, once the last one has come there too. -/
theorem position_of_update {p : Position} (hq : q.position = p)
    (hall : ∀ u, u ≠ t → (ps u).position = p) (u : Tid n) :
    (Function.update ps t q u).position = p :=
  (Function.forall_update_iff ps fun _ q => q.position = p).mpr ⟨hq, hall⟩ u

theorem Sweeping.fine_update (h : Sweeping P plate s ps) (hfine : Fine P plate t q) (u : Tid n) :
    Fine P plate u (Function.update ps t q u) :=
  (Function.forall_update_iff ps fun u p => Fine P plate u p).mpr
    ⟨hfine, fun u _ => h.fine u⟩ u

/-- A step that leaves the shared variables alone. -/
theorem Sweeping.pass (h : Sweeping P plate s ps)
    (hrounds : Rounds s.barrierFirst s.barrierSecond
      (Function.update (fun u => (ps u).position) t q.position))
    (hfine : Fine P plate t q)
    (hwritten : s.barrierFirst.generation ≠ s.barrierSecond.generation →
      ∀ w i j, t = some w → (q.Written i j ↔ (ps t).Written i j))
    (hcopied : s.barrierFirst.generation = s.barrierSecond.generation →
      ∀ i j, t = none → InGrid P.gridSize i j → q.Copied i j → (ps t).Copied i j) :
    Sweeping P plate s (Function.update ps t q) where
  rounds := by
    rw [position_update]
    exact hrounds
  fine := h.fine_update hfine
  computing hne := by
    have hcomputing := h.computing hne
    refine ⟨hcomputing.prevPlate, fun w i j hrow hj => ?_⟩
    have hvalue := hcomputing.mainPlate w i j hrow hj
    by_cases ht : some w = t
    · subst ht
      rw [Function.update_self, Value, hwritten hne w i j rfl]
      exact hvalue
    · rwa [Function.update_of_ne ht]
  copying heq := by
    have hcopying := h.copying heq
    refine ⟨hcopying.mainPlate, fun i j hgrid hcopy => hcopying.prevPlate i j hgrid ?_⟩
    by_cases ht : none = t
    · subst ht
      rw [Function.update_self] at hcopy
      exact hcopied heq i j rfl hgrid hcopy
    · rwa [Function.update_of_ne ht] at hcopy

/-- A step of a worker between the barriers. -/
theorem Sweeping.work (h : Sweeping P plate s ps) {pc pc' : WorkerPc ν}
    (hp : ps (some w) = .worker w r pc) (hpc : pc.part = .inner) (hpc' : pc'.part = .inner)
    (hfine : pc'.Fine P plate w r) {mainPlate : Plate ν}
    (hframe : ∀ i j, ¬ Row P.gridSize n w i → mainPlate i j = s.mainPlate i j)
    (hvalue : ∀ i j : ℤ, Row P.gridSize n w i → 0 ≤ j ∧ j < P.gridSize →
      Value P plate s.mainPlate r (pc.Written i j) i j →
      Value P plate mainPlate r (pc'.Written i j) i j) :
    Sweeping P plate { s with mainPlate := mainPlate }
      (Function.update ps (some w) (.worker w r pc')) := by
  have hposition : (ps (some w)).position = ⟨r, .inner⟩ := by rw [hp, Point.position, hpc]
  obtain ⟨hfirst, hsecond⟩ := h.rounds.inner hposition
  have hcomputing := h.computing (by omega)
  rw [hsecond] at hcomputing
  refine ⟨?_, h.fine_update ⟨rfl, hfine⟩, fun _ => ?_, fun heq => by simp only at heq; omega⟩
  · rw [position_update, Point.position, hpc', ← hposition]
    rw [Function.update_eq_self (some w) fun u => (ps u).position]
    exact h.rounds
  · rw [hsecond]
    refine ⟨hcomputing.prevPlate, fun w' i j hrow hj => ?_⟩
    have hold := hcomputing.mainPlate w' i j hrow hj
    by_cases hw : w' = w
    · subst hw
      rw [Function.update_self]
      rw [hp] at hold
      exact hvalue i j hrow hj hold
    · have hne : some w' ≠ some w := fun heq => hw (Option.some.inj heq)
      have hsame := hframe i j fun hrow' => hw (hrow.unique hrow')
      simp only [Function.update_of_ne hne, Value, hsame]
      exact hold

/-- A step of `main` behind the second barrier. -/
theorem Sweeping.copy (h : Sweeping P plate s ps) {pc pc' : MainPc ν} (hp : ps none = .main r pc)
    (hpc : pc.part = .outer) (hpc' : pc'.part = .outer) (hfine : pc'.Fine P plate r)
    {prevPlate : Plate ν}
    (hvalue : ∀ i j, InGrid P.gridSize i j → pc'.Copied i j →
      (pc.Copied i j → s.prevPlate i j = sweeps P plate (r + 1) i j) →
      prevPlate i j = sweeps P plate (r + 1) i j) :
    Sweeping P plate { s with prevPlate := prevPlate } (Function.update ps none (.main r pc')) := by
  have hposition : (ps none).position = ⟨r, .outer⟩ := by rw [hp, Point.position, hpc]
  obtain ⟨hfirst, hsecond⟩ := h.rounds.outer hposition
  have hcopying := h.copying (by omega)
  rw [hsecond] at hcopying
  refine ⟨?_, h.fine_update hfine, fun hne => absurd (hfirst.trans hsecond.symm) hne, fun _ => ?_⟩
  · rw [position_update, Point.position, hpc', ← hposition]
    rw [Function.update_eq_self none fun u => (ps u).position]
    exact h.rounds
  · rw [hsecond]
    refine ⟨hcopying.mainPlate, fun i j hgrid hcopied => ?_⟩
    rw [Function.update_self] at hcopied
    apply hvalue i j hgrid hcopied
    intro hold
    exact hcopying.prevPlate i j hgrid (by rwa [hp])

/-! ## Barriers -/

theorem not_written_of_part {p : Point n ν} {i j : ℤ}
    (h : p.position.part = .first ∨ p.position.part = .firstWait) : ¬ p.Written i j := by
  cases p with
  | worker w r pc => cases pc <;> first | exact id | simp [Point.position, WorkerPc.part] at h
  | main r pc => exact id
  | fault => exact id

theorem copied_of_part {p : Point n ν} {i j : ℤ} (hfine : Fine P plate (none : Tid n) p)
    (h : p.position.part = .first ∨ p.position.part = .firstWait) : p.Copied i j := by
  cases p with
  | worker w r pc => exact hfine.elim
  | main r pc => cases pc <;> first | trivial | simp [Point.position, MainPc.part] at h
  | fault => exact hfine.elim

theorem written_of_part {p : Point n ν} {i j : ℤ} (hfine : Fine P plate (some w) p)
    (h : p.position.part = .secondWait) : p.Written i j := by
  cases p with
  | worker w r pc => cases pc <;> trivial
  | main r pc => exact hfine.elim
  | fault => exact hfine.elim

theorem not_copied_of_part {p : Point n ν} {i j : ℤ} (h : p.position.part = .secondWait) :
    ¬ p.Copied i j := by
  cases p with
  | worker w r pc => exact id
  | main r pc => cases pc <;> first | exact id | simp [Point.position, MainPc.part] at h
  | fault => exact id

theorem card_tid (n : ℕ) : Fintype.card (Tid n) = n + 1 := by simp

/-- A thread arrives at the first barrier: the last one starts the computation. -/
theorem Sweeping.arriveFirst (h : Sweeping P plate s ps) (hp : (ps t).position = ⟨r, .first⟩)
    (hq : q.position = ⟨r, .firstWait⟩) (hfine : Fine P plate t q) :
    Sweeping P plate { s with barrierFirst := s.barrierFirst.arrive (n + 1) }
      (Function.update ps t q) := by
  obtain ⟨hrounds, hfirst, hsecond, hcases⟩ := h.rounds.arriveFirst hp
  rw [card_tid] at hrounds hcases
  have hcopying := h.copying (hfirst.trans hsecond.symm)
  rw [hsecond] at hcopying
  have hpart : (ps t).position.part = .first := by rw [hp]
  refine ⟨by rwa [position_update, hq], h.fine_update hfine, fun hne => ?_, fun heq => ?_⟩
  · rcases hcases with hsame | ⟨-, hall⟩
    · exact absurd (hsame.trans hsecond.symm) hne
    · simp only [hsecond]
      refine ⟨fun i j hgrid => hcopying.prevPlate i j hgrid ?_, fun w i j hrow hj => ?_⟩
      · apply copied_of_part (h.fine none)
        by_cases ht : none = t
        · exact .inl (ht ▸ hpart)
        · exact .inr (by rw [hall none ht])
      · have hunwritten : ¬ (Function.update ps t q (some w)).Written i j := by
          apply not_written_of_part
          exact .inr (by rw [position_of_update hq hall])
        exact ⟨fun hwritten => absurd hwritten hunwritten,
          fun _ => hcopying.mainPlate i j (hrow.inGrid hj)⟩
  · simp only [hsecond]
    refine ⟨hcopying.mainPlate, fun i j hgrid hcopied => hcopying.prevPlate i j hgrid ?_⟩
    by_cases ht : none = t
    · exact copied_of_part (h.fine none) (.inl (ht ▸ hpart))
    · rwa [Function.update_of_ne ht] at hcopied

/-- A thread arrives at the second barrier: the last one ends the computation. -/
theorem Sweeping.arriveSecond (hdvd : n ∣ P.gridSize) (h : Sweeping P plate s ps)
    (hp : (ps t).position = ⟨r, .inner⟩)
    (hwritten : ∀ w i j, t = some w → (ps t).Written i j)
    (hq : q.position = ⟨r, .secondWait⟩) (hfine : Fine P plate t q) :
    Sweeping P plate { s with barrierSecond := s.barrierSecond.arrive (n + 1) }
      (Function.update ps t q) := by
  obtain ⟨hfirst, hsecond⟩ := h.rounds.inner hp
  obtain ⟨hrounds, hcases⟩ := h.rounds.arriveSecond hp
  rw [card_tid] at hrounds hcases
  have hcomputing := h.computing (by omega)
  rw [hsecond] at hcomputing
  have hpart : q.position.part = .secondWait := by rw [hq]
  refine ⟨by rwa [position_update, hq], h.fine_update hfine, fun hne => ?_, fun heq => ?_⟩
  · rcases hcases with hsame | ⟨hlast, -⟩
    · simp only [hsame]
      refine ⟨hcomputing.prevPlate, fun w i j hrow hj => ?_⟩
      have hvalue := hcomputing.mainPlate w i j hrow hj
      by_cases ht : some w = t
      · have hdone : (ps (some w)).Written i j := by
          rw [ht]
          exact hwritten w i j ht.symm
        have hdone' : (Function.update ps t q (some w)).Written i j := by
          rw [ht, Function.update_self]
          exact written_of_part (ht ▸ hfine) hpart
        exact ⟨fun _ => hvalue.1 hdone, fun hnot => absurd hdone' hnot⟩
      · rwa [Function.update_of_ne ht]
    · exact absurd (hfirst.trans hlast.symm) hne
  · rcases hcases with hsame | ⟨hlast, hall⟩
    · simp only [hfirst, hsame] at heq
      omega
    · simp only [hlast]
      refine ⟨fun i j hgrid => ?_, fun i j hgrid hcopied => ?_⟩
      · obtain ⟨w, hrow⟩ := exists_row hdvd hgrid.1 hgrid.2.1
        apply (hcomputing.mainPlate w i j hrow hgrid.2.2).1
        by_cases ht : some w = t
        · rw [ht]
          exact hwritten w i j ht.symm
        · exact written_of_part (h.fine _) (by rw [hall _ ht])
      · exact absurd hcopied (not_copied_of_part (by rw [position_of_update hq hall]))

end PthreadBenchmark.HotPlate
