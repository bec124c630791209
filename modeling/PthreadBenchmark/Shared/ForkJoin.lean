import PthreadBenchmark.Shared.Transition
import Mathlib.Data.Set.Basic
import Mathlib.Order.CompletePartialOrder
import Mathlib.Order.Disjoint
import Mathlib.Data.Set.Lattice
import Mathlib.Logic.Function.Basic

/-! # Fork and join over a shared memory

A thread is the tree of its accesses to a shared memory. It may start two children and
wait for both. Where children have disjoint footprints, every schedule ends in the memory
of the sequential run. -/

namespace PthreadBenchmark

/-- `fork l r k` has started the children `l` and `r` and goes on as `k` when both are
done. -/
inductive Thread (ι ν : Type*) where
  | done
  | read (i : ι) (k : ν → Thread ι ν)
  | write (i : ι) (v : ν) (k : Thread ι ν)
  | fork (l r k : Thread ι ν)

inductive Side where
  | left
  | right
  deriving DecidableEq, Repr

namespace Thread

variable {ι ν : Type*} [DecidableEq ι] {t t' l r k : Thread ι ν} {m m' : ι → ν}
  {S L R : Set ι} {p : List Side}

/-! ## Steps and sequential runs -/

/-- The thread at the end of the path makes one access, or joins its children. -/
def step : Thread ι ν → (ι → ν) → List Side → Option (Thread ι ν × (ι → ν))
  | read i k, m, [] => some (k (m i), m)
  | write i v k, m, [] => some (k, Function.update m i v)
  | fork done done k, m, [] => some (k, m)
  | fork l r k, m, .left :: p => (l.step m p).map fun s => (fork s.1 r k, s.2)
  | fork l r k, m, .right :: p => (r.step m p).map fun s => (fork l s.1 k, s.2)
  | _, _, _ => none

/-- The run that finishes the left child before the right one. -/
def run : Thread ι ν → (ι → ν) → (ι → ν)
  | done, m => m
  | read i k, m => (k (m i)).run m
  | write i v k, m => k.run (Function.update m i v)
  | fork l r k, m => k.run (r.run (l.run m))

/-- Every schedule of a thread, from a given memory. -/
def program (t : Thread ι ν) (m : ι → ν) : System (Thread ι ν × (ι → ν)) (List Side) where
  init := (t, m)
  step s p := s.1.step s.2 p

theorem step_fork_left :
    (fork l r k).step m (.left :: p) = (l.step m p).map fun s => (fork s.1 r k, s.2) := by
  simp only [step]

theorem step_fork_right :
    (fork l r k).step m (.right :: p) = (r.step m p).map fun s => (fork l s.1 k, s.2) := by
  simp only [step]

/-- A parent moves by itself only when both children are done. -/
theorem step_fork_nil {s : Thread ι ν × (ι → ν)} (h : (fork l r k).step m [] = some s) :
    l = done ∧ r = done ∧ s = (k, m) := by
  cases l <;> cases r <;> simp_all [step]

/-- What a step can do: an access, a join, or a step of a child. -/
inductive Steps : Thread ι ν → (ι → ν) → Thread ι ν → (ι → ν) → Prop
  | read (i : ι) (k : ν → Thread ι ν) (m : ι → ν) : Steps (.read i k) m (k (m i)) m
  | write (i : ι) (v : ν) (k : Thread ι ν) (m : ι → ν) :
      Steps (.write i v k) m k (Function.update m i v)
  | join (k : Thread ι ν) (m : ι → ν) : Steps (.fork .done .done k) m k m
  | left {l l' : Thread ι ν} {m m' : ι → ν} (r k : Thread ι ν) :
      Steps l m l' m' → Steps (.fork l r k) m (.fork l' r k) m'
  | right {r r' : Thread ι ν} {m m' : ι → ν} (l k : Thread ι ν) :
      Steps r m r' m' → Steps (.fork l r k) m (.fork l r' k) m'

theorem steps_of_step (hs : t.step m p = some (t', m')) : Steps t m t' m' := by
  induction t generalizing p m t' m' with
  | done => simp [Thread.step] at hs
  | read i k ih =>
      cases p with
      | nil =>
          obtain ⟨rfl, rfl⟩ : k (m i) = t' ∧ m = m' := by simpa [Thread.step] using hs
          exact .read i k m
      | cons side p => simp [Thread.step] at hs
  | write i v k ih =>
      cases p with
      | nil =>
          obtain ⟨rfl, rfl⟩ : k = t' ∧ Function.update m i v = m' := by
            simpa [Thread.step] using hs
          exact .write i v k m
      | cons side p => simp [Thread.step] at hs
  | fork l r k ihl ihr ihk =>
      cases p with
      | nil =>
          obtain ⟨rfl, rfl, heq⟩ := step_fork_nil hs
          obtain ⟨rfl, rfl⟩ := Prod.mk.inj heq
          exact .join t' m'
      | cons side p =>
          cases side with
          | left =>
              rw [step_fork_left, Option.map_eq_some_iff] at hs
              obtain ⟨⟨l', m₁⟩, hstep, heq⟩ := hs
              obtain ⟨rfl, rfl⟩ := Prod.mk.inj heq
              exact .left r k (ihl hstep)
          | right =>
              rw [step_fork_right, Option.map_eq_some_iff] at hs
              obtain ⟨⟨r', m₁⟩, hstep, heq⟩ := hs
              obtain ⟨rfl, rfl⟩ := Prod.mk.inj heq
              exact .right l k (ihr hstep)

theorem Steps.exists_step (hs : Steps t m t' m') : ∃ p, t.step m p = some (t', m') := by
  induction hs with
  | read i k m => exact ⟨[], rfl⟩
  | write i v k m => exact ⟨[], rfl⟩
  | join k m => exact ⟨[], rfl⟩
  | left r k _ ih =>
      obtain ⟨p, hp⟩ := ih
      exact ⟨.left :: p, by rw [step_fork_left, hp]; rfl⟩
  | right l k _ ih =>
      obtain ⟨p, hp⟩ := ih
      exact ⟨.right :: p, by rw [step_fork_right, hp]; rfl⟩

/-! ## Footprints -/

/-- The thread accesses only cells of `S`, and wherever it forks, its children stay in
disjoint parts of `S`. -/
def Within : Thread ι ν → Set ι → Prop
  | done, _ => True
  | read i k, S => i ∈ S ∧ ∀ v, (k v).Within S
  | write i _ k, S => i ∈ S ∧ k.Within S
  | fork l r k, S => ∃ L R, L ⊆ S ∧ R ⊆ S ∧ Disjoint L R ∧ l.Within L ∧ r.Within R ∧ k.Within S

/-- A run leaves the cells outside the footprint alone. -/
theorem Within.run_frame (h : t.Within S) {i : ι} (hi : i ∉ S) (m : ι → ν) :
    t.run m i = m i := by
  induction t generalizing m S with
  | done => rfl
  | read j k ih => exact ih _ (h.2 _) hi m
  | write j v k ih =>
      refine (ih h.2 hi _).trans (Function.update_of_ne ?_ _ _)
      intro heq
      subst heq
      exact hi h.1
  | fork l r k ihl ihr ihk =>
      obtain ⟨L, R, hL, hR, -, hl, hr, hk⟩ := h
      exact (ihk hk hi _).trans
        ((ihr hr (fun hmem => hi (hR hmem)) _).trans (ihl hl (fun hmem => hi (hL hmem)) _))

/-- A run depends on the cells of the footprint alone. -/
theorem Within.run_congr (h : t.Within S) {U : Set ι} (hU : S ⊆ U) (heq : ∀ i ∈ U, m i = m' i) :
    ∀ i ∈ U, t.run m i = t.run m' i := by
  induction t generalizing m m' S with
  | done => exact heq
  | read j k ih =>
      intro i hi
      simp only [run, heq j (hU h.1)]
      exact ih _ (h.2 _) hU heq i hi
  | write j v k ih =>
      refine ih h.2 hU fun i hi => ?_
      by_cases hj : i = j
      · rw [hj, Function.update_self, Function.update_self]
      · rw [Function.update_of_ne hj, Function.update_of_ne hj, heq i hi]
  | fork l r k ihl ihr ihk =>
      obtain ⟨L, R, hL, hR, -, hl, hr, hk⟩ := h
      exact ihk hk hU (ihr hr (hR.trans hU) (ihl hl (hL.trans hU) heq))

/-- Threads with disjoint footprints can be run in either order. -/
theorem Within.run_comm (hl : l.Within L) (hr : r.Within R) (hdisj : Disjoint L R) (m : ι → ν) :
    r.run (l.run m) = l.run (r.run m) := by
  funext i
  by_cases hi : i ∈ L
  · have hR : i ∉ R := fun hmem => Set.disjoint_left.mp hdisj hi hmem
    rw [hr.run_frame hR]
    refine hl.run_congr subset_rfl (fun j hj => ?_) i hi
    exact (hr.run_frame (fun hmem => Set.disjoint_left.mp hdisj hj hmem) m).symm
  · rw [hl.run_frame hi]
    by_cases hR : i ∈ R
    · refine hr.run_congr subset_rfl (fun j hj => ?_) i hR
      exact hl.run_frame (fun hmem => Set.disjoint_left.mp hdisj hmem hj) m
    · rw [hr.run_frame hR, hr.run_frame hR, hl.run_frame hi]

/-! ## Schedules -/

/-- One step of any thread of the tree stays in the footprint and leads to the same end. -/
theorem Within.steps (h : t.Within S) (hs : Steps t m t' m') :
    t'.Within S ∧ t'.run m' = t.run m := by
  induction hs generalizing S with
  | read i k m => exact ⟨h.2 _, rfl⟩
  | write i v k m => exact ⟨h.2, rfl⟩
  | join k m =>
      obtain ⟨L, R, hL, hR, hdisj, hl, hr, hk⟩ := h
      exact ⟨hk, rfl⟩
  | left r k hstep ih =>
      obtain ⟨L, R, hL, hR, hdisj, hl, hr, hk⟩ := h
      obtain ⟨hl', hrun⟩ := ih hl
      exact ⟨⟨L, R, hL, hR, hdisj, hl', hr, hk⟩, by simp only [Thread.run, hrun]⟩
  | right l k hstep ih =>
      obtain ⟨L, R, hL, hR, hdisj, hl, hr, hk⟩ := h
      obtain ⟨hr', hrun⟩ := ih hr
      refine ⟨⟨L, R, hL, hR, hdisj, hl, hr', hk⟩, ?_⟩
      simp only [Thread.run]
      rw [hl.run_comm hr' hdisj, hrun, ← hl.run_comm hr hdisj]

/-- Whatever the schedule, a program that has finished has computed its sequential run. -/
theorem Within.run_eq_of_reachable (h : t.Within S) {s : Thread ι ν × (ι → ν)}
    (hs : (program t m).Reachable s) (hdone : s.1 = done) : s.2 = t.run m := by
  have hinv : s.1.Within S ∧ s.1.run s.2 = t.run m := by
    refine hs.invariant (P := fun s => s.1.Within S ∧ s.1.run s.2 = t.run m) ⟨h, rfl⟩ ?_
    rintro s p s' ⟨hwithin, hrun⟩ hstep
    obtain ⟨hwithin', hrun'⟩ := hwithin.steps (steps_of_step hstep)
    exact ⟨hwithin', hrun'.trans hrun⟩
  rw [← hinv.2, hdone]
  rfl

/-- Only a finished program has no step. -/
theorem exists_step (h : t ≠ done) (m : ι → ν) : ∃ p s, t.step m p = some s := by
  induction t generalizing m with
  | done => exact absurd rfl h
  | read i k ih => exact ⟨[], _, rfl⟩
  | write i v k ih => exact ⟨[], _, rfl⟩
  | fork l r k ihl ihr ihk =>
      by_cases hl : l = done
      · by_cases hr : r = done
        · subst hl hr
          exact ⟨[], _, rfl⟩
        · obtain ⟨p, s, hs⟩ := ihr hr m
          exact ⟨.right :: p, _, by rw [step_fork_right, hs]; rfl⟩
      · obtain ⟨p, s, hs⟩ := ihl hl m
        exact ⟨.left :: p, _, by rw [step_fork_left, hs]; rfl⟩

/-! ## Termination -/

/-- `t'` is what is left of `t` after one step in some memory. -/
def Next (t' t : Thread ι ν) : Prop := ∃ m p m', t.step m p = some (t', m')

theorem next_iff : Next t' t ↔ ∃ m m', Steps t m t' m' := by
  constructor
  · rintro ⟨m, p, m', hs⟩
    exact ⟨m, m', steps_of_step hs⟩
  · rintro ⟨m, m', hs⟩
    obtain ⟨p, hp⟩ := hs.exists_step
    exact ⟨m, p, m', hp⟩

theorem acc_fork (hl : Acc Next l) (hr : Acc Next r) (hk : Acc Next k) :
    Acc Next (fork l r k) := by
  induction hl generalizing r with
  | intro l hl ihl =>
      induction hr with
      | intro r hr ihr =>
          apply Acc.intro _
          intro t' hnext
          obtain ⟨m, m', hs⟩ := next_iff.mp hnext
          cases hs with
          | join => exact hk
          | left _ _ hstep => exact ihl _ (next_iff.mpr ⟨m, m', hstep⟩) (Acc.intro r hr)
          | right _ _ hstep => exact ihr _ (next_iff.mpr ⟨m, m', hstep⟩)

/-- Every schedule is finite. -/
theorem acc_next (t : Thread ι ν) : Acc Next t := by
  induction t with
  | done =>
      apply Acc.intro _
      intro t' hnext
      obtain ⟨m, m', hs⟩ := next_iff.mp hnext
      cases hs
  | read i k ih =>
      apply Acc.intro _
      intro t' hnext
      obtain ⟨m, m', hs⟩ := next_iff.mp hnext
      cases hs
      exact ih _
  | write i v k ih =>
      apply Acc.intro _
      intro t' hnext
      obtain ⟨m, m', hs⟩ := next_iff.mp hnext
      cases hs
      exact ih
  | fork l r k ihl ihr ihk => exact acc_fork ihl ihr ihk

/-- From every reachable state the program can be scheduled to its end. -/
theorem exists_finished {s : Thread ι ν × (ι → ν)} (hs : (program t m).Reachable s) :
    ∃ s', (program t m).Reachable s' ∧ s'.1 = done := by
  obtain ⟨t₁, m₁⟩ := s
  induction acc_next t₁ generalizing m₁ with
  | intro t₁ _ ih =>
      by_cases hdone : t₁ = done
      · exact ⟨_, hs, hdone⟩
      · obtain ⟨p, ⟨t₂, m₂⟩, hstep⟩ := exists_step hdone m₁
        exact ih t₂ ⟨m₁, p, m₂, hstep⟩ m₂ (hs.step p hstep)

/-! ## Threads that share cells

Where children race for the same cells, a run still has in each cell the initial value or
one that a thread of the tree was going to write. -/

/-- The cell that the thread at the end of the path reads next. -/
def reading : Thread ι ν → List Side → Option ι
  | read i _, [] => some i
  | fork l _ _, .left :: p => l.reading p
  | fork _ r _, .right :: p => r.reading p
  | _, _ => none

/-- The thread reads only cells of `R` and writes only values of `A`, if what it reads is
the value of `m` or one of `A`. -/
def Publishes (m : ι → ν) (R : Set ι) (A : ι → ν → Prop) : Thread ι ν → Prop
  | done => True
  | read i k => i ∈ R ∧ ∀ v, v = m i ∨ A i v → (k v).Publishes m R A
  | write i v k => A i v ∧ k.Publishes m R A
  | fork l r k => l.Publishes m R A ∧ r.Publishes m R A ∧ k.Publishes m R A

/-- As long as the memory is `m` the thread cannot end without a write. -/
def Writes (m : ι → ν) : Thread ι ν → Prop
  | done => False
  | read i k => (k (m i)).Writes m
  | write _ _ _ => True
  | fork l r k => l.Writes m ∨ r.Writes m ∨ k.Writes m

variable {m₀ : ι → ν} {R : Set ι} {A : ι → ν → Prop}

omit [DecidableEq ι] in
theorem Publishes.reading_mem (h : t.Publishes m₀ R A) {i : ι} (hi : t.reading p = some i) :
    i ∈ R := by
  induction t generalizing p with
  | done => simp [reading] at hi
  | read j k ih =>
      cases p with
      | nil =>
          obtain rfl : j = i := by simpa [reading] using hi
          exact h.1
      | cons side p => simp [reading] at hi
  | write j v k ih => simp [reading] at hi
  | fork l r k ihl ihr ihk =>
      cases p with
      | nil => simp [reading] at hi
      | cons side p =>
          cases side with
          | left => exact ihl h.1 (by simpa [reading] using hi)
          | right => exact ihr h.2.1 (by simpa [reading] using hi)

/-- One step publishes a value, or it leaves the memory as it is and brings no thread past a
write that it cannot avoid. -/
theorem Publishes.steps (h : t.Publishes m₀ R A) (hm : ∀ i, m i = m₀ i ∨ A i (m i))
    (hs : Steps t m t' m') :
    t'.Publishes m₀ R A ∧
      (m' = m ∧ (t.Writes m → t'.Writes m) ∨ ∃ i v, A i v ∧ m' = Function.update m i v) := by
  induction hs with
  | read i k m => exact ⟨h.2 _ (hm i), .inl ⟨rfl, id⟩⟩
  | write i v k m => exact ⟨h.2, .inr ⟨i, v, h.1, rfl⟩⟩
  | join k m => exact ⟨h.2.2, .inl ⟨rfl, fun hw => (hw.resolve_left id).resolve_left id⟩⟩
  | left r k _ ih =>
      obtain ⟨hl, ⟨hm', hwrites⟩ | hpublished⟩ := ih h.1 hm
      · exact ⟨⟨hl, h.2⟩, .inl ⟨hm', fun hw => hw.imp hwrites id⟩⟩
      · exact ⟨⟨hl, h.2⟩, .inr hpublished⟩
  | right l k _ ih =>
      obtain ⟨hr, ⟨hm', hwrites⟩ | hpublished⟩ := ih h.2.1 hm
      · exact ⟨⟨h.1, hr, h.2.2⟩, .inl ⟨hm', fun hw => hw.imp id (Or.imp hwrites id)⟩⟩
      · exact ⟨⟨h.1, hr, h.2.2⟩, .inr hpublished⟩

/-- What holds of a program in every schedule: its memory has initial and published values
only, and as long as nothing is published a write that it cannot avoid is ahead. -/
structure Published (m₀ : ι → ν) (R : Set ι) (A : ι → ν → Prop) (t : Thread ι ν)
    (s : Thread ι ν × (ι → ν)) : Prop where
  publishes : s.1.Publishes m₀ R A
  cells : ∀ i, s.2 i = m₀ i ∨ A i (s.2 i)
  ahead : t.Writes m₀ → (∃ i, A i (s.2 i)) ∨ s.2 = m₀ ∧ s.1.Writes m₀

theorem Publishes.of_reachable (h : t.Publishes m₀ R A) {s : Thread ι ν × (ι → ν)}
    (hs : (program t m₀).Reachable s) : Published m₀ R A t s := by
  refine hs.invariant ⟨h, fun _ => .inl rfl, fun hw => .inr ⟨rfl, hw⟩⟩ ?_
  rintro ⟨u, m⟩ p ⟨u', m'⟩ hpub hstep
  obtain ⟨hpub', ⟨rfl, hwrites⟩ | ⟨i, v, hv, rfl⟩⟩ :=
    hpub.publishes.steps hpub.cells (steps_of_step hstep)
  · refine ⟨hpub', hpub.cells, fun hw => (hpub.ahead hw).imp id ?_⟩
    rintro ⟨rfl, hu⟩
    exact ⟨rfl, hwrites hu⟩
  · refine ⟨hpub', fun j => ?_, fun _ => .inl ⟨i, by simpa using hv⟩⟩
    by_cases hj : j = i
    · subst hj
      exact .inr (by simpa using hv)
    · simpa [hj] using hpub.cells j

omit [DecidableEq ι] in
/-- When a program is done that could not avoid a write, a value has been published. -/
theorem Published.exists_of_done {s : Thread ι ν × (ι → ν)} (h : Published m₀ R A t s)
    (hw : t.Writes m₀) (hdone : s.1 = done) : ∃ i, A i (s.2 i) := by
  rcases h.ahead hw with hA | ⟨-, hahead⟩
  · exact hA
  · rw [hdone] at hahead
    exact hahead.elim

end Thread

end PthreadBenchmark
