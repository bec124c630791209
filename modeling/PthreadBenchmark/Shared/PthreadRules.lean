import PthreadBenchmark.Shared.Pthread

/-! # Invariant rules for programs with mutexes and condition variables

Many invariants do not care whether a thread runs, sleeps or waits for its mutex, but only
at which point it will go on. For these a program is a family of threads that move from point to
point, and most operations are moves that leave the shared variables alone. -/

namespace PthreadBenchmark

namespace Op

variable {ι σ π μ κ : Type*}

/-- The point behind the operation. -/
def next? : Op ι σ π μ κ → Option π
  | .lock _ q | .unlock _ q | .wait _ _ q | .signal _ q | .broadcast _ q | .run _ q
  | .join _ q => some q
  | .halt => none

/-- The shared variables behind the operation. -/
def after (s : σ) : Op ι σ π μ κ → σ
  | .run s' _ => s'
  | _ => s

/-- The operation as one of a larger program: `f` puts the shared variables back into the larger
state. -/
def map {ι' σ' π' : Type*} (h : ι → ι') (f : σ → σ') (g : π → π') :
    Op ι σ π μ κ → Op ι' σ' π' μ κ
  | .lock m q => .lock m (g q)
  | .unlock m q => .unlock m (g q)
  | .wait c m q => .wait c m (g q)
  | .signal c q => .signal c (g q)
  | .broadcast c q => .broadcast c (g q)
  | .run s q => .run (f s) (g q)
  | .join j q => .join (h j) (g q)
  | .halt => .halt

section Map

variable {ι' σ' π' : Type*} {h : ι → ι'} {f : σ → σ'} {g : π → π'} {o : Op ι σ π μ κ}

theorem next?_map : (o.map h f g).next? = o.next?.map g := by
  cases o <;> rfl

theorem after_map {s : σ} {s' : σ'} (hs : f s = s') : (o.map h f g).after s' = f (o.after s) := by
  cases o <;> first | rfl | exact hs.symm

theorem exists_of_wait_map {c : κ} {m : μ} {q' : π'} (ho : o.map h f g = .wait c m q') :
    ∃ q, o = .wait c m q ∧ g q = q' := by
  cases o <;> cases ho
  exact ⟨_, rfl, rfl⟩

end Map

end Op

namespace Pthread

variable {ι σ π μ κ : Type*}

theorem isHalt_map {ι' σ' π' : Type*} {h : ι → ι'} {f : σ → σ'} {g : π → π'}
    {o : Op ι σ π μ κ} : isHalt (o.map h f g) = isHalt o := by
  cases o <;> rfl

theorem tracks_map {ι' σ' π' : Type*} {h : ι → ι'} {f : σ → σ'} {g : π → π'}
    {o : Op ι σ π μ κ} {inside : π → μ → Prop} {inside' : π' → μ → Prop} {p : π}
    (hinside : ∀ p m, inside' (g p) m ↔ inside p m) (ho : Tracks inside p o) :
    Tracks inside' (g p) (o.map h f g) := by
  cases o with
  | halt => trivial
  | wait c m q => exact ⟨(hinside p m).mpr ho.1, fun m' => by simpa [hinside] using ho.2 m'⟩
  | _ => exact fun m' => by simpa [hinside] using ho m'

/-- The point at which a thread goes on. -/
def point : Status π μ κ → π
  | .running p | .asleep _ _ p | .woken _ p => p

@[simp] theorem point_wake [DecidableEq κ] (cond : κ) (t : Status π μ κ) :
    point (wake cond t) = point t := by
  cases t with
  | running p => rfl
  | woken m p => rfl
  | asleep c m p =>
      simp only [wake]
      split <;> rfl

def points (c : Config ι σ π μ κ) : ι → π := fun i => point (c.threads i)

theorem points_of_running {c : Config ι σ π μ κ} {i : ι} {p : π} (h : c.threads i = .running p) :
    points c i = p := by
  simp only [points, h, point]

theorem points_of_asleep {c : Config ι σ π μ κ} {i : ι} {cond : κ} {m : μ} {q : π}
    (h : c.threads i = .asleep cond m q) : points c i = q := by
  simp only [points, h, point]

theorem running_of_halted {code : σ → π → Op ι σ π μ κ} {c : Config ι σ π μ κ} {s : σ} {i : ι}
    (h : Halted code s (c.threads i)) : c.threads i = .running (points c i) := by
  cases hi : c.threads i with
  | running p => rw [points_of_running hi]
  | asleep cond m q =>
      rw [hi] at h
      exact h.elim
  | woken m q =>
      rw [hi] at h
      exact h.elim

theorem isHalt_of_halted {code : σ → π → Op ι σ π μ κ} {c : Config ι σ π μ κ} {s : σ} {i : ι}
    (h : Halted code s (c.threads i)) : isHalt (code s (points c i)) = true := by
  rw [running_of_halted h] at h
  exact h

/-- A thread that sleeps or has just been woken came from a wait like this. -/
def Waits (W : κ → μ → π → Prop) : Status π μ κ → Prop
  | .running _ => True
  | .asleep cond m q => W cond m q
  | .woken m q => ∃ cond, W cond m q

theorem waits_wake [DecidableEq κ] {W : κ → μ → π → Prop} (cond : κ) {t : Status π μ κ}
    (h : Waits W t) : Waits W (wake cond t) := by
  cases t with
  | running p => exact h
  | woken m q => exact h
  | asleep c m q =>
      simp only [wake]
      split
      · exact ⟨c, h⟩
      · exact h

/-- A thread that is not behind a wait runs. -/
theorem Waits.running_or {c : Config ι σ π μ κ} {i : ι} {resting : π → Prop}
    (h : Waits (fun _ _ q => resting q) (c.threads i)) :
    c.threads i = .running (points c i) ∨ resting (points c i) := by
  cases hi : c.threads i with
  | running p => exact .inl (by rw [points_of_running hi])
  | asleep cond m q =>
      rw [hi] at h
      exact .inr (by rwa [points_of_asleep hi])
  | woken m q =>
      rw [hi] at h
      obtain ⟨-, hq⟩ := h
      exact .inr (by simpa only [points, hi, point] using hq)

theorem point_comp_update [DecidableEq ι] (threads : ι → Status π μ κ) (i : ι)
    (t : Status π μ κ) : (fun j => point (Function.update threads i t j)) =
      Function.update (fun j => point (threads j)) i (point t) :=
  Function.comp_update point threads i t

theorem points_update_same [DecidableEq ι] {c : Config ι σ π μ κ} {i : ι} {t : Status π μ κ}
    (h : point t = point (c.threads i)) :
    (fun j => point (Function.update c.threads i t j)) = points c := by
  rw [point_comp_update, h]
  exact Function.update_eq_self i _

section Rules

variable [DecidableEq ι] [DecidableEq μ] [DecidableEq κ] {code : σ → π → Op ι σ π μ κ}
  {c c' : Config ι σ π μ κ} {shared : σ} {start : ι → π}

/-- A step moves one thread past its operation, or leaves points and shared variables
alone. -/
theorem Move.project (h : Move code c c') :
    (points c' = points c ∧ c'.shared = c.shared) ∨
      ∃ i p q, c.threads i = .running p ∧ (code c.shared p).next? = some q ∧
        points c' = Function.update (points c) i q ∧
        c'.shared = (code c.shared p).after c.shared := by
  cases h with
  | @lock i p m next thread op =>
      exact .inr ⟨i, p, next, thread, by rw [op]; rfl, point_comp_update .., by rw [op]; rfl⟩
  | @unlock i p m next thread op =>
      exact .inr ⟨i, p, next, thread, by rw [op]; rfl, point_comp_update .., by rw [op]; rfl⟩
  | @wait i p cond m next thread op =>
      exact .inr ⟨i, p, next, thread, by rw [op]; rfl, point_comp_update .., by rw [op]; rfl⟩
  | @signalNone i p cond next thread op =>
      exact .inr ⟨i, p, next, thread, by rw [op]; rfl, point_comp_update .., by rw [op]; rfl⟩
  | @signal i j p cond m next q thread op sleeper =>
      refine .inr ⟨i, p, next, thread, by rw [op]; rfl, ?_, by rw [op]; rfl⟩
      apply (point_comp_update ..).trans
      rw [points_update_same (by rw [sleeper]; rfl)]
      rfl
  | @broadcast i p cond next thread op =>
      refine .inr ⟨i, p, next, thread, by rw [op]; rfl, ?_, by rw [op]; rfl⟩
      apply (point_comp_update ..).trans
      simp only [point_wake]
      rfl
  | @run i p s next thread op =>
      exact .inr ⟨i, p, next, thread, by rw [op]; rfl, point_comp_update .., by rw [op]; rfl⟩
  | @join i j p next thread op =>
      exact .inr ⟨i, p, next, thread, by rw [op]; rfl, point_comp_update .., by rw [op]; rfl⟩
  | @relock i m next thread =>
      exact .inl ⟨points_update_same (by rw [thread]; rfl), rfl⟩
  | @spurious i cond m next thread =>
      exact .inl ⟨points_update_same (by rw [thread]; rfl), rfl⟩

/-- The rule for properties of the shared variables and the points of all threads. -/
theorem points_invariant [Fintype ι] {P : σ → (ι → π) → Prop}
    (h : (program code shared start).Reachable c) (hinit : P shared start)
    (hstep : ∀ s ps i q, P s ps → (code s (ps i)).next? = some q →
      P ((code s (ps i)).after s) (Function.update ps i q)) :
    P c.shared (points c) := by
  apply h.invariant (P := fun c => P c.shared (points c)) hinit
  intro c a c' hP hs
  rcases (move_of_step hs).project with ⟨hpoints, hshared⟩ | ⟨i, p, q, hi, hq, hpoints, hshared⟩
  · rw [hpoints, hshared]
    exact hP
  · obtain rfl : points c i = p := points_of_running hi
    rw [hpoints, hshared]
    exact hstep _ _ i q hP hq

/-- The rule for what holds of the point of each thread on its own. -/
theorem fits_of_reachable [Fintype ι] {R : ι → π → Prop}
    (h : (program code shared start).Reachable c) (hinit : ∀ i, R i (start i))
    (hstep : ∀ s i p q, R i p → (code s p).next? = some q → R i q) (i : ι) :
    R i (points c i) := by
  refine points_invariant (P := fun _ ps => ∀ i, R i (ps i)) h hinit ?_ i
  intro s ps i q hfits hq
  apply (Function.forall_update_iff ps fun i p => R i p).mpr
  exact ⟨hstep s i _ q (hfits i) hq, fun j _ => hfits j⟩

/-- The accounting rule: what `A` counts and what `B` and the points count stay equal. -/
theorem balance_invariant [Fintype ι] {A B : σ → ℕ} {g : π → ℕ}
    (h : (program code shared start).Reachable c)
    (hinit : A shared = B shared + weight g start)
    (hstep : ∀ s p q, (code s p).next? = some q →
      A ((code s p).after s) + B s + g p = A s + B ((code s p).after s) + g q) :
    A c.shared = B c.shared + weight g (points c) := by
  apply points_invariant (P := fun s ps => A s = B s + weight g ps) h hinit
  intro s ps i q hbalance hq
  have hmove := hstep s (ps i) q hq
  have hweight := weight_update g ps i q
  omega

theorem waits_of_reachable [Fintype ι] {W : κ → μ → π → Prop}
    (hW : ∀ s p cond m q, code s p = .wait cond m q → W cond m q)
    (h : (program code shared start).Reachable c) (i : ι) : Waits W (c.threads i) := by
  have hinit : ∀ i, Waits W ((program code shared start).init.threads i) := fun _ => trivial
  refine h.invariant (P := fun c => ∀ i, Waits W (c.threads i)) hinit ?_ i
  intro c a c' hwaits hs
  have hupdate : ∀ {threads : ι → Status π μ κ} i t, (∀ j, Waits W (threads j)) → Waits W t →
      ∀ j, Waits W (Function.update threads i t j) := by
    intro threads i t hall ht
    exact (Function.forall_update_iff threads fun _ t => Waits W t).mpr ⟨ht, fun j _ => hall j⟩
  cases move_of_step hs with
  | wait thread op own => exact hupdate _ _ hwaits (hW _ _ _ _ _ op)
  | @signal i j p cond m next q thread op sleeper =>
      have hj := hwaits j
      rw [sleeper] at hj
      exact hupdate _ _ (hupdate _ _ hwaits ⟨cond, hj⟩) trivial
  | @spurious i cond m next thread =>
      have hi := hwaits i
      rw [thread] at hi
      exact hupdate _ _ hwaits ⟨cond, hi⟩
  | broadcast thread op => exact hupdate _ _ (fun j => waits_wake _ (hwaits j)) trivial
  | lock thread op free => exact hupdate _ _ hwaits trivial
  | unlock thread op own => exact hupdate _ _ hwaits trivial
  | signalNone thread op awake => exact hupdate _ _ hwaits trivial
  | run thread op => exact hupdate _ _ hwaits trivial
  | join thread op halted => exact hupdate _ _ hwaits trivial
  | relock thread free => exact hupdate _ _ hwaits trivial

omit [DecidableEq ι] [DecidableEq μ] [DecidableEq κ] in
/-- Without condition variables. -/
theorem not_wait [IsEmpty κ] (s : σ) (p : π) (cond : κ) (m : μ) (q : π) :
    code s p ≠ .wait cond m q :=
  isEmptyElim cond

theorem running_of_not_resting [Fintype ι] {resting : π → Prop}
    (hwait : ∀ s p cond m q, code s p = .wait cond m q → resting q)
    (h : (program code shared start).Reachable c) {i : ι} (hi : ¬ resting (points c i)) :
    c.threads i = .running (points c i) :=
  (waits_of_reachable (fun s p cond m q => hwait s p cond m q) h i).running_or.resolve_right hi

/-- A program that never waits has no sleepers. -/
theorem running_of_points [Fintype ι] (hwait : ∀ s p cond m q, code s p ≠ .wait cond m q)
    (h : (program code shared start).Reachable c) {i : ι} {p : π} (hp : points c i = p) :
    c.threads i = .running p := by
  rw [← hp]
  exact running_of_not_resting (fun s p cond m q hop => hwait s p cond m q hop) h id

/-- In a program that never waits the points tell who is inside of a mutex. -/
theorem inside_points_unique [Fintype ι] {inside : π → μ → Prop}
    (htracks : ∀ s p, Tracks inside p (code s p))
    (hwait : ∀ s p cond m q, code s p ≠ .wait cond m q)
    (hstart : ∀ i m, ¬ inside (start i) m) (h : (program code shared start).Reachable c)
    {i j : ι} {m : μ} (hi : inside (points c i) m) (hj : inside (points c j) m) : j = i := by
  have hholds : ∀ k, inside (points c k) m → Holds inside m (c.threads k) := by
    intro k hk
    rw [running_of_points hwait h (i := k) rfl]
    exact hk
  exact (owned_of_reachable htracks hstart h).unique (hholds j hj) (hholds i hi)

/-- The rule with mutual exclusion: in a program that never waits, no other thread is at a
point inside of a mutex that the moving thread is inside of. -/
theorem exclusive_invariant [Fintype ι] {inside : π → μ → Prop} {P : σ → (ι → π) → Prop}
    (htracks : ∀ s p, Tracks inside p (code s p))
    (hwait : ∀ s p cond m q, code s p ≠ .wait cond m q)
    (hstart : ∀ i m, ¬ inside (start i) m) (h : (program code shared start).Reachable c)
    (hinit : P shared start)
    (hstep : ∀ s ps i q, P s ps → (∀ j m, inside (ps i) m → inside (ps j) m → j = i) →
      (code s (ps i)).next? = some q →
      P ((code s (ps i)).after s) (Function.update ps i q)) :
    P c.shared (points c) := by
  induction h with
  | init => exact hinit
  | @step c c' a hc hs ih =>
      rcases (move_of_step hs).project with
        ⟨hpoints, hshared⟩ | ⟨i, p, q, hi, hq, hpoints, hshared⟩
      · rw [hpoints, hshared]
        exact ih
      · obtain rfl : points c i = p := points_of_running hi
        rw [hpoints, hshared]
        exact hstep _ _ i q ih
          (fun j m hi hj => inside_points_unique htracks hwait hstart hc hi hj) hq

/-- The rule of a monitor: where all accesses to what the mutex protects are made inside of it, the
threads can be treated one by one. `V s p` is what a thread at the point `p` knows of the shared
variables; at the points outside of the mutex it is what holds when the mutex is free. -/
theorem monitor_invariant [Fintype ι] {inside : π → μ → Prop} {m : μ} {F : σ → Prop}
    {V : σ → π → Prop} {R : ι → π → Prop} (htracks : ∀ s p, Tracks inside p (code s p))
    (hwait : ∀ s p cond m q, code s p ≠ .wait cond m q)
    (hstart : ∀ i m, ¬ inside (start i) m)
    (hfits : ∀ c, (program code shared start).Reachable c → ∀ i, R i (points c i))
    (hfree : ∀ s p, ¬ inside p m → (V s p ↔ F s)) (hinit : F shared)
    (hstep : ∀ s i p q, R i p → V s p → (code s p).next? = some q →
      V ((code s p).after s) q)
    (houtside : ∀ s p q, ¬ inside p m → ¬ inside q m → (code s p).next? = some q →
      ∀ r, V s r → V ((code s p).after s) r)
    (h : (program code shared start).Reachable c) :
    (c.owner m = none → F c.shared) ∧
      ∀ i, c.owner m = some i → V c.shared (points c i) := by
  have hall : (∀ i, inside (points c i) m → V c.shared (points c i)) ∧
      ((∀ i, ¬ inside (points c i) m) → F c.shared) := by
    induction h with
    | init => exact ⟨fun i hi => absurd hi (hstart i m), fun _ => hinit⟩
    | @step c c' a hc hs ih =>
        obtain ⟨hview, hnone⟩ := ih
        rcases (move_of_step hs).project with
          ⟨hpoints, hshared⟩ | ⟨i, p, q, hi, hq, hpoints, hshared⟩
        · rw [hpoints, hshared]
          exact ⟨hview, hnone⟩
        obtain rfl : points c i = p := points_of_running hi
        have hunique : ∀ j, inside (points c' i) m → inside (points c' j) m → j = i :=
          fun j hi hj => inside_points_unique htracks hwait hstart (hc.step a hs) hi hj
        rw [hpoints, hshared]
        rw [hpoints] at hunique
        simp only [Function.update_self] at hunique
        -- the moving thread knows what holds, unless another thread is inside
        have hmoved : (∀ j, j ≠ i → ¬ inside (points c j) m) →
            V ((code c.shared (points c i)).after c.shared) q := by
          intro hothers
          refine hstep _ i _ q (hfits c hc i) ?_ hq
          by_cases hin : inside (points c i) m
          · exact hview i hin
          · refine (hfree _ _ hin).mpr (hnone fun j => ?_)
            by_cases hj : j = i
            · exact hj ▸ hin
            · exact hothers j hj
        constructor
        · intro j hj
          by_cases hji : j = i
          · subst hji
            rw [Function.update_self] at hj ⊢
            refine hmoved fun k hk hin => hk (hunique k hj ?_)
            rwa [Function.update_of_ne hk]
          · rw [Function.update_of_ne hji] at hj ⊢
            have hin : ¬ inside (points c i) m := fun hin =>
              hji (inside_points_unique htracks hwait hstart hc hin hj)
            have hin' : ¬ inside q m := fun hin' =>
              hji (hunique j hin' (by rwa [Function.update_of_ne hji]))
            exact houtside _ _ q hin hin' hq _ (hview j hj)
        · intro hout
          have hq' : ¬ inside q m := by simpa using hout i
          refine (hfree _ _ hq').mp (hmoved fun j hj => ?_)
          simpa [hj] using hout j
  have howned := owned_of_reachable htracks hstart h
  have hinside : ∀ i, c.owner m = some i ↔ inside (points c i) m := by
    intro i
    rw [howned.owner, running_of_points hwait h (i := i) rfl]
    exact Iff.rfl
  refine ⟨fun hnone => hall.2 fun i hi => ?_, fun i hi => hall.1 i ((hinside i).mp hi)⟩
  rw [← hinside, hnone] at hi
  cases hi

end Rules

/-! ## No lost wakeup -/

/-- A thread that is awake weighs what its point weighs. -/
def credit (g : π → ℕ) : Status π μ κ → ℕ
  | .running p | .woken _ p => g p
  | .asleep _ _ _ => 0

/-- What an operation must do so that sleepers on `cond` never miss the work that `need`
counts: new work comes with credit, a signal hands its credit on to a sleeper, and a
thread sleeps only when there is no work. Credit is what `g` gives to points that are still
to signal or to test for work. -/
def Pays [DecidableEq κ] (cond : κ) (need : σ → ℕ) (g : π → ℕ) (s : σ) (p : π) :
    Op ι σ π μ κ → Prop
  | .lock _ q | .unlock _ q | .join _ q => g p ≤ g q
  | .run s' q => need s' + g p ≤ need s + g q
  | .signal c q => g p ≤ g q + if c = cond then 1 else 0
  | .broadcast c q => c = cond ∨ g p ≤ g q
  | .wait c _ q => if c = cond then need s = 0 ∧ 1 ≤ g q else g p = 0
  | .halt => True

/-- The invariant of the rule: a sleeper will have credit when woken, and while there is a
sleeper, the credit covers the work. -/
structure Covered [Fintype ι] (cond : κ) (need : σ → ℕ) (g : π → ℕ) (s : σ)
    (threads : ι → Status π μ κ) : Prop where
  sleeper : ∀ {i m q}, threads i = .asleep cond m q → 1 ≤ g q
  need_le : ∀ {i}, AsleepOn cond (threads i) → need s ≤ weight (credit g) threads

variable {cond : κ} {need : σ → ℕ} {g : π → ℕ} {s : σ} {threads : ι → Status π μ κ}
  {t : Status π μ κ} {i : ι}

theorem not_asleepOn_wake [DecidableEq κ] (c : κ) (t : Status π μ κ) :
    ¬ AsleepOn c (wake c t) := by
  cases t with
  | running p => exact id
  | woken m p => exact id
  | asleep c' m p =>
      simp only [wake]
      split
      · exact id
      · assumption

theorem asleep_of_wake [DecidableEq κ] {c : κ} {m : μ} {q : π}
    (h : wake c t = .asleep cond m q) : t = .asleep cond m q := by
  cases t with
  | running p => exact h
  | woken m' p => exact h
  | asleep c' m' p =>
      simp only [wake] at h
      split at h
      · cases h
      · exact h

theorem exists_asleep (h : AsleepOn cond t) : ∃ m q, t = .asleep cond m q := by
  cases t with
  | running p => exact absurd h id
  | woken m p => exact absurd h id
  | asleep c m p =>
      obtain rfl : c = cond := h
      exact ⟨m, p, rfl⟩

theorem credit_le_point (g : π → ℕ) (t : Status π μ κ) : credit g t ≤ g (point t) := by
  cases t with
  | running p => exact le_rfl
  | woken m p => exact le_rfl
  | asleep c m p => exact Nat.zero_le _

theorem credit_le_credit_wake [DecidableEq κ] (c : κ) (t : Status π μ κ) :
    credit g t ≤ credit g (wake c t) := by
  cases t with
  | running p => exact le_rfl
  | woken m p => exact le_rfl
  | asleep c' m p => exact Nat.zero_le _

theorem asleepOn_of_update [DecidableEq ι] {j : ι} (ht : ¬ AsleepOn cond t)
    (hj : AsleepOn cond (Function.update threads i t j)) : AsleepOn cond (threads j) := by
  by_cases hij : j = i
  · subst j
    rw [Function.update_self] at hj
    exact absurd hj ht
  · rwa [Function.update_of_ne hij] at hj

/-- A step of one thread that does not end asleep keeps the cover if it pays for the work
it brings. -/
theorem Covered.update [Fintype ι] [DecidableEq ι] (h : Covered cond need g s threads) {s' : σ}
    (ht : ¬ AsleepOn cond t)
    (hpay : need s' + credit g (threads i) ≤ need s + credit g t) :
    Covered cond need g s' (Function.update threads i t) := by
  have hweight := weight_update (credit g) threads i t
  refine ⟨fun {j m q} hj => ?_, fun {j} hj => ?_⟩
  · have hij : j ≠ i := by
      intro heq
      subst heq
      rw [Function.update_self] at hj
      exact ht (hj ▸ rfl)
    rw [Function.update_of_ne hij] at hj
    exact h.sleeper hj
  · have hneed := h.need_le (asleepOn_of_update ht hj)
    omega

/-- Without sleepers there is nothing to cover. -/
theorem covered_of_awake [Fintype ι] (h : ∀ i, ¬ AsleepOn cond (threads i)) :
    Covered cond need g s threads := by
  refine ⟨fun {i m q} hi => absurd ?_ (h i), fun {i} hi => absurd hi (h i)⟩
  rw [hi]
  rfl

/-- A signal hands the credit of its sender on to the sleeper that it wakes. -/
theorem Covered.signal [Fintype ι] [DecidableEq ι] [DecidableEq κ]
    (h : Covered cond need g s threads) {i j : ι} {p q next : π} {c : κ} {m : μ}
    (hi : threads i = .running p) (hj : threads j = .asleep c m q)
    (hcredit : g p ≤ g next + if c = cond then 1 else 0) :
    Covered cond need g s
      (Function.update (Function.update threads j (.woken m q)) i (.running next)) := by
  have hne : i ≠ j := by
    intro heq
    subst heq
    rw [hi] at hj
    cases hj
  by_cases hc : c = cond
  · subst hc
    have hq := h.sleeper hj
    have hneed := h.need_le (i := j) (by rw [hj]; rfl)
    have hwake := weight_update (credit g) threads j (.woken m q)
    have hmove := weight_update (credit g) (Function.update threads j (.woken m q)) i
      (.running next)
    rw [Function.update_of_ne hne] at hmove
    simp only [hi, hj, credit, if_true] at hwake hmove hcredit
    refine ⟨fun {k m' q'} hk => ?_, fun _ => by omega⟩
    have hki : k ≠ i := by
      intro heq
      subst heq
      rw [Function.update_self] at hk
      cases hk
    have hkj : k ≠ j := by
      intro heq
      subst heq
      rw [Function.update_of_ne hki, Function.update_self] at hk
      cases hk
    rw [Function.update_of_ne hki, Function.update_of_ne hkj] at hk
    exact h.sleeper hk
  · rw [if_neg hc] at hcredit
    have hwoken : Covered cond need g s (Function.update threads j (.woken m q)) :=
      h.update id (by simp [hj, credit])
    apply hwoken.update id
    simpa [Function.update_of_ne hne, hi, credit] using hcredit

/-- Waking sleepers only adds credit. -/
theorem Covered.wakeAll [Fintype ι] [DecidableEq κ] (h : Covered cond need g s threads) (c : κ) :
    Covered cond need g s fun i => wake c (threads i) := by
  refine ⟨fun hi => h.sleeper (asleep_of_wake hi), fun hi => ?_⟩
  obtain ⟨m, q, hasleep⟩ := exists_asleep hi
  apply (h.need_le (by rw [asleep_of_wake hasleep]; rfl)).trans
  exact Finset.sum_le_sum fun j _ => credit_le_credit_wake c (threads j)

variable [Fintype ι] [DecidableEq ι] [DecidableEq μ] [DecidableEq κ]
  {code : σ → π → Op ι σ π μ κ} {c c' : Config ι σ π μ κ}

theorem Covered.of_move
    (hs : ∀ i p, c.threads i = .running p → Pays cond need g c.shared p (code c.shared p))
    (h : Covered cond need g c.shared c.threads) (hmove : Move code c c') :
    Covered cond need g c'.shared c'.threads := by
  have hpays : ∀ {i p o}, c.threads i = .running p → code c.shared p = o →
      Pays cond need g c.shared p o := fun thread op => op ▸ hs _ _ thread
  cases hmove with
  | relock thread free => exact h.update id (by simp [thread, credit])
  | spurious thread => exact h.update id (by simp [thread, credit])
  | @lock i p m next thread op free =>
      have hpay := hpays thread op
      exact h.update id (by simpa [thread, credit, Pays] using hpay)
  | @unlock i p m next thread op own =>
      have hpay := hpays thread op
      exact h.update id (by simpa [thread, credit, Pays] using hpay)
  | @join i j p next thread op halted =>
      have hpay := hpays thread op
      exact h.update id (by simpa [thread, credit, Pays] using hpay)
  | @run i p s next thread op =>
      have hpay := hpays thread op
      exact h.update id (by simpa [thread, credit, Pays] using hpay)
  | @signal i j p c' m next q thread op sleeper =>
      have hpay := hpays thread op
      exact h.signal thread sleeper hpay
  | @wait i p c' m next thread op own =>
      have hpay := hpays thread op
      by_cases hcond : c' = cond
      · subst hcond
        obtain ⟨hzero, hnext⟩ := (if_pos rfl).mp hpay
        refine ⟨fun {j m' q} hj => ?_, fun _ => by simp [hzero]⟩
        by_cases hij : j = i
        · subst j
          simp only [Function.update_self, Status.asleep.injEq] at hj
          exact hj.2.2 ▸ hnext
        · exact h.sleeper (by simpa [Function.update_of_ne hij] using hj)
      · exact h.update (fun hsleep => hcond hsleep)
          (by simp [thread, credit, (if_neg hcond).mp hpay])
  | @signalNone i p c' next thread op awake =>
      have hpay := hpays thread op
      by_cases hcond : c' = cond
      · subst hcond
        exact covered_of_awake fun j hj => awake j (asleepOn_of_update id hj)
      · simp only [Pays, if_neg hcond] at hpay
        exact h.update id (by simpa [thread, credit, Pays] using hpay)
  | @broadcast i p c' next thread op =>
      have hpay := hpays thread op
      rcases hpay with rfl | hpay
      · refine covered_of_awake fun j hj => ?_
        simp only at hj
        have hwoken := asleepOn_of_update id hj
        exact not_asleepOn_wake c' (c.threads j) hwoken
      · apply (h.wakeAll c').update id
        simpa [thread, wake, credit] using hpay

/-- The rule for operations that pay in every reachable state. -/
theorem covered_of_pays {shared : σ} {start : ι → π}
    (hs : ∀ c, (program code shared start).Reachable c → ∀ i p, c.threads i = .running p →
      Pays cond need g c.shared p (code c.shared p))
    (h : (program code shared start).Reachable c) : Covered cond need g c.shared c.threads := by
  induction h with
  | init => exact covered_of_awake fun _ => id
  | step a hc hstep ih => exact ih.of_move (hs _ hc) (move_of_step hstep)

theorem covered_of_reachable (hs : ∀ s p, Pays cond need g s p (code s p)) {shared : σ}
    {start : ι → π} (h : (program code shared start).Reachable c) :
    Covered cond need g c.shared c.threads :=
  covered_of_pays (fun c _ _ p _ => hs c.shared p) h

end Pthread

end PthreadBenchmark
