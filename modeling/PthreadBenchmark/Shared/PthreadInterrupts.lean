import PthreadBenchmark.Shared.PthreadProgress

/-! # Threads that are interrupted by handlers

A signal interrupts a thread wherever it is: the handler runs on the stack of the thread, which goes
on when the handler has returned, and may be interrupted itself. A mutex belongs to the thread,
whether the thread or one of its handlers has locked it. A handler locks and unlocks, changes shared
variables and wakes sleepers, but it does not wait. -/

namespace PthreadBenchmark

/-- The threads, and for each the points of the handlers that run on it, the last one first. -/
structure Interrupted (ι σ π μ κ : Type*) where
  base : Config ι σ π μ κ
  frames : ι → List π

namespace Pthread

variable {ι σ π μ κ : Type*}

/-! ## Taking and giving back -/

variable [DecidableEq ι] [DecidableEq μ]

/-- The thread `i` takes a mutex, gives one back, or keeps those that it has. `H` says which ones it
holds. -/
inductive Change (i : ι) (o : μ → Option ι) (H : μ → Prop) :
    (μ → Option ι) → (μ → Prop) → Prop where
  | keep {H' : μ → Prop} (holds : ∀ m, H' m ↔ H m) : Change i o H o H'
  | take {H' : μ → Prop} {m : μ} (free : o m = none) (holds : ∀ m', H' m' ↔ m' = m ∨ H m') :
      Change i o H (Function.update o m (some i)) H'
  | release {H' : μ → Prop} {m : μ} (own : o m = some i) (holds : ∀ m', H' m' ↔ m' ≠ m ∧ H m') :
      Change i o H (Function.update o m none) H'

variable {o o' : μ → Option ι} {K : ι → μ → Prop} {H' : μ → Prop} {i j : ι} {m : μ}

/-- The owners stay those who hold a mutex. -/
theorem Change.owner (h : Change i o (K i) o' H') (howner : ∀ j m, o m = some j ↔ K j m) (j : ι)
    (m : μ) : o' m = some j ↔ if j = i then H' m else K j m := by
  cases h with
  | keep holds =>
      split
      · next hj => rw [hj, howner, holds]
      · exact howner j m
  | @take _ n free holds =>
      by_cases hm : m = n
      · subst hm
        have hnone : ¬ K j m := by
          rw [← howner, free]
          simp
        by_cases hj : j = i
        · simp [hj, holds]
        · simpa [hj, hnone] using Ne.symm hj
      · rw [Function.update_of_ne hm, howner]
        by_cases hj : j = i
        · simp [hj, holds, hm]
        · simp [hj]
  | @release _ n own holds =>
      by_cases hm : m = n
      · subst hm
        by_cases hj : j = i
        · simp [hj, holds]
        · have hnone : ¬ K j m := by
            rw [← howner, own]
            simpa using Ne.symm hj
          simp [hj, hnone]
      · rw [Function.update_of_ne hm, howner]
        by_cases hj : j = i
        · simp [hj, holds, hm]
        · simp [hj]

/-! ## Steps of a thread -/

variable {code : σ → π → Op ι σ π μ κ} {inside : π → μ → Prop} {b b' : Config ι σ π μ κ} {s : σ}
  {p : π} {t : Status π μ κ} {threads : ι → Status π μ κ} {w : Option ι}

/-- What another thread holds does not change when a thread moves. -/
def Unmoved (inside : π → μ → Prop) (t t' : Status π μ κ) : Prop :=
  (∀ m, Holds inside m t' ↔ Holds inside m t) ∧ (Returns inside t → Returns inside t')

omit [DecidableEq μ] in
theorem unmoved_refl (t : Status π μ κ) : Unmoved inside t t := ⟨fun _ => Iff.rfl, id⟩

omit [DecidableEq μ] in
theorem unmoved_wake [DecidableEq κ] (cond : κ) (t : Status π μ κ) :
    Unmoved inside t (wake cond t) :=
  ⟨holds_wake cond t, (returns_wake cond t).mpr⟩

/-- A step of the thread `i`, as far as the mutexes are concerned. -/
structure Moved (inside : π → μ → Prop) (i : ι) (b b' : Config ι σ π μ κ) : Prop where
  change : Change i b.owner (fun m => Holds inside m (b.threads i)) b'.owner
    fun m => Holds inside m (b'.threads i)
  returns : Returns inside (b'.threads i)
  others : ∀ j, j ≠ i → Unmoved inside (b.threads j) (b'.threads j)

theorem Moved.of_update
    (hchange : Change i b.owner (fun m => Holds inside m (b.threads i)) o' fun m =>
      Holds inside m t)
    (hreturns : Returns inside t)
    (hothers : ∀ j, j ≠ i → Unmoved inside (b.threads j) (threads j)) :
    Moved inside i b ⟨o', s, Function.update threads i t⟩ where
  change := by simpa only [Function.update_self] using hchange
  returns := by simpa only [Function.update_self] using hreturns
  others j hj := by simpa only [Function.update_of_ne hj] using hothers j hj

theorem moved_of_run [DecidableEq κ] [Fintype ι] (htracks : ∀ s p, Tracks inside p (code s p))
    (hreturns : Returns inside (b.threads i)) (h : step code b (.run i w) = some b') :
    Moved inside i b b' := by
  have hsame : ∀ j, j ≠ i → Unmoved inside (b.threads j) (b.threads j) :=
    fun j _ => unmoved_refl _
  cases hi : b.threads i with
  | asleep cond m q => simp [step, hi] at h
  | woken m q =>
      rw [hi] at hreturns
      simp only [step, hi, exec, Option.ite_none_right_eq_some] at h
      obtain ⟨hfree, h⟩ := h
      cases h
      refine .of_update (.take hfree fun m' => ?_) trivial hsame
      have hq : inside q m := hreturns
      by_cases hm : m' = m
      · subst hm
        simp [Holds, hq]
      · simp [hi, Holds, hm]
  | running p =>
      have htrack := htracks b.shared p
      simp only [step, hi] at h
      cases hop : code b.shared p <;> simp only [hop, exec] at h <;> rw [hop] at htrack
      case lock m q =>
        rw [Option.ite_none_right_eq_some] at h
        obtain ⟨hfree, h⟩ := h
        cases h
        exact .of_update (.take hfree fun m' => by simpa [hi, Holds] using htrack m') trivial hsame
      case unlock m q =>
        rw [Option.ite_none_right_eq_some] at h
        obtain ⟨hown, h⟩ := h
        cases h
        exact .of_update (.release hown fun m' => by simpa [hi, Holds] using htrack m') trivial
          hsame
      case wait cond m q =>
        rw [Option.ite_none_right_eq_some] at h
        obtain ⟨hown, h⟩ := h
        cases h
        refine .of_update (.release hown fun m' => ?_) ((htrack.2 m).mpr htrack.1) hsame
        simp only [hi, Holds, htrack.2]
      case signal cond q =>
        have hkeep : ∀ m', Holds inside m' (.running q : Status π μ κ) ↔
            Holds inside m' (b.threads i) := fun m' => by simpa [hi, Holds] using htrack m'
        cases w with
        | none =>
            simp only at h
            split at h
            · cases h
            · cases h
              exact .of_update (.keep hkeep) trivial hsame
        | some j =>
            simp only at h
            split at h
            · cases h
              refine .of_update (.keep hkeep) trivial fun k _ => ?_
              by_cases hk : k = j
              · subst hk
                rw [Function.update_self]
                exact unmoved_wake cond _
              · rw [Function.update_of_ne hk]
                exact unmoved_refl _
            · cases h
      case broadcast cond q =>
        cases h
        exact .of_update (.keep fun m' => by simpa [hi, Holds] using htrack m') trivial
          fun j _ => unmoved_wake cond _
      case run s q =>
        cases h
        exact .of_update (.keep fun m' => by simpa [hi, Holds] using htrack m') trivial hsame
      case join j q =>
        rw [Option.ite_none_right_eq_some] at h
        obtain ⟨-, h⟩ := h
        cases h
        exact .of_update (.keep fun m' => by simpa [hi, Holds] using htrack m') trivial hsame
      case halt => cases h

/-! ## Steps of a program with handlers -/

/-- The thread goes on when no handler runs on it. -/
def stepThread [DecidableEq κ] [Fintype ι] (code : σ → π → Op ι σ π μ κ)
    (c : Interrupted ι σ π μ κ) (i : ι) (w : Option ι) : Option (Interrupted ι σ π μ κ) :=
  if c.frames i = [] then (step code c.base (.run i w)).map fun b => { c with base := b } else none

/-- A sleeper wakes up without a signal. -/
def stepSpurious [DecidableEq κ] [Fintype ι] (code : σ → π → Op ι σ π μ κ)
    (c : Interrupted ι σ π μ κ) (i : ι) : Option (Interrupted ι σ π μ κ) :=
  (step code c.base (.spurious i)).map fun b => { c with base := b }

/-- The next operation of the last handler on the thread `i`. -/
def execHandler [DecidableEq κ] (c : Interrupted ι σ π μ κ) (i : ι) (rest : List π) :
    Op ι σ π μ κ → Option (Interrupted ι σ π μ κ)
  | .lock m q =>
    if c.base.owner m = none then
      some ⟨{ c.base with owner := Function.update c.base.owner m (some i) },
        Function.update c.frames i (q :: rest)⟩
    else none
  | .unlock m q =>
    if c.base.owner m = some i then
      some ⟨{ c.base with owner := Function.update c.base.owner m none },
        Function.update c.frames i (q :: rest)⟩
    else none
  | .broadcast cond q =>
    some ⟨{ c.base with threads := fun j => wake cond (c.base.threads j) },
      Function.update c.frames i (q :: rest)⟩
  | .run s q => some ⟨{ c.base with shared := s }, Function.update c.frames i (q :: rest)⟩
  | .halt => some ⟨c.base, Function.update c.frames i rest⟩
  | _ => none

def stepHandler [DecidableEq κ] (code : σ → π → Op ι σ π μ κ) (c : Interrupted ι σ π μ κ)
    (i : ι) : Option (Interrupted ι σ π μ κ) :=
  match c.frames i with
  | [] => none
  | p :: rest => execHandler c i rest (code c.base.shared p)

/-- A handler starts at `p` on the stack of the thread `i`. -/
def interrupt (c : Interrupted ι σ π μ κ) (i : ι) (p : π) : Interrupted ι σ π μ κ :=
  { c with frames := Function.update c.frames i (p :: c.frames i) }

/-! ## Self-deadlock -/

/-- A handler wants a mutex of the thread that it has interrupted. -/
def SelfDeadlock (code : σ → π → Op ι σ π μ κ) (c : Interrupted ι σ π μ κ) : Prop :=
  ∃ i p rest m q, c.frames i = p :: rest ∧ code c.base.shared p = .lock m q ∧
    c.base.owner m = some i

variable {c c' : Interrupted ι σ π μ κ}

/-- What a thread and its handlers hold, if only the last of them holds something. -/
def Holding (inside : π → μ → Prop) (c : Interrupted ι σ π μ κ) (i : ι) (m : μ) : Prop :=
  match c.frames i with
  | [] => Holds inside m (c.base.threads i)
  | p :: _ => inside p m

/-- A mutex is owned where the last handler, or the thread without one, is inside of it, and what
has been interrupted holds nothing. -/
structure Guarded (inside : π → μ → Prop) (c : Interrupted ι σ π μ κ) : Prop where
  owner : ∀ i m, c.base.owner m = some i ↔ Holding inside c i m
  returns : ∀ i, Returns inside (c.base.threads i)
  thread : ∀ i, c.frames i ≠ [] → ∀ m, ¬ Holds inside m (c.base.threads i)
  handlers : ∀ i p rest, c.frames i = p :: rest → ∀ q ∈ rest, ∀ m, ¬ inside q m

omit [DecidableEq ι] [DecidableEq μ] in
theorem Guarded.not_selfDeadlock (h : Guarded inside c)
    (hlock : ∀ i, ∀ p ∈ c.frames i, ∀ s m q, code s p = .lock m q → ¬ inside p m) :
    ¬ SelfDeadlock code c := by
  rintro ⟨i, p, rest, m, q, hframes, hop, howner⟩
  have hin := (h.owner i m).mp howner
  rw [Holding, hframes] at hin
  exact hlock i p (by simp [hframes]) _ m q hop hin

theorem Guarded.stepThread [DecidableEq κ] [Fintype ι]
    (htracks : ∀ s p, Tracks inside p (code s p)) (h : Guarded inside c)
    (hs : stepThread code c i w = some c') : Guarded inside c' := by
  simp only [Pthread.stepThread, Option.ite_none_right_eq_some, Option.map_eq_some_iff] at hs
  obtain ⟨hframes, b', hb, rfl⟩ := hs
  have hmoved := moved_of_run htracks (h.returns i) hb
  have hholding : (fun m => Holds inside m (c.base.threads i)) = Holding inside c i := by
    funext m
    rw [Holding, hframes]
  have hchange := hmoved.change
  rw [hholding] at hchange
  refine ⟨fun j m => ?_, fun j => ?_, fun j hj => ?_, h.handlers⟩
  · rw [hchange.owner h.owner j m]
    by_cases hj : j = i
    · subst hj
      rw [if_pos rfl, Holding, hframes]
    · rw [if_neg hj, Holding, Holding]
      cases c.frames j with
      | nil => exact ((hmoved.others j hj).1 m).symm
      | cons p rest => exact Iff.rfl
  · by_cases hj : j = i
    · exact hj ▸ hmoved.returns
    · exact (hmoved.others j hj).2 (h.returns j)
  · have hne : j ≠ i := by
      rintro rfl
      exact hj hframes
    intro m
    rw [(hmoved.others j hne).1 m]
    exact h.thread j hj m

/-- A sleeper still holds nothing of what it has given back when it has woken up. -/
theorem Guarded.stepSpurious [DecidableEq κ] [Fintype ι] (h : Guarded inside c)
    (hs : stepSpurious code c i = some c') : Guarded inside c' := by
  simp only [Pthread.stepSpurious, Option.map_eq_some_iff] at hs
  obtain ⟨b', hb, rfl⟩ := hs
  cases hi : c.base.threads i <;> simp only [step, hi, Option.some.injEq, reduceCtorEq] at hb
  case asleep cond n q =>
    subst hb
    have hunmoved : ∀ j, Unmoved inside (c.base.threads j)
        (Function.update c.base.threads i (.woken n q) j) := by
      intro j
      by_cases hj : j = i
      · subst hj
        rw [Function.update_self, hi]
        exact unmoved_refl (.woken n q)
      · rw [Function.update_of_ne hj]
        exact unmoved_refl _
    refine ⟨fun j m => ?_, fun j => (hunmoved j).2 (h.returns j), fun j hj m => ?_, h.handlers⟩
    · rw [h.owner j m, Holding, Holding]
      cases c.frames j with
      | nil => exact ((hunmoved j).1 m).symm
      | cons p rest => exact Iff.rfl
    · rw [(hunmoved j).1 m]
      exact h.thread j hj m

omit [DecidableEq μ] in
theorem Guarded.interrupt (h : Guarded inside c) (hfree : ∀ m, c.base.owner m ≠ some i)
    (hp : ∀ m, ¬ inside p m) : Guarded inside (interrupt c i p) := by
  have hnone : ∀ m, ¬ Holding inside c i m := fun m hm => hfree m ((h.owner i m).mpr hm)
  have hself : (Pthread.interrupt c i p).frames i = p :: c.frames i := Function.update_self ..
  have hother : ∀ j, j ≠ i → (Pthread.interrupt c i p).frames j = c.frames j :=
    fun j hj => Function.update_of_ne hj ..
  refine ⟨fun j m => ?_, h.returns, fun j hj m => ?_, fun j q rest hj r hr m => ?_⟩
  · by_cases hj : j = i
    · subst hj
      rw [Holding, hself]
      exact iff_of_false (hfree m) (hp m)
    · rw [Holding, hother j hj]
      exact h.owner j m
  · by_cases hji : j = i
    · subst hji
      cases hframes : c.frames j with
      | nil =>
          have hholding := hnone m
          rwa [Holding, hframes] at hholding
      | cons q rest => exact h.thread j (by simp [hframes]) m
    · rw [hother j hji] at hj
      exact h.thread j hj m
  · by_cases hji : j = i
    · subst hji
      rw [hself] at hj
      cases hj
      cases hframes : c.frames j with
      | nil => simp [hframes] at hr
      | cons top below =>
          rw [hframes] at hr
          rcases List.mem_cons.mp hr with rfl | hr
          · have hholding := hnone m
            rwa [Holding, hframes] at hholding
          · exact h.handlers j top below hframes r hr m
    · rw [hother j hji] at hj
      exact h.handlers j q rest hj r hr m

/-- The last handler goes on, and wakes sleepers at most. -/
theorem Guarded.move (h : Guarded inside c) {q : π} {rest : List π}
    (hframes : c.frames i = p :: rest)
    (hchange : Change i c.base.owner (fun m => inside p m) o' fun m => inside q m)
    (hthreads : ∀ j, Unmoved inside (c.base.threads j) (threads j)) :
    Guarded inside ⟨⟨o', s, threads⟩, Function.update c.frames i (q :: rest)⟩ := by
  have hholding : (fun m => inside p m) = Holding inside c i := by
    funext m
    rw [Holding, hframes]
  rw [hholding] at hchange
  refine ⟨fun j m => ?_, fun j => (hthreads j).2 (h.returns j), fun j hj m => ?_,
    fun j r below hj x hx m => ?_⟩
  · rw [hchange.owner h.owner j m]
    by_cases hj : j = i
    · subst hj
      simp only [if_true, Holding, Function.update_self]
    · simp only [if_neg hj, Holding, Function.update_of_ne hj]
      cases c.frames j with
      | nil => exact ((hthreads j).1 m).symm
      | cons r below => exact Iff.rfl
  · rw [(hthreads j).1 m]
    apply h.thread j _ m
    by_cases hji : j = i
    · subst hji
      simp [hframes]
    · simpa only [Function.update_of_ne hji] using hj
  · by_cases hji : j = i
    · subst hji
      simp only [Function.update_self, List.cons.injEq] at hj
      obtain ⟨rfl, rfl⟩ := hj
      exact h.handlers j p _ hframes x hx m
    · simp only [Function.update_of_ne hji] at hj
      exact h.handlers j r below hj x hx m

omit [DecidableEq μ] in
/-- A handler that holds nothing returns. -/
theorem Guarded.pop (h : Guarded inside c) {rest : List π} (hframes : c.frames i = p :: rest)
    (hp : ∀ m, ¬ inside p m) : Guarded inside ⟨c.base, Function.update c.frames i rest⟩ := by
  have hbelow : ∀ q ∈ rest, ∀ m, ¬ inside q m := h.handlers i p rest hframes
  refine ⟨fun j m => ?_, h.returns, fun j hj m => ?_, fun j r below hj x hx m => ?_⟩
  · by_cases hj : j = i
    · subst hj
      rw [h.owner j m]
      simp only [Holding, Function.update_self, hframes]
      refine iff_of_false (hp m) ?_
      cases rest with
      | nil => exact h.thread j (by simp [hframes]) m
      | cons q below => exact hbelow q List.mem_cons_self m
    · rw [h.owner j m]
      simp only [Holding, Function.update_of_ne hj]
  · apply h.thread j _ m
    by_cases hji : j = i
    · subst hji
      simp [hframes]
    · simpa only [Function.update_of_ne hji] using hj
  · by_cases hji : j = i
    · subst hji
      simp only [Function.update_self] at hj
      exact hbelow x (hj ▸ List.mem_cons_of_mem r hx) m
    · simp only [Function.update_of_ne hji] at hj
      exact h.handlers j r below hj x hx m

theorem Guarded.stepHandler [DecidableEq κ] (htracks : ∀ s p, Tracks inside p (code s p))
    (hhalt : ∀ p ∈ c.frames i, ∀ s, code s p = .halt → ∀ m, ¬ inside p m) (h : Guarded inside c)
    (hs : stepHandler code c i = some c') : Guarded inside c' := by
  have hsame : ∀ j, Unmoved inside (c.base.threads j) (c.base.threads j) :=
    fun _ => unmoved_refl _
  cases hframes : c.frames i with
  | nil => simp [Pthread.stepHandler, hframes] at hs
  | cons p rest =>
      have htrack := htracks c.base.shared p
      simp only [Pthread.stepHandler, hframes] at hs
      cases hop : code c.base.shared p <;> simp only [hop, execHandler] at hs <;>
        rw [hop] at htrack
      case lock m q =>
        rw [Option.ite_none_right_eq_some] at hs
        obtain ⟨hfree, hs⟩ := hs
        cases hs
        exact h.move hframes (.take hfree htrack) hsame
      case unlock m q =>
        rw [Option.ite_none_right_eq_some] at hs
        obtain ⟨hown, hs⟩ := hs
        cases hs
        exact h.move hframes (.release hown htrack) hsame
      case broadcast cond q =>
        cases hs
        exact h.move hframes (.keep htrack) fun j => unmoved_wake cond _
      case run s q =>
        cases hs
        exact h.move hframes (.keep htrack) hsame
      case halt =>
        cases hs
        exact h.pop hframes (hhalt p (by simp [hframes]) _ hop)
      all_goals cases hs

/-- The handlers keep what holds of their points at each operation. -/
theorem forall_frames_of_stepHandler [DecidableEq κ] {good : π → Prop}
    (hnext : ∀ s p q, good p → (code s p).next? = some q → good q)
    (h : ∀ j, ∀ p ∈ c.frames j, good p) (hs : stepHandler code c i = some c') (j : ι) :
    ∀ p ∈ c'.frames j, good p := by
  cases hframes : c.frames i with
  | nil => simp [Pthread.stepHandler, hframes] at hs
  | cons p rest =>
      have hp : good p := h i p (by simp [hframes])
      have hrest : ∀ q ∈ rest, good q := fun q hq => h i q (by simp [hframes, hq])
      have hupdate : ∀ fs, (∀ q ∈ fs, good q) → ∀ q ∈ Function.update c.frames i fs j, good q := by
        intro fs hfs
        by_cases hj : j = i
        · subst hj
          rwa [Function.update_self]
        · rw [Function.update_of_ne hj]
          exact h j
      have hgo : ∀ q, (code c.base.shared p).next? = some q →
          ∀ r ∈ Function.update c.frames i (q :: rest) j, good r := fun q hq =>
        hupdate _ (List.forall_mem_cons.mpr ⟨hnext _ p q hp hq, hrest⟩)
      simp only [Pthread.stepHandler, hframes] at hs
      cases hop : code c.base.shared p <;> simp only [hop, execHandler] at hs <;>
        simp only [hop, Op.next?, Option.some.injEq, forall_eq'] at hgo
      case lock m q | unlock m q =>
        rw [Option.ite_none_right_eq_some] at hs
        obtain ⟨-, hs⟩ := hs
        cases hs
        exact hgo
      case broadcast cond q | run s q =>
        cases hs
        exact hgo
      case halt =>
        cases hs
        exact hupdate rest hrest
      all_goals cases hs

end Pthread

end PthreadBenchmark
