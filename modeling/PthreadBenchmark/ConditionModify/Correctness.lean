import PthreadBenchmark.ConditionModify.Model
import PthreadBenchmark.Shared.PthreadConditions
import PthreadBenchmark.Shared.PthreadRuns

/-! # What the consumer needs of its wakeups, and the counter of its stores

The consumer does not test the list again behind its wait, and the two stores to
`produced_num` are not ordered. The program is right in the runs in which the consumer is
woken up for a node and no store is stale; the first step against this leads to a state that is
wrong. -/

namespace PthreadBenchmark.ConditionModify

open Pthread

variable {data : ℕ → ℕ} {s : Shared} {ps : Tid → Point} {i : Tid} {p q r : Point} {k : ℕ}
  {num : ℤ} {asleep : Option Cond} {c c' : Config Tid Shared Point Mutex Cond}

/-- The producer has added a node that it has not counted. -/
def Adding : Point → Prop
  | .pushUnlock _ | .incLoad _ | .incStore _ _ => True
  | _ => False

/-- The consumer has removed a node that is still counted. -/
def Removing : Point → Prop
  | .decLoad | .decStore _ => True
  | _ => False

/-- The consumer has not dereferenced NULL, and the counter is the number of nodes unless a
thread is between its two updates. -/
def Right (c : Config Tid Shared Point Mutex Cond) : Prop :=
  points c .consumer ≠ .crashed ∧
    (¬ Adding (points c .producer) → ¬ Removing (points c .consumer) →
      c.shared.producedNum = c.shared.head.length)

/-! ## The condition -/

def Pushing : Point → Prop
  | .push _ => True
  | _ => False

instance (p : Point) : Decidable (Pushing p) :=
  match p with
  | .push _ => isTrue trivial
  | .pushLock _ | .pushUnlock _ | .incLoad _ | .incStore _ _ | .signal _ | .takeLock | .test
  | .wait | .take | .decLoad | .decStore _ | .takeUnlock | .crashed => isFalse id

/-- The consumer wakes up by itself only if there is a node, or the producer has the mutex to add
one. -/
def Timely (s : Shared) (ps : Tid → Point) (_ : Tid) : Prop :=
  s.head ≠ [] ∨ Pushing (ps .producer)

instance (s : Shared) (ps : Tid → Point) (i : Tid) : Decidable (Timely s ps i) :=
  inferInstanceAs (Decidable (_ ∨ _))

/-- A signal that may wake the consumer comes while there is a node, and a store to the counter
while it still has the value that was loaded. -/
def OrderedAt (s : Shared) (consumer : Point) : Point → Prop
  | .signal _ => consumer = .take → s.head ≠ []
  | .incStore _ num | .decStore num => s.producedNum = num
  | _ => True

instance (s : Shared) (consumer p : Point) : Decidable (OrderedAt s consumer p) :=
  match p with
  | .signal _ => inferInstanceAs (Decidable (consumer = .take → s.head ≠ []))
  | .incStore _ num | .decStore num => inferInstanceAs (Decidable (s.producedNum = num))
  | .pushLock _ | .push _ | .pushUnlock _ | .incLoad _ | .takeLock | .test
  | .wait | .take | .decLoad | .takeUnlock | .crashed => isTrue trivial

def Ordered (s : Shared) (ps : Tid → Point) (i : Tid) : Prop :=
  OrderedAt s (ps .consumer) (ps i)

instance (s : Shared) (ps : Tid → Point) (i : Tid) : Decidable (Ordered s ps i) :=
  inferInstanceAs (Decidable (OrderedAt s (ps .consumer) (ps i)))

/-! ## The mutex -/

def inside : Point → Mutex → Prop
  | .push _, _ | .pushUnlock _, _ | .test, _ | .wait, _ | .take, _ | .decLoad, _ | .decStore _, _
  | .takeUnlock, _ | .crashed, _ => True
  | _, _ => False

def Resting (p : Point) : Prop := p = .take

theorem tracks_code (s : Shared) (p : Point) : Tracks inside p (code data s p) := by
  cases p with
  | test | take =>
      simp only [code]
      split <;> exact fun _ => Iff.rfl
  | incStore k num =>
      simp only [code]
      split <;> exact fun _ => Iff.rfl
  | wait => exact ⟨trivial, fun _ => Iff.rfl⟩
  | _ => simp [code, Tracks, inside]

theorem resting_of_wait (s : Shared) (p : Point) (c : Cond) (m : Mutex) (q : Point)
    (h : code data s p = .wait c m q) : Resting q := by
  cases p with
  | wait =>
      cases h
      rfl
  | test | take =>
      simp only [code] at h
      split at h <;> cases h
  | _ => cases h

theorem not_inside_start (t : Tid) (m : Mutex) : ¬ inside (start t) m := by
  cases t <;> exact id

/-! ## The invariant -/

def Producing : Point → Prop
  | .pushLock _ | .push _ | .pushUnlock _ | .incLoad _ | .incStore _ _ | .signal _ => True
  | _ => False

def Consuming : Point → Prop
  | .takeLock | .test | .wait | .take | .decLoad | .decStore _ | .takeUnlock => True
  | _ => False

/-- Nodes that the producer has still to count. -/
def added : Point → ℤ
  | .pushUnlock _ | .incLoad _ | .incStore _ _ => 1
  | _ => 0

/-- Nodes that the consumer has still to count off. -/
def removed : Point → ℤ
  | .decLoad | .decStore _ => 1
  | _ => 0

/-- What holds with the producer at `p` and the consumer at `q`. The value that the producer has
loaded is at least the counter, as the consumer only counts down; the other way round for the
consumer. -/
structure Sound (s : Shared) (p q : Point) (asleep : Option Cond) : Prop where
  producing : Producing p
  consuming : Consuming q
  count : s.producedNum + added p = s.head.length + removed q
  incStore : ∀ k num, p = .incStore k num → s.producedNum ≤ num
  decStore : ∀ num, q = .decStore num → num ≤ s.producedNum
  pushed : ∀ k, p = .pushUnlock k → s.head ≠ []
  take : q = .take → asleep = none → s.head ≠ [] ∨ Pushing p

theorem sound_start : Sound ⟨[], 0⟩ (start .producer) (start .consumer) none where
  producing := trivial
  consuming := trivial
  count := rfl
  incStore _ _ h := by cases h
  decStore _ h := by cases h
  pushed _ h := by cases h
  take h := by cases h

/-- A step of the producer. -/
theorem Sound.step_producer (h : Sound s p q asleep) (hordered : OrderedAt s q p)
    {asleep' : Option Cond} (hsleeps : asleep' = asleep ∨ (∃ k, p = .signal k) ∧ asleep' = none)
    (hr : (code data s p).next? = some r) : Sound ((code data s p).after s) r q asleep' := by
  have hkeep : (∀ k, p ≠ .signal k) → asleep' = asleep := fun hp =>
    hsleeps.resolve_right fun hsignal => hp _ hsignal.1.choose_spec
  have hproducing := h.producing
  have hcount := h.count
  cases p with
  | pushLock k =>
      cases hr
      obtain rfl := hkeep nofun
      exact ⟨trivial, h.consuming, hcount, nofun, h.decStore, nofun,
        fun hq hawake => .inr trivial⟩
  | push k =>
      cases hr
      obtain rfl := hkeep nofun
      refine ⟨trivial, h.consuming, ?_, nofun, h.decStore, fun _ _ => List.cons_ne_nil _ _,
        fun _ _ => .inl (List.cons_ne_nil _ _)⟩
      simp only [code, Op.after, added, List.length_cons] at hcount ⊢
      push_cast
      omega
  | pushUnlock k =>
      cases hr
      obtain rfl := hkeep nofun
      exact ⟨trivial, h.consuming, hcount, nofun, h.decStore, nofun, h.take⟩
  | incLoad k =>
      cases hr
      obtain rfl := hkeep nofun
      refine ⟨trivial, h.consuming, hcount, fun _ _ heq => ?_, h.decStore, nofun, h.take⟩
      cases heq
      exact le_rfl
  | incStore k num =>
      obtain rfl := hkeep nofun
      have hnum : s.producedNum = num := hordered
      subst hnum
      have hlow : ∀ num, q = .decStore num → num ≤ s.producedNum + 1 := fun num hq =>
        (h.decStore num hq).trans (Int.le_add_one le_rfl)
      have htake : q = .take → asleep' = none → s.head ≠ [] ∨ Pushing r := fun hq hawake =>
        .inl ((h.take hq hawake).resolve_right id)
      simp only [code, Op.next?, Option.some.injEq] at hr
      have hadded : added r = 0 := by
        rw [← hr]
        split <;> rfl
      refine ⟨?_, h.consuming, ?_, ?_, hlow, ?_, htake⟩
      · rw [← hr]
        split <;> trivial
      · rw [hadded]
        simp only [code, Op.after, added] at hcount ⊢
        omega
      · rintro _ _ rfl
        split at hr <;> cases hr
      · rintro _ rfl
        split at hr <;> cases hr
  | signal k =>
      cases hr
      refine ⟨trivial, h.consuming, hcount, nofun, h.decStore, nofun, fun hq _ => ?_⟩
      exact .inl (hordered hq)
  | _ => exact hproducing.elim

/-- A step of the consumer; the producer is not in its critical section meanwhile. -/
theorem Sound.step_consumer (h : Sound s p q none) (hordered : OrderedAt s q q)
    (halone : inside q .mutex → ¬ inside p .mutex) {asleep' : Option Cond}
    (hsleeps : q ≠ .wait → asleep' = none) (hwait : q = .wait → asleep' ≠ none)
    (hr : (code data s q).next? = some r) : Sound ((code data s q).after s) p r asleep' := by
  have hconsuming := h.consuming
  have hcount := h.count
  cases q with
  | takeLock =>
      cases hr
      exact ⟨h.producing, trivial, hcount, h.incStore, nofun, h.pushed, nofun⟩
  | test =>
      by_cases hnil : s.head = []
      · simp only [code, if_pos hnil] at hr ⊢
        cases hr
        exact ⟨h.producing, trivial, hcount, h.incStore, nofun, h.pushed, nofun⟩
      · simp only [code, if_neg hnil] at hr ⊢
        cases hr
        exact ⟨h.producing, trivial, hcount, h.incStore, nofun, h.pushed, fun _ _ => .inl hnil⟩
  | wait =>
      cases hr
      exact ⟨h.producing, trivial, hcount, h.incStore, nofun, h.pushed,
        fun _ hawake => absurd hawake (hwait rfl)⟩
  | take =>
      have hout := halone trivial
      have hnode : s.head ≠ [] := by
        refine (h.take rfl rfl).resolve_right fun hpush => ?_
        cases p <;> first | exact hpush | exact hout trivial
      obtain ⟨x, rest, hhead⟩ := List.exists_cons_of_ne_nil hnode
      simp only [code, hhead] at hr ⊢
      cases hr
      refine ⟨h.producing, trivial, ?_, h.incStore, nofun, ?_, nofun⟩
      · simp only [Op.after, hhead, removed, List.length_cons] at hcount ⊢
        push_cast at hcount
        omega
      · rintro _ rfl
        exact absurd trivial hout
  | decLoad =>
      cases hr
      refine ⟨h.producing, trivial, hcount, h.incStore, fun _ heq => ?_, h.pushed, nofun⟩
      cases heq
      exact le_rfl
  | decStore num =>
      cases hr
      have hnum : s.producedNum = num := hordered
      subst hnum
      refine ⟨h.producing, trivial, ?_, ?_, nofun, h.pushed, nofun⟩
      · simp only [code, Op.after, removed] at hcount ⊢
        omega
      · intro k num hp
        exact (Int.sub_le_self _ (by decide)).trans (h.incStore k num hp)
  | takeUnlock =>
      cases hr
      exact ⟨h.producing, trivial, hcount, h.incStore, nofun, h.pushed, nofun⟩
  | _ => exact hconsuming.elim

/-- Who sleeps behind a step of the producer. -/
theorem sleeps_producer {sl sl' : Tid → Option Cond} (hp : Producing p)
    (hawake : sl .producer = none) (h : Sleeps .producer sl sl' (code data s p)) :
    sl' .consumer = sl .consumer ∨ (∃ k, p = .signal k) ∧ sl' .consumer = none := by
  cases p with
  | signal k =>
      rcases h with rfl | ⟨j, hj, rfl⟩
      · exact .inl rfl
      · cases j with
        | producer =>
            rw [hawake] at hj
            cases hj
        | consumer => exact .inr ⟨⟨k, rfl⟩, Function.update_self ..⟩
  | pushLock | push | pushUnlock | incLoad | incStore =>
      obtain rfl : sl' = sl := h
      exact .inl rfl
  | _ => exact hp.elim

/-- The consumer sleeps behind its wait alone. -/
theorem sleeps_consumer {sl sl' : Tid → Option Cond} (hq : Consuming q)
    (hawake : sl .consumer = none) (h : Sleeps .consumer sl sl' (code data s q)) :
    (q ≠ .wait → sl' .consumer = none) ∧ (q = .wait → sl' .consumer ≠ none) := by
  cases q with
  | wait =>
      obtain rfl : sl' = Function.update sl .consumer (some .cond) := h
      simp
  | test | take =>
      simp only [code] at h
      split at h
      · obtain rfl : sl' = sl := h
        exact ⟨fun _ => hawake, nofun⟩
      · obtain rfl : sl' = sl := h
        exact ⟨fun _ => hawake, nofun⟩
  | takeLock | decLoad | decStore | takeUnlock =>
      obtain rfl : sl' = sl := h
      exact ⟨fun _ => hawake, nofun⟩
  | _ => exact hq.elim

/-- The runs that meet the condition. -/
abbrev OrderedRun (data : ℕ → ℕ) : Config Tid Shared Point Mutex Cond → Prop :=
  (program data).ReachableBy (Meets Ordered Timely)

theorem sound_of_ordered (h : OrderedRun data c) :
    Sound c.shared (points c .producer) (points c .consumer) (sleepers c .consumer) := by
  apply conditional_invariant (P := fun s ps sl =>
    Sound s (ps .producer) (ps .consumer) (sl .consumer)) tracks_code resting_of_wait
    not_inside_start h sound_start
  · intro s ps sl sl' i r hsound hawake hordered halone hr hsleeps
    cases i with
    | producer =>
        have hstep := hsound.step_producer hordered
          (sleeps_producer hsound.producing hawake hsleeps) hr
        simpa using hstep
    | consumer =>
        obtain ⟨hother, hwait⟩ := sleeps_consumer hsound.consuming hawake hsleeps
        rw [hawake] at hsound
        have hout : inside (ps .consumer) .mutex → ¬ inside (ps .producer) .mutex := by
          intro hin hin'
          have hresting := halone .producer .mutex nofun hin hin'
          have hproducing := hsound.producing
          rw [hresting] at hproducing
          exact hproducing
        have hstep := hsound.step_consumer hordered hout hother hwait hr
        simpa using hstep
  · intro s ps sl i cv hsound htimely hasleep
    cases i with
    | producer => simpa using hsound
    | consumer =>
        rw [Function.update_self]
        exact ⟨hsound.producing, hsound.consuming, hsound.count, hsound.incStore,
          hsound.decStore, hsound.pushed, fun _ _ => htimely⟩

theorem Sound.right (h : Sound c.shared (points c .producer) (points c .consumer) asleep) :
    Right c := by
  have hcount := h.count
  refine ⟨fun hcrashed => ?_, fun hadding hremoving => ?_⟩
  · have hconsuming := h.consuming
    rw [hcrashed] at hconsuming
    exact hconsuming
  · have hadded : added (points c .producer) = 0 := by
      cases hp : points c .producer <;> rw [hp] at hadding <;>
        first | rfl | exact absurd trivial hadding
    have hremoved : removed (points c .consumer) = 0 := by
      cases hq : points c .consumer <;> rw [hq] at hremoving <;>
        first | rfl | exact absurd trivial hremoving
    omega

/-! ## The condition is needed -/

theorem waits (h : (program data).Reachable c) (i : Tid) :
    Waits (fun cv m q => cv = .cond ∧ m = Mutex.mutex ∧ Resting q) (c.threads i) := by
  refine waits_of_reachable (fun s p cv m q hop => ?_) h i
  cases cv
  cases m
  exact ⟨rfl, rfl, resting_of_wait s p _ _ q hop⟩

/-- A thread that is not behind the wait runs. -/
theorem running_of_points (h : (program data).Reachable c) (hp : points c i = p)
    (hne : p ≠ .take) : c.threads i = .running p := by
  subst hp
  exact running_of_not_resting resting_of_wait h hne

/-- The consumer that has been woken while there is no node dereferences NULL. -/
theorem leads_of_woken (hwoken : c.threads .consumer = .woken .mutex .take)
    (hfree : c.owner .mutex = none) (hnil : c.shared.head = []) :
    (program data).Leads (fun c => ¬ Right c) c := by
  have htake : code data c.shared .take = .run c.shared .crashed := by simp [code, hnil]
  refine leads_of_step ?_ (step_relock hwoken hfree)
  refine leads_of_step (.here fun hright => ?_) (step_run (Function.update_self ..) htake)
  exact hright.1 (by simp [points, point])

/-- The mutex is free while the consumer sleeps and the producer is outside of it. -/
theorem free_of_outside (howned : Owned inside c)
    (hasleep : c.threads .consumer = .asleep .cond .mutex .take)
    (hout : ¬ inside (points c .producer) .mutex)
    (hproducer : c.threads .producer = .running (points c .producer)) :
    c.owner .mutex = none := by
  cases hown : c.owner .mutex with
  | none => rfl
  | some i =>
      have hholds := (howned.owner i .mutex).mp hown
      cases i with
      | producer =>
          rw [hproducer] at hholds
          exact absurd hholds hout
      | consumer =>
          rw [hasleep] at hholds
          exact absurd rfl hholds.1

theorem leads_of_spurious (h : OrderedRun data c)
    (hs : (program data).step c (.spurious i) = some c')
    (hlate : ¬ Timely c.shared (points c) i) :
    (program data).Leads (fun c => ¬ Right c) c' := by
  have hsound := sound_of_ordered h
  simp only [Timely, not_or, not_not] at hlate
  obtain ⟨hnil, hpushing⟩ := hlate
  have hwaits := waits h.reachable i
  cases hi : c.threads i with
  | running p => simp [program, Pthread.program, step, hi] at hs
  | woken m q => simp [program, Pthread.program, step, hi] at hs
  | asleep cv m q =>
      rw [hi] at hwaits
      obtain ⟨rfl, rfl, rfl⟩ := hwaits
      have hpoint := points_of_asleep hi
      cases i with
      | producer =>
          have hproducing := hsound.producing
          rw [hpoint] at hproducing
          exact hproducing.elim
      | consumer =>
          have hout : ¬ inside (points c .producer) .mutex := by
            have hproducing := hsound.producing
            have hpushed := hsound.pushed
            cases hp : points c .producer with
            | push k => exact absurd (hp ▸ trivial) hpushing
            | pushUnlock k => exact absurd hnil (hpushed k hp)
            | pushLock | incLoad | incStore | signal => exact id
            | _ =>
                rw [hp] at hproducing
                exact hproducing.elim
          have hne : points c .producer ≠ .take := fun hp => hout (hp ▸ trivial)
          have hfree := free_of_outside (owned_of_reachable tracks_code not_inside_start
            h.reachable) hi hout (running_of_points h.reachable rfl hne)
          simp only [program, Pthread.program, step, hi, Option.some.injEq] at hs
          subst hs
          exact leads_of_woken (by simp) hfree hnil

/-- The producer signals while there is no node, and the consumer waits. -/
theorem leads_of_signal {w : Option Tid} (h : OrderedRun data c)
    (hs : (program data).step c (.run .producer w) = some c')
    (hp : points c .producer = .signal k) (hq : points c .consumer = .take)
    (hnil : c.shared.head = []) : (program data).Leads (fun c => ¬ Right c) c' := by
  have hsound := sound_of_ordered h
  have hproducer := running_of_points h.reachable hp nofun
  have hwaits := waits h.reachable .consumer
  have hasleep : c.threads .consumer = .asleep .cond .mutex .take := by
    have htake := hsound.take hq
    rw [hp] at htake
    cases hi : c.threads .consumer with
    | running p => exact absurd hnil ((htake (by simp [sleepers, hi, sleeping])).resolve_right id)
    | woken m q => exact absurd hnil ((htake (by simp [sleepers, hi, sleeping])).resolve_right id)
    | asleep cv m q =>
        rw [hi] at hwaits
        obtain ⟨rfl, rfl, rfl⟩ := hwaits
        rfl
  have hout : ¬ inside (points c .producer) .mutex := by
    rw [hp]
    exact id
  have hfree := free_of_outside (owned_of_reachable tracks_code not_inside_start h.reachable)
    hasleep hout (by rw [hproducer, hp])
  have hwoken : c' = ⟨c.owner, c.shared, Function.update
      (Function.update c.threads .consumer (.woken .mutex .take)) .producer
      (.running (.pushLock (k + 1)))⟩ := by
    simp only [program, Pthread.program, step, hproducer, code, exec] at hs
    cases w with
    | none =>
        have hsome : ∃ j, AsleepOn Cond.cond (c.threads j) := ⟨.consumer, by rw [hasleep]; rfl⟩
        simp [hsome] at hs
    | some j =>
        cases j with
        | producer => simp [hproducer, AsleepOn] at hs
        | consumer => simpa [hasleep, AsleepOn, wake] using hs.symm
  subst hwoken
  exact leads_of_woken (by simp) hfree hnil

/-- The counter is wrong while nobody is between its updates. -/
theorem not_right (hadding : ¬ Adding (points c .producer))
    (hremoving : ¬ Removing (points c .consumer))
    (hne : c.shared.producedNum ≠ c.shared.head.length) : ¬ Right c :=
  fun hright => hne (hright.2 hadding hremoving)

section Stores

variable {o : Mutex → Option Tid} {threads : Tid → Status Point Mutex Cond}

/-- The producer stores the last number. -/
theorem leads_of_last_inc (hremoving : ¬ Removing (point (threads .consumer)))
    (hne : num + 1 ≠ s.head.length) :
    (program data).Leads (fun c => ¬ Right c)
      (turn o s threads .producer (.incStore k num)) := by
  refine leads_run rfl (.here (not_right ?_ ?_ hne))
  · rw [points, turn_threads_self]
    simp only [point]
    split <;> exact id
  · rw [points, turn_threads_of_ne (by decide)]
    exact hremoving

/-- The consumer stores the last number. -/
theorem leads_of_last_dec (hadding : ¬ Adding (point (threads .producer)))
    (hne : num - 1 ≠ s.head.length) :
    (program data).Leads (fun c => ¬ Right c) (turn o s threads .consumer (.decStore num)) := by
  refine leads_run rfl (.here (not_right ?_ ?_ hne))
  · rw [points, turn_threads_of_ne (by decide)]
    exact hadding
  · rw [points, turn_threads_self]
    exact id

end Stores

/-- The producer stores a number that is too large. -/
theorem leads_of_incStore {w : Option Tid} (h : OrderedRun data c)
    (hs : (program data).step c (.run .producer w) = some c')
    (hp : points c .producer = .incStore k num) (hstale : c.shared.producedNum ≠ num) :
    (program data).Leads (fun c => ¬ Right c) c' := by
  have hsound := sound_of_ordered h
  have hlt : c.shared.producedNum < num := lt_of_le_of_ne (hsound.incStore k num hp) hstale
  have hproducer := running_of_points h.reachable hp (by simp)
  have hcount := hsound.count
  simp only [hp, added] at hcount
  simp only [program, Pthread.program, step, hproducer, code, exec, Option.some.injEq] at hs
  have hadding : ¬ Adding (points c' .producer) := by
    subst hs
    simp only [points, point, Function.update_self]
    split <;> exact id
  have hconsumer : ∀ q, c.threads .consumer = .running q → c'.threads .consumer = .running q := by
    subst hs
    intro q hq
    simpa using hq
  cases hq : points c .consumer with
  | decLoad =>
      have hi := hconsumer _ (running_of_points h.reachable hq (by simp))
      rw [hq] at hcount
      rw [← turn_self hi]
      refine leads_run rfl (leads_of_last_dec hadding ?_)
      subst hs
      simp only [removed] at hcount ⊢
      omega
  | decStore old =>
      have hi := hconsumer _ (running_of_points h.reachable hq (by simp))
      rw [hq] at hcount
      have hold := hsound.decStore old hq
      rw [← turn_self hi]
      refine leads_of_last_dec hadding ?_
      subst hs
      simp only [removed] at hcount ⊢
      omega
  | _ =>
      rw [hq] at hcount
      refine .here (not_right hadding ?_ ?_)
      · subst hs
        have hsame : points c .consumer = _ := hq
        simp only [points] at hsame
        simp [points, hsame, Removing]
      · subst hs
        simp only [removed] at hcount ⊢
        omega

/-- The consumer stores a number that is too small. -/
theorem leads_of_decStore {w : Option Tid} (h : OrderedRun data c)
    (hs : (program data).step c (.run .consumer w) = some c')
    (hq : points c .consumer = .decStore num) (hstale : c.shared.producedNum ≠ num) :
    (program data).Leads (fun c => ¬ Right c) c' := by
  have hsound := sound_of_ordered h
  have hlt : num < c.shared.producedNum := lt_of_le_of_ne (hsound.decStore num hq) hstale.symm
  have hconsumer := running_of_points h.reachable hq (by simp)
  have hcount := hsound.count
  simp only [hq, removed] at hcount
  have hproducing := hsound.producing
  have hout : ¬ inside (points c .producer) .mutex := by
    intro hin
    have hresting := alone_of_running tracks_code resting_of_wait not_inside_start h.reachable
      hconsumer .producer .mutex (by decide) (by rw [hq]; trivial) hin
    rw [hresting] at hproducing
    exact hproducing
  simp only [program, Pthread.program, step, hconsumer, code, exec, Option.some.injEq] at hs
  have hremoving : ¬ Removing (points c' .consumer) := by
    subst hs
    simp [points, point, Removing]
  have hproducer : ∀ p, c.threads .producer = .running p → c'.threads .producer = .running p := by
    subst hs
    intro p hp
    simpa using hp
  cases hp : points c .producer with
  | incLoad k =>
      have hi := hproducer _ (running_of_points h.reachable hp (by simp))
      rw [hp] at hcount
      rw [← turn_self hi]
      refine leads_run rfl (leads_of_last_inc hremoving ?_)
      subst hs
      simp only [added] at hcount ⊢
      omega
  | incStore k old =>
      have hi := hproducer _ (running_of_points h.reachable hp (by simp))
      rw [hp] at hcount
      have hold := hsound.incStore k old hp
      rw [← turn_self hi]
      refine leads_of_last_inc hremoving ?_
      subst hs
      simp only [added] at hcount ⊢
      omega
  | pushLock | signal =>
      rw [hp] at hcount
      refine .here (not_right ?_ hremoving ?_)
      · subst hs
        have hsame : points c .producer = _ := hp
        simp only [points] at hsame
        simp [points, hsame, Adding]
      · subst hs
        simp only [added] at hcount ⊢
        omega
  | push | pushUnlock =>
      rw [hp] at hout
      exact absurd trivial hout
  | _ =>
      rw [hp] at hproducing
      exact hproducing.elim

/-- Every step against the condition leads to a state that is wrong. -/
theorem leads_of_not_meets {a : Action Tid} (h : OrderedRun data c)
    (hs : (program data).step c a = some c') (hbad : ¬ Meets Ordered Timely c a) :
    (program data).Leads (fun c => ¬ Right c) c' := by
  have hsound := sound_of_ordered h
  cases a with
  | spurious i => exact leads_of_spurious h hs hbad
  | run i w =>
      simp only [Meets, Classical.not_imp, Ordered] at hbad
      obtain ⟨-, hlack⟩ := hbad
      cases i with
      | producer =>
          have hproducing := hsound.producing
          cases hp : points c .producer with
          | incStore k num =>
              rw [hp] at hlack
              exact leads_of_incStore h hs hp hlack
          | signal k =>
              rw [hp] at hlack
              simp only [OrderedAt, Classical.not_imp, not_not] at hlack
              exact leads_of_signal h hs hp hlack.1 hlack.2
          | pushLock | push | pushUnlock | incLoad =>
              rw [hp] at hlack
              exact absurd trivial hlack
          | _ =>
              rw [hp] at hproducing
              exact hproducing.elim
      | consumer =>
          have hconsuming := hsound.consuming
          cases hq : points c .consumer with
          | decStore num =>
              rw [hq] at hlack
              exact leads_of_decStore h hs hq hlack
          | takeLock | test | wait | take | decLoad | takeUnlock =>
              rw [hq] at hlack
              exact absurd trivial hlack
          | _ =>
              rw [hq] at hconsuming
              exact hconsuming.elim

/-- For all interleavings and any numbers in the nodes: the program is right in every run that
meets the condition, and the first step of a run that does not meet it leads to a state that is
wrong. -/
theorem right_until_unordered (data : ℕ → ℕ) (c) (h : OrderedRun data c) :
    Right c ∧ ∀ a c', (program data).step c a = some c' → ¬ Meets Ordered Timely c a →
      (program data).Leads (fun c => ¬ Right c) c' :=
  ⟨(sound_of_ordered h).right, fun _ _ hs hbad => leads_of_not_meets h hs hbad⟩

/-- The consumer waits for three nodes, is signalled and takes the last one. -/
def inOrder (data : ℕ → ℕ) : Option (Config Tid Shared Point Mutex Cond) :=
  ((program data).guarded (Meets Ordered Timely)).exec (program data).init
    (List.replicate 3 (Action.run Tid.consumer none) ++
      List.replicate 15 (Action.run Tid.producer none) ++
      [Action.run Tid.producer (some Tid.consumer)] ++
      List.replicate 5 (Action.run Tid.consumer none))

theorem right_inOrder : ∃ c, inOrder (fun k => 10 * k) = some c ∧ Right c ∧
    c.shared = ⟨[10, 0], 2⟩ := by
  have hrun : (inOrder fun k => 10 * k).any (fun c => decide (c.shared = ⟨[10, 0], 2⟩)) = true := by
    decide
  obtain ⟨c, hexec, hshared⟩ := (Option.any_eq_true _ _).mp hrun
  have hreach : OrderedRun (fun k => 10 * k) c := .of_exec hexec
  exact ⟨c, hexec, (right_until_unordered _ c hreach).1, of_decide_eq_true hshared⟩

/-- The consumer wakes up by itself before there is a node. -/
def wokenEarly (data : ℕ → ℕ) : Option (Config Tid Shared Point Mutex Cond) :=
  (program data).exec (program data).init
    (List.replicate 3 (Action.run Tid.consumer none) ++ [Action.spurious Tid.consumer] ++
      List.replicate 2 (Action.run Tid.consumer none))

theorem crashed_wokenEarly : ¬ ∀ data c, (program data).Reachable c → Right c := by
  intro hright
  have hrun : (wokenEarly id).any (fun c => decide (points c .consumer = .crashed)) = true := by
    decide
  obtain ⟨c, hexec, hcrashed⟩ := (Option.any_eq_true _ _).mp hrun
  exact (hright id c (System.Reachable.init.exec hexec)).1 (of_decide_eq_true hcrashed)

end PthreadBenchmark.ConditionModify
