import PthreadBenchmark.Chameneos.Model
import PthreadBenchmark.Shared.Threads

/-! # The invariant of the meeting place

The second creature of a meeting leaves `mutex` down and raises `sem_priv` instead: the
value of `sem_priv` stands for the mutex, and for the slot of `at_most_two`, that the
first creature gives back for both. The sums below count each of these tokens once. -/

namespace PthreadBenchmark.Chameneos

/-! ## Weights of a program point -/

/-- Slots of `at_most_two` that a creature has to give back. -/
@[simp] def Pc.slots : Pc → ℕ
  | .checkDone | .waitMutex | .recheckDone | .postMutexDone | .postAtMostTwoDone
  | .arrive | .postMutexFirst | .waitSemPriv | .postAtMostTwoAgain | .postSemPriv => 1
  | .exchange | .setDone | .postMutex | .postAtMostTwo => 2
  | _ => 0

/-- The creature holds `mutex`. -/
@[simp] def Pc.holds : Pc → ℕ
  | .recheckDone | .postMutexDone | .arrive | .postMutexFirst | .exchange | .setDone
  | .postMutex | .postSemPriv => 1
  | _ => 0

/-- The creature arrived first and its partner has not released it. -/
@[simp] def Pc.waiting : Pc → ℕ
  | .postMutexFirst | .waitSemPriv => 1
  | _ => 0

/-- The creature arrived second and has not yet passed the baton. -/
@[simp] def Pc.handing : Pc → ℕ
  | .postSemPriv => 1
  | _ => 0

@[simp] def Pc.exchanging : Pc → ℕ
  | .exchange => 1
  | _ => 0

@[simp] def Pc.settling : Pc → ℕ
  | .setDone => 1
  | _ => 0

/-- The creature took part in a recorded exchange that its counters do not show yet. -/
@[simp] def Creature.owed (v : Creature) : ℕ :=
  match v.pc with
  | .setDone | .postMutex | .postAtMostTwo | .postAtMostTwoAgain | .postSemPriv => 1
  | .returned => if v.otherCritter.isSome then 1 else 0
  | _ => 0

@[simp] def Creature.met (v : Creature) : ℕ := v.metOthers + v.metSelf

/-! ## Counting -/

variable {n : ℕ} (pthreadSelf : Fin n ↪ ℕ) (M : ℕ)

def State.sum (s : State n) (f : Pc → ℕ) : ℕ := weight (fun c : Creature => f c.pc) s.creatures

def State.metSum (s : State n) : ℕ := weight Creature.met s.creatures

def State.owedSum (s : State n) : ℕ := weight Creature.owed s.creatures

structure Counts (s : State n) : Prop where
  slots : s.atMostTwo + s.semPriv + s.sum Pc.slots = 2
  mutex : s.mutex + s.semPriv + s.sum Pc.holds = 1
  waiting : s.sum Pc.waiting = s.firstArrived + s.sum Pc.handing + s.semPriv
  one : s.firstArrived + s.sum Pc.handing + s.semPriv + s.sum Pc.exchanging +
    s.sum Pc.settling ≤ 1
  seconds : s.seconds.length =
    s.firsts.length + s.sum Pc.handing + s.semPriv + s.sum Pc.exchanging
  met : s.metSum + s.owedSum = s.firsts.length + s.seconds.length
  left : (s.completed : ℤ) + s.meetingsLeft = M
  left_nonneg : 0 ≤ s.meetingsLeft
  done_le : s.done ≤ 1
  left_of_done : s.done = 1 → s.meetingsLeft = 0
  pos_of_running : s.done = 0 → 0 < s.meetingsLeft + s.sum Pc.settling

/-! ## One creature -/

/-- The creature is inside its call of `meeting`, or has just returned from it. -/
@[simp] def Pc.InMeeting : Pc → Prop
  | .loopTest | .waitSemPrint | .exited | .aborted => False
  | _ => True

/-- Between an arrival and the test of `meetings_left` the meeting place is open. -/
@[simp] def Pc.Open : Pc → Prop
  | .arrive | .postMutexFirst | .waitSemPriv | .exchange | .setDone | .postSemPriv => True
  | _ => False

/-- `other_critter` has been filled in. -/
@[simp] def Pc.Filled : Pc → Prop
  | .setDone | .postMutex | .postAtMostTwo | .postAtMostTwoAgain | .postSemPriv => True
  | _ => False

/-- The creature saw `done == 1`. -/
@[simp] def Creature.Leaving (v : Creature) : Prop :=
  match v.pc with
  | .postMutexDone | .postAtMostTwoDone | .waitSemPrint | .exited => True
  | .returned => v.otherCritter = none
  | _ => False

/-- The second visit `b` met the creature `i` that entered with `c`. -/
structure MetBy (i : Fin n) (c : Chameos) (b : Visit n) : Prop where
  ne : b.who ≠ i
  received : b.received = c
  id : b.entered.id = pthreadSelf b.who
  primary : b.entered.myColor.Primary

/-- What holds of creature `i` in local state `v`, given the shared state. -/
structure Local (s : State n) (i : Fin n) (v : Creature) : Prop where
  id : v.critter.id = pthreadSelf i
  primary : v.critter.myColor.Primary
  arg : v.pc.InMeeting → v.c = v.critter
  metSelf : v.metSelf = 0
  alive : v.pc ≠ .aborted
  running : v.pc.Open → s.done = 0
  leaving : v.Leaving → s.done = 1
  filled : v.pc.Filled → v.otherCritter ≠ none
  other : v.pc.Filled ∨ v.pc = .returned → ∀ o, v.otherCritter = some o →
    o.id ≠ pthreadSelf i ∧ o.myColor.Primary
  slotA : 0 < v.pc.waiting → s.A = v.c
  pending : 0 < v.pc.waiting + v.pc.exchanging →
    ∀ b, s.seconds[s.firsts.length]? = some b →
      MetBy pthreadSelf i v.c b ∧ b.entered = s.B

/-- The two sides of one completed meeting. -/
structure Exchanged (a b : Visit n) : Prop where
  ne : a.who ≠ b.who
  firstGot : a.received = b.entered
  secondGot : b.received = a.entered

structure Inv (s : State n) : Prop where
  counts : Counts M s
  creatures : ∀ i, Local pthreadSelf s i (s.creatures i)
  paired : ∀ (k : ℕ) (a : Visit n), s.firsts[k]? = some a →
    ∃ b, s.seconds[k]? = some b ∧ Exchanged a b

variable {pthreadSelf M} {s : State n} {i : Fin n}

/-! ## Updating one creature -/

@[simp] theorem at_pc (v : Creature) (pc : Pc) : (v.at pc).pc = pc := rfl

theorem sum_set {s₁ : State n} (hs : s₁.creatures = s.creatures) (f : Pc → ℕ)
    (v : Creature) : (s₁.set i v).sum f + f (s.creatures i).pc = s.sum f + f v.pc := by
  simpa only [State.sum, State.set_creatures, hs] using
    weight_update (fun c : Creature => f c.pc) s.creatures i v

theorem metSum_set {s₁ : State n} (hs : s₁.creatures = s.creatures) (v : Creature) :
    (s₁.set i v).metSum + (s.creatures i).met = s.metSum + v.met := by
  simpa only [State.metSum, State.set_creatures, hs] using
    weight_update Creature.met s.creatures i v

theorem owedSum_set {s₁ : State n} (hs : s₁.creatures = s.creatures) (v : Creature) :
    (s₁.set i v).owedSum + (s.creatures i).owed = s.owedSum + v.owed := by
  simpa only [State.owedSum, State.set_creatures, hs] using
    weight_update Creature.owed s.creatures i v

/-- After an update, `i` is in the new state and every other creature in its old one. -/
theorem forall_set {s₁ : State n} (hs : s₁.creatures = s.creatures) {v : Creature}
    {P : Fin n → Creature → Prop} (hi : P i v) (hne : ∀ j, j ≠ i → P j (s.creatures j)) :
    ∀ j, P j ((s₁.set i v).creatures j) := by
  intro j
  by_cases hj : j = i
  · subst j
    rw [State.set_creatures, Function.update_self]
    exact hi
  · rw [State.set_creatures, Function.update_of_ne hj, hs]
    exact hne j hj

theorem le_sum (f : Pc → ℕ) (i : Fin n) : f (s.creatures i).pc ≤ s.sum f :=
  le_weight (fun c : Creature => f c.pc) s.creatures i

/-- While a creature holds the mutex, no other one does. -/
theorem Counts.holds_eq_zero (h : Counts M s) {i j : Fin n}
    (hi : (s.creatures i).pc.holds = 1) (hne : j ≠ i) : (s.creatures j).pc.holds = 0 := by
  have hle : (s.creatures i).pc.holds + (s.creatures j).pc.holds ≤ s.sum Pc.holds :=
    add_le_weight (fun c : Creature => c.pc.holds) s.creatures hne.symm
  have := h.mutex
  omega

/-- While `i` holds the mutex, it alone counts towards the points inside the mutex. -/
theorem Counts.sum_of_holder (h : Counts M s) (hi : (s.creatures i).pc.holds = 1)
    (f : Pc → ℕ) (hf : ∀ pc, f pc ≤ pc.holds) : s.sum f = f (s.creatures i).pc := by
  apply weight_eq_of_forall_ne
  intro j hj
  have hzero := h.holds_eq_zero hi hj
  have := hf (s.creatures j).pc
  omega

theorem Counts.semPriv_of_holder (h : Counts M s) (hi : (s.creatures i).pc.holds = 1) :
    s.semPriv = 0 := by
  have hle : (s.creatures i).pc.holds ≤ s.sum Pc.holds := le_sum Pc.holds i
  have := h.mutex
  omega

theorem handing_le_holds (pc : Pc) : pc.handing ≤ pc.holds := by cases pc <;> simp

theorem exchanging_le_holds (pc : Pc) : pc.exchanging ≤ pc.holds := by cases pc <;> simp

theorem settling_le_holds (pc : Pc) : pc.settling ≤ pc.holds := by cases pc <;> simp

/-- `Local` reads only `done`, the slots and the histories of the shared state. -/
theorem Local.congr {v : Creature} {s' : State n} (h : Local pthreadSelf s i v)
    (hdone : s'.done = s.done) (hA : s'.A = s.A) (hB : s'.B = s.B)
    (hfirsts : s'.firsts = s.firsts) (hseconds : s'.seconds = s.seconds) :
    Local pthreadSelf s' i v where
  id := h.id
  primary := h.primary
  arg := h.arg
  metSelf := h.metSelf
  alive := h.alive
  running := hdone ▸ h.running
  leaving := hdone ▸ h.leaving
  filled := h.filled
  other := h.other
  slotA := hA ▸ h.slotA
  pending := hB ▸ hfirsts ▸ hseconds ▸ h.pending

/-- A creature that waits for nobody depends on the shared state only through `done`. -/
theorem Local.congr_of_not_waiting {v : Creature} {s' : State n}
    (h : Local pthreadSelf s i v) (hdone : s'.done = s.done)
    (hv : v.pc.waiting + v.pc.exchanging = 0) : Local pthreadSelf s' i v where
  id := h.id
  primary := h.primary
  arg := h.arg
  metSelf := h.metSelf
  alive := h.alive
  running := hdone ▸ h.running
  leaving := hdone ▸ h.leaving
  filled := h.filled
  other := h.other
  slotA hpos := by omega
  pending hpos := by omega

end PthreadBenchmark.Chameneos
