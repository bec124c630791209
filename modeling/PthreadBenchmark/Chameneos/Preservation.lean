import PthreadBenchmark.Chameneos.Invariant

/-! # Every step keeps the invariant of the meeting place

Most actions only move one creature and some semaphore tokens, and they all go through
`Inv.move`. The two branches of `arrive`, the exchange and the update of `done` write the
shared slots and have their own lemmas. -/

namespace PthreadBenchmark.Chameneos

variable {n : ℕ} {pthreadSelf : Fin n ↪ ℕ} {M : ℕ} {s s₁ : State n} {i : Fin n}

/-! ## Moving tokens -/

/-- A step from `s` to `s₁` in which one creature goes from `v` to `v'` keeps every
sum balanced. The last fields also look at the sums, where an inequality is at stake. -/
structure Balanced (s s₁ : State n) (v v' : Creature) : Prop where
  slots : s₁.atMostTwo + s₁.semPriv + v'.pc.slots = s.atMostTwo + s.semPriv + v.pc.slots
  mutex : s₁.mutex + s₁.semPriv + v'.pc.holds = s.mutex + s.semPriv + v.pc.holds
  waiting : v'.pc.waiting + v.pc.handing + s.semPriv + s.firstArrived =
    v.pc.waiting + v'.pc.handing + s₁.semPriv + s₁.firstArrived
  seconds : s₁.seconds.length + s.firsts.length + v.pc.handing + s.semPriv + v.pc.exchanging =
    s.seconds.length + s₁.firsts.length + v'.pc.handing + s₁.semPriv + v'.pc.exchanging
  met : v'.met + v'.owed + s.firsts.length + s.seconds.length =
    v.met + v.owed + s₁.firsts.length + s₁.seconds.length
  left : (s₁.completed : ℤ) + s₁.meetingsLeft = s.completed + s.meetingsLeft
  one : s₁.firstArrived + v'.pc.handing + s₁.semPriv + v'.pc.exchanging + v'.pc.settling +
      (s.firstArrived + s.sum Pc.handing + s.semPriv + s.sum Pc.exchanging +
        s.sum Pc.settling) ≤
    1 + (s.firstArrived + v.pc.handing + s.semPriv + v.pc.exchanging + v.pc.settling)
  left_nonneg : 0 ≤ s₁.meetingsLeft
  done_le : s₁.done ≤ 1
  left_of_done : s₁.done = 1 → s₁.meetingsLeft = 0
  pos_of_running : s₁.done = 0 →
    (v.pc.settling : ℤ) < s₁.meetingsLeft + s.sum Pc.settling + v'.pc.settling

theorem Counts.shift {v' : Creature} (h : Counts M s) (hs : s₁.creatures = s.creatures)
    (hb : Balanced s s₁ (s.creatures i) v') : Counts M (s₁.set i v') := by
  have hslots := sum_set (i := i) hs Pc.slots v'
  have hholds := sum_set (i := i) hs Pc.holds v'
  have hwait := sum_set (i := i) hs Pc.waiting v'
  have hhand := sum_set (i := i) hs Pc.handing v'
  have hexch := sum_set (i := i) hs Pc.exchanging v'
  have hsett := sum_set (i := i) hs Pc.settling v'
  have hmet := metSum_set (i := i) hs v'
  have howed := owedSum_set (i := i) hs v'
  obtain ⟨b₁, b₂, b₃, b₄, b₅, b₆, b₇, b₈, b₉, b₁₀, b₁₁⟩ := hb
  obtain ⟨c₁, c₂, c₃, c₄, c₅, c₆, c₇, c₈, c₉, c₁₀, c₁₁⟩ := h
  simp only [State.completed] at b₆ c₇
  constructor <;> simp only [State.set_atMostTwo, State.set_mutex, State.set_semPriv,
    State.set_firstArrived, State.set_seconds, State.set_firsts, State.set_meetingsLeft,
    State.set_done, State.completed]
  all_goals omega

/-- `s₁` is `s` up to the values of the semaphores and the progress of `main`. -/
structure Quiet (s s₁ : State n) : Prop where
  creatures : s₁.creatures = s.creatures
  meetingsLeft : s₁.meetingsLeft = s.meetingsLeft
  firstArrived : s₁.firstArrived = s.firstArrived
  done : s₁.done = s.done
  slotA : s₁.A = s.A
  slotB : s₁.B = s.B
  firsts : s₁.firsts = s.firsts
  seconds : s₁.seconds = s.seconds

/-- A quiet step is balanced when the tokens the creature gains leave the semaphores. -/
theorem Quiet.balanced {v v' : Creature} (hq : Quiet s s₁) (h : Counts M s)
    (hslots : s₁.atMostTwo + s₁.semPriv + v'.pc.slots =
      s.atMostTwo + s.semPriv + v.pc.slots)
    (hmutex : s₁.mutex + s₁.semPriv + v'.pc.holds = s.mutex + s.semPriv + v.pc.holds)
    (hwaiting : v'.pc.waiting + v.pc.handing + s.semPriv =
      v.pc.waiting + v'.pc.handing + s₁.semPriv)
    (hpending : v'.pc.handing + s₁.semPriv + v'.pc.exchanging =
      v.pc.handing + s.semPriv + v.pc.exchanging)
    (hsettling : v'.pc.settling = v.pc.settling)
    (hmet : v'.met + v'.owed = v.met + v.owed) : Balanced s s₁ v v' := by
  obtain ⟨c₁, c₂, c₃, c₄, c₅, c₆, c₇, c₈, c₉, c₁₀, c₁₁⟩ := h
  refine ⟨hslots, hmutex, ?_, ?_, ?_, ?_, ?_, ?_, ?_, ?_, ?_⟩ <;>
    simp only [State.completed, hq.meetingsLeft, hq.firstArrived, hq.done, hq.firsts,
      hq.seconds]
  all_goals omega

theorem Inv.move {v' : Creature} (h : Inv pthreadSelf M s) (hq : Quiet s s₁)
    (hb : Balanced s s₁ (s.creatures i) v') (hl : Local pthreadSelf s i v') :
    Inv pthreadSelf M (s₁.set i v') := by
  have hcongr : ∀ j v, Local pthreadSelf s j v → Local pthreadSelf (s₁.set i v') j v :=
    fun j v hj => hj.congr hq.done hq.slotA hq.slotB hq.firsts hq.seconds
  refine ⟨h.counts.shift hq.creatures hb, ?_, ?_⟩
  · exact forall_set hq.creatures (hcongr i v' hl) fun j _ => hcongr j _ (h.creatures j)
  · intro k a hk
    have hfirsts : (s₁.set i v').firsts = s.firsts := hq.firsts
    have hseconds : (s₁.set i v').seconds = s.seconds := hq.seconds
    rw [hfirsts] at hk
    rw [hseconds]
    exact h.paired k a hk

theorem Quiet.refl (s : State n) : Quiet s s := ⟨rfl, rfl, rfl, rfl, rfl, rfl, rfl, rfl⟩

/-- Moving the program point keeps what is known of a creature, as far as the new point
asks for no more than the old one. -/
theorem Local.moveTo {v : Creature} (h : Local pthreadSelf s i v) (pc : Pc) {pc₀ : Pc}
    (hpc : v.pc = pc₀) (hrunning : pc.Open → s.done = 0 := by simp)
    (hleaving : (v.at pc).Leaving → s.done = 1 := by simp [Creature.at])
    (harg : pc.InMeeting → pc₀.InMeeting := by simp) (halive : pc ≠ .aborted := by simp)
    (hfilled : pc.Filled ∨ pc = .returned → pc₀.Filled := by simp)
    (hwaiting : 0 < pc.waiting → 0 < pc₀.waiting := by simp)
    (hpending : 0 < pc.waiting + pc.exchanging → 0 < pc₀.waiting + pc₀.exchanging := by simp) :
    Local pthreadSelf s i (v.at pc) where
  id := h.id
  primary := h.primary
  arg hin := h.arg (hpc ▸ harg hin)
  metSelf := h.metSelf
  alive := halive
  running := hrunning
  leaving := hleaving
  filled hin := h.filled (hpc ▸ hfilled (.inl hin))
  other hin := h.other (.inl (hpc ▸ hfilled hin))
  slotA hin := h.slotA (hpc ▸ hwaiting hin)
  pending hin := h.pending (hpc ▸ hpending hin)

/-! ## The writes of the shared slots -/

/-- No other creature is inside the mutex with `i`. -/
theorem Counts.sums_of_holder (h : Counts M s) (hi : (s.creatures i).pc.holds = 1) :
    s.sum Pc.handing = (s.creatures i).pc.handing ∧
      s.sum Pc.exchanging = (s.creatures i).pc.exchanging ∧
      s.sum Pc.settling = (s.creatures i).pc.settling ∧ s.semPriv = 0 :=
  ⟨h.sum_of_holder hi _ handing_le_holds, h.sum_of_holder hi _ exchanging_le_holds,
    h.sum_of_holder hi _ settling_le_holds, h.semPriv_of_holder hi⟩

/-- Creature `j` waits for nobody while `i` holds the mutex and nobody is expected. -/
theorem Counts.not_waiting (h : Counts M s) (hi : (s.creatures i).pc.holds = 1)
    (hfirst : s.firstArrived + (s.creatures i).pc.handing = 0) {j : Fin n} (hj : j ≠ i) :
    (s.creatures j).pc.waiting + (s.creatures j).pc.exchanging = 0 := by
  have hwait := h.waiting
  rw [h.sum_of_holder hi _ handing_le_holds, h.semPriv_of_holder hi] at hwait
  have hle : (s.creatures j).pc.waiting ≤ s.sum Pc.waiting := le_sum Pc.waiting j
  have hzero := h.holds_eq_zero hi hj
  have := exchanging_le_holds (s.creatures j).pc
  omega

/-- The first branch: the creature writes `A` and waits. -/
theorem Inv.of_arriveFirst (h : Inv pthreadSelf M s) (hpc : (s.creatures i).pc = .arrive)
    (hfirst : s.firstArrived = 0) :
    Inv pthreadSelf M ({ s with firstArrived := 1, A := (s.creatures i).c }.set i
      ((s.creatures i).at .postMutexFirst)) := by
  have hholds : (s.creatures i).pc.holds = 1 := by simp [hpc]
  obtain ⟨hhand, hexch, hsett, hpriv⟩ := h.counts.sums_of_holder hholds
  simp only [hpc, Pc.handing, Pc.exchanging, Pc.settling] at hhand hexch hsett
  have hlength := h.counts.seconds
  have hnone : s.seconds[s.firsts.length]? = none := List.getElem?_eq_none (by omega)
  refine ⟨?_, ?_, h.paired⟩
  · obtain ⟨c₁, c₂, c₃, c₄, c₅, c₆, c₇, c₈, c₉, c₁₀, c₁₁⟩ := h.counts
    refine Counts.shift h.counts rfl ?_
    constructor <;> simp [State.completed, hpc, Creature.at, hhand, hexch, hsett, hpriv, hfirst]
    all_goals omega
  · refine forall_set (s := s) rfl ?_ fun j hj => ?_
    · have hi := h.creatures i
      refine ⟨hi.id, hi.primary, fun _ => hi.arg (by simp [hpc]), hi.metSelf, by simp,
        fun _ => hi.running (by simp [hpc]), by simp [Creature.at], by simp, by simp,
        fun _ => rfl, ?_⟩
      intro _ b hb
      rw [State.set_seconds, State.set_firsts, hnone] at hb
      cases hb
    · exact (h.creatures j).congr_of_not_waiting rfl
        (h.counts.not_waiting hholds (by simp [hpc, hfirst]) hj)

/-- The second branch: the creature writes `B` and takes `A`, which belongs to the one
creature that waits. -/
theorem Inv.of_arriveSecond (h : Inv pthreadSelf M s) (hpc : (s.creatures i).pc = .arrive)
    (hfirst : s.firstArrived ≠ 0) :
    Inv pthreadSelf M ({ s with
      firstArrived := 0
      B := (s.creatures i).c
      seconds := s.seconds ++ [Visit.mk i (s.creatures i).c s.A] }.set i
        { s.creatures i with pc := .postSemPriv, otherCritter := some s.A }) := by
  have hholds : (s.creatures i).pc.holds = 1 := by simp [hpc]
  obtain ⟨hhand, hexch, hsett, hpriv⟩ := h.counts.sums_of_holder hholds
  simp only [hpc, Pc.handing, Pc.exchanging, Pc.settling] at hhand hexch hsett
  have hlength := h.counts.seconds
  have hone := h.counts.one
  have hwaiting := h.counts.waiting
  have hi := h.creatures i
  have harg : (s.creatures i).c = (s.creatures i).critter := hi.arg (by simp [hpc])
  -- The creature whose data stand in `A` is still waiting, so it is not `i`.
  have hsum : 0 < s.sum Pc.waiting := by omega
  obtain ⟨w, hw⟩ := exists_of_weight_pos hsum
  have hwi : w ≠ i := by
    intro heq
    subst heq
    simp [hpc] at hw
  have hA : s.A = (s.creatures w).critter := by
    rw [(h.creatures w).slotA hw]
    apply (h.creatures w).arg
    cases hwpc : (s.creatures w).pc <;> simp [hwpc] at hw ⊢
  refine ⟨?_, ?_, ?_⟩
  · obtain ⟨c₁, c₂, c₃, c₄, c₅, c₆, c₇, c₈, c₉, c₁₀, c₁₁⟩ := h.counts
    refine Counts.shift h.counts rfl ?_
    constructor <;> simp [State.completed, hpc, hhand, hexch, hsett, hpriv]
    all_goals omega
  · refine forall_set (s := s) rfl ?_ fun j hj => ?_
    · refine ⟨hi.id, hi.primary, fun _ => harg, hi.metSelf, by simp,
        fun _ => hi.running (by simp [hpc]), by simp, by simp, ?_, by simp, by simp⟩
      rintro - o ⟨⟩
      rw [hA, (h.creatures w).id]
      exact ⟨fun he => hwi (pthreadSelf.injective he), (h.creatures w).primary⟩
    · have hjl := h.creatures j
      refine ⟨hjl.id, hjl.primary, hjl.arg, hjl.metSelf, hjl.alive, hjl.running,
        hjl.leaving, hjl.filled, hjl.other, hjl.slotA, ?_⟩
      intro hpos b hb
      have hexj := exchanging_le_holds (s.creatures j).pc
      have hzero := h.counts.holds_eq_zero hholds hj
      have hb' : b = ⟨i, (s.creatures i).c, s.A⟩ := by
        simp only [State.set_seconds, State.set_firsts] at hb
        rw [List.getElem?_append_right (by omega)] at hb
        simpa [show s.firsts.length - s.seconds.length = 0 by omega, eq_comm] using hb
      subst hb'
      exact ⟨⟨Ne.symm hj, hjl.slotA (by omega), by rw [harg, hi.id],
        by rw [harg]; exact hi.primary⟩, rfl⟩
  · intro k a hk
    obtain ⟨b, hb, hab⟩ := h.paired k a hk
    refine ⟨b, ?_, hab⟩
    rw [State.set_seconds, List.getElem?_append_left (List.getElem?_eq_some_iff.mp hb).1]
    exact hb

/-- The first creature takes `B`: the pending second visit is the one it met. -/
theorem Inv.of_exchange (h : Inv pthreadSelf M s) (hpc : (s.creatures i).pc = .exchange) :
    Inv pthreadSelf M (exchange s i (s.creatures i)) := by
  have hholds : (s.creatures i).pc.holds = 1 := by simp [hpc]
  obtain ⟨hhand, hexch, hsett, hpriv⟩ := h.counts.sums_of_holder hholds
  simp only [hpc, Pc.handing, Pc.exchanging, Pc.settling] at hhand hexch hsett
  have hlength := h.counts.seconds
  have hone := h.counts.one
  have hi := h.creatures i
  have harg : (s.creatures i).c = (s.creatures i).critter := hi.arg (by simp [hpc])
  have hrunning : s.done = 0 := hi.running (by simp [hpc])
  obtain ⟨b, hb⟩ : ∃ b, s.seconds[s.firsts.length]? = some b :=
    ⟨_, List.getElem?_eq_getElem (by omega)⟩
  obtain ⟨hmet, hB⟩ := hi.pending (by simp [hpc]) b hb
  refine ⟨?_, ?_, ?_⟩
  · obtain ⟨c₁, c₂, c₃, c₄, c₅, c₆, c₇, c₈, c₉, c₁₀, c₁₁⟩ := h.counts
    have hleft := c₁₁ hrunning
    refine Counts.shift h.counts rfl ?_
    constructor <;> simp [State.completed, hpc, hhand, hexch, hsett, hpriv]
    all_goals omega
  · refine forall_set (s := s) rfl ?_ fun j hj => ?_
    · refine ⟨hi.id, hi.primary, fun _ => harg, hi.metSelf, by simp, fun _ => hrunning,
        by simp, by simp, ?_, by simp, by simp⟩
      rintro - o ⟨⟩
      rw [← hB, hmet.id]
      exact ⟨fun he => hmet.ne (pthreadSelf.injective he), hmet.primary⟩
    · exact (h.creatures j).congr_of_not_waiting rfl
        (h.counts.not_waiting hholds (by simp [hpc]; omega) hj)
  · intro k a hk
    rw [exchange, State.set_firsts] at hk
    rw [exchange, State.set_seconds]
    by_cases hlt : k < s.firsts.length
    · rw [List.getElem?_append_left hlt] at hk
      exact h.paired k a hk
    · obtain rfl : k = s.firsts.length := by
        have := (List.getElem?_eq_some_iff.mp hk).1
        simp only [List.length_append, List.length_singleton] at this
        omega
      obtain rfl : ⟨i, (s.creatures i).c, s.B⟩ = a := by simpa using hk
      exact ⟨b, hb, hmet.ne.symm, hB.symm, hmet.received⟩

/-- The last meeting closes the place: at that moment nobody is inside. -/
theorem Inv.of_setDone (h : Inv pthreadSelf M s) (hpc : (s.creatures i).pc = .setDone) :
    Inv pthreadSelf M ({ s with done := if s.meetingsLeft = 0 then 1 else s.done }.set i
      ((s.creatures i).at .postMutex)) := by
  have hholds : (s.creatures i).pc.holds = 1 := by simp [hpc]
  have hsett := h.counts.sum_of_holder hholds _ settling_le_holds
  simp only [hpc, Pc.settling] at hsett
  have hone := h.counts.one
  have hi := h.creatures i
  have hrunning : s.done = 0 := hi.running (by simp [hpc])
  refine ⟨?_, ?_, h.paired⟩
  · obtain ⟨c₁, c₂, c₃, c₄, c₅, c₆, c₇, c₈, c₉, c₁₀, c₁₁⟩ := h.counts
    refine Counts.shift h.counts rfl ?_
    by_cases hleft : s.meetingsLeft = 0
    · constructor <;> simp [State.completed, hpc, Creature.at, hsett, hleft]
      all_goals omega
    · constructor <;> simp [State.completed, hpc, Creature.at, hsett, hleft, hrunning]
      all_goals omega
  · refine forall_set (s := s) rfl ?_ fun j hj => ?_
    · exact ⟨hi.id, hi.primary, fun _ => hi.arg (by simp [hpc]), hi.metSelf, by simp, by simp,
        by simp [Creature.at], fun _ => hi.filled (by simp [hpc]),
        fun _ => hi.other (by simp [hpc]), by simp, by simp⟩
    · have hjl := h.creatures j
      have hquiet := h.counts.not_waiting hholds (by simp [hpc]; omega) hj
      have hzero := h.counts.holds_eq_zero hholds hj
      refine ⟨hjl.id, hjl.primary, hjl.arg, hjl.metSelf, hjl.alive, ?_, ?_, hjl.filled,
        hjl.other, fun _ => by omega, fun _ => by omega⟩
      · intro hopen
        cases hjpc : (s.creatures j).pc <;> simp [hjpc] at hopen hquiet hzero
      · intro hleaving
        have := hjl.leaving hleaving
        omega

/-! ## All steps -/

/-- The step moves creature `i` to the point `pc` and nothing else but tokens. -/
theorem Inv.moveTo (h : Inv pthreadSelf M s) (s₁ : State n) (pc : Pc) (hq : Quiet s s₁)
    {pc₀ : Pc} (hpc : (s.creatures i).pc = pc₀)
    (hl : Local pthreadSelf s i ((s.creatures i).at pc))
    (howed : ((s.creatures i).at pc).owed = (s.creatures i).owed)
    (hslots : s₁.atMostTwo + s₁.semPriv + pc.slots = s.atMostTwo + s.semPriv + pc₀.slots :=
      by rfl)
    (hmutex : s₁.mutex + s₁.semPriv + pc.holds = s.mutex + s.semPriv + pc₀.holds := by rfl)
    (hwaiting : pc.waiting + pc₀.handing + s.semPriv =
      pc₀.waiting + pc.handing + s₁.semPriv := by rfl)
    (hpending : pc.handing + s₁.semPriv + pc.exchanging =
      pc₀.handing + s.semPriv + pc₀.exchanging := by rfl)
    (hsettling : pc.settling = pc₀.settling := by rfl) :
    Inv pthreadSelf M (s₁.set i ((s.creatures i).at pc)) := by
  subst hpc
  have hmet : ((s.creatures i).at pc).met = (s.creatures i).met := rfl
  exact h.move hq (hq.balanced h.counts hslots hmutex hwaiting hpending hsettling
    (by rw [hmet, howed])) hl

theorem Inv.of_loopTest (h : Inv pthreadSelf M s) (hpc : (s.creatures i).pc = .loopTest) :
    Inv pthreadSelf M (loopTest s i (s.creatures i)) := by
  have hi := h.creatures i
  have hq := Quiet.refl s
  have hdone := h.counts.done_le
  unfold loopTest
  split
  · refine h.move hq (hq.balanced h.counts ?_ ?_ ?_ ?_ ?_ ?_) ?_
    iterate 6 simp [hpc]
    exact ⟨hi.id, hi.primary, fun _ => rfl, hi.metSelf, by simp, by simp, by simp, by simp,
      by simp, by simp, by simp⟩
  · have hleft : s.done = 1 := by omega
    exact h.moveTo s _ hq hpc (hi.moveTo _ hpc (by simp) fun _ => hleft) (by simp [hpc])

/-- What the loop body does after a meeting keeps the counters in balance. -/
theorem Inv.of_returned (h : Inv pthreadSelf M s) (hpc : (s.creatures i).pc = .returned) :
    Inv pthreadSelf M (s.set i (afterMeeting (s.creatures i))) := by
  have hi := h.creatures i
  have hq := Quiet.refl s
  unfold afterMeeting
  cases ho : (s.creatures i).otherCritter with
  | none =>
      have hdone : s.done = 1 := hi.leaving (by simp [hpc, ho])
      exact h.moveTo s _ hq hpc (hi.moveTo _ hpc (by simp) fun _ => hdone) (by simp [hpc, ho])
  | some other =>
      obtain ⟨hid, hprimary⟩ := hi.other (.inr hpc) other ho
      obtain ⟨color, hcolor, hcp⟩ := complimentColor_primary hi.primary hprimary
      have hne : (s.creatures i).critter.id ≠ other.id := by
        rw [hi.id]
        exact hid.symm
      simp only [hne, if_false, hcolor]
      refine h.move hq (hq.balanced h.counts ?_ ?_ ?_ ?_ ?_ ?_) ?_
      iterate 5 simp [hpc]
      · simp [hpc, ho]
        omega
      · exact ⟨hi.id, hcp, by simp, hi.metSelf, by simp, by simp, by simp, by simp, by simp,
          by simp, by simp⟩

/-- A call of `meeting` that found `done == 1` gives its slot back and returns NULL. -/
theorem Inv.of_postAtMostTwoDone (h : Inv pthreadSelf M s)
    (hpc : (s.creatures i).pc = .postAtMostTwoDone) :
    Inv pthreadSelf M ({ s with atMostTwo := s.atMostTwo + 1 }.set i
      { s.creatures i with pc := .returned, otherCritter := none }) := by
  have hi := h.creatures i
  have hleft : s.done = 1 := hi.leaving (by simp [hpc])
  have hq : Quiet s { s with atMostTwo := s.atMostTwo + 1 } :=
    ⟨rfl, rfl, rfl, rfl, rfl, rfl, rfl, rfl⟩
  refine h.move hq (hq.balanced h.counts ?_ ?_ ?_ ?_ ?_ ?_) ?_
  · simp [hpc]
    omega
  iterate 5 simp [hpc]
  exact ⟨hi.id, hi.primary, fun _ => hi.arg (by simp [hpc]), hi.metSelf, by simp, by simp,
    fun _ => hleft, by simp, by simp, by simp, by simp⟩

theorem Inv.of_creatureStep {s' : State n} (h : Inv pthreadSelf M s)
    (hs : creatureStep s i = some s') : Inv pthreadSelf M s' := by
  have hi := h.creatures i
  have hq := Quiet.refl s
  unfold creatureStep at hs
  cases hpc : (s.creatures i).pc <;> simp only [hpc, Option.some.injEq, reduceCtorEq] at hs
  case loopTest =>
    subst hs
    exact h.of_loopTest hpc
  case waitAtMostTwo =>
    split at hs <;> cases hs
    exact h.moveTo { s with atMostTwo := s.atMostTwo - 1 } .checkDone
      ⟨rfl, rfl, rfl, rfl, rfl, rfl, rfl, rfl⟩ hpc (hi.moveTo _ hpc) (by simp [hpc])
      (by simp; omega)
  case checkDone =>
    subst hs
    split
    · exact h.moveTo s _ hq hpc (hi.moveTo _ hpc (by simp) fun _ => ‹_›) (by simp [hpc])
    · exact h.moveTo s _ hq hpc (hi.moveTo _ hpc) (by simp [hpc])
  case waitMutex =>
    split at hs <;> cases hs
    exact h.moveTo { s with mutex := s.mutex - 1 } .recheckDone
      ⟨rfl, rfl, rfl, rfl, rfl, rfl, rfl, rfl⟩ hpc (hi.moveTo _ hpc) (by simp [hpc]) rfl
      (by simp; omega)
  case recheckDone =>
    subst hs
    have hdone := h.counts.done_le
    split
    · exact h.moveTo s _ hq hpc (hi.moveTo _ hpc (by simp) fun _ => ‹_›) (by simp [hpc])
    · exact h.moveTo s _ hq hpc (hi.moveTo _ hpc fun _ => by omega) (by simp [hpc])
  case postMutexDone =>
    subst hs
    have hleft : s.done = 1 := hi.leaving (by simp [hpc])
    exact h.moveTo { s with mutex := s.mutex + 1 } .postAtMostTwoDone
      ⟨rfl, rfl, rfl, rfl, rfl, rfl, rfl, rfl⟩ hpc
      (hi.moveTo _ hpc (by simp) fun _ => hleft) (by simp [hpc]) rfl (by simp; omega)
  case postAtMostTwoDone =>
    subst hs
    exact h.of_postAtMostTwoDone hpc
  case arrive =>
    subst hs
    unfold arrive
    split
    · exact h.of_arriveFirst hpc ‹_›
    · exact h.of_arriveSecond hpc ‹_›
  case postMutexFirst =>
    subst hs
    have hrunning : s.done = 0 := hi.running (by simp [hpc])
    exact h.moveTo { s with mutex := s.mutex + 1 } .waitSemPriv
      ⟨rfl, rfl, rfl, rfl, rfl, rfl, rfl, rfl⟩ hpc (hi.moveTo _ hpc fun _ => hrunning)
      (by simp [hpc]) rfl (by simp; omega)
  case waitSemPriv =>
    split at hs <;> cases hs
    have hrunning : s.done = 0 := hi.running (by simp [hpc])
    exact h.moveTo { s with semPriv := s.semPriv - 1 } .exchange
      ⟨rfl, rfl, rfl, rfl, rfl, rfl, rfl, rfl⟩ hpc (hi.moveTo _ hpc fun _ => hrunning)
      (by simp [hpc]) (by simp; omega) (by simp; omega) (by simp; omega) (by simp; omega)
  case exchange =>
    subst hs
    exact h.of_exchange hpc
  case setDone =>
    subst hs
    exact h.of_setDone hpc
  case postMutex =>
    subst hs
    exact h.moveTo { s with mutex := s.mutex + 1 } .postAtMostTwo
      ⟨rfl, rfl, rfl, rfl, rfl, rfl, rfl, rfl⟩ hpc (hi.moveTo _ hpc) (by simp [hpc]) rfl
      (by simp; omega)
  case postAtMostTwo =>
    subst hs
    exact h.moveTo { s with atMostTwo := s.atMostTwo + 1 } .postAtMostTwoAgain
      ⟨rfl, rfl, rfl, rfl, rfl, rfl, rfl, rfl⟩ hpc (hi.moveTo _ hpc) (by simp [hpc])
      (by simp; omega)
  case postAtMostTwoAgain =>
    subst hs
    have hfilled := hi.filled (by simp [hpc])
    have hsome := Option.isSome_iff_ne_none.mpr hfilled
    exact h.moveTo { s with atMostTwo := s.atMostTwo + 1 } .returned
      ⟨rfl, rfl, rfl, rfl, rfl, rfl, rfl, rfl⟩ hpc
      (hi.moveTo _ hpc (by simp) fun hnone => absurd hnone hfilled)
      (by simp [hpc, Creature.at, hsome]) (by simp; omega)
  case postSemPriv =>
    subst hs
    have hfilled := hi.filled (by simp [hpc])
    have hsome := Option.isSome_iff_ne_none.mpr hfilled
    exact h.moveTo { s with semPriv := s.semPriv + 1 } .returned
      ⟨rfl, rfl, rfl, rfl, rfl, rfl, rfl, rfl⟩ hpc
      (hi.moveTo _ hpc (by simp) fun hnone => absurd hnone hfilled)
      (by simp [hpc, Creature.at, hsome]) (by simp; omega) (by simp; omega) (by simp; omega)
      (by simp; omega)
  case returned =>
    subst hs
    exact h.of_returned hpc
  case waitSemPrint =>
    split at hs <;> cases hs
    have hleft : s.done = 1 := hi.leaving (by simp [hpc])
    exact h.moveTo { s with semPrint := s.semPrint - 1 } .exited
      ⟨rfl, rfl, rfl, rfl, rfl, rfl, rfl, rfl⟩ hpc
      (hi.moveTo _ hpc (by simp) fun _ => hleft) (by simp [hpc])

/-- `run_the_meetings` touches only `sem_print` and its own locals. -/
theorem mainStep_quiet {s' : State n} (hs : mainStep s = some s') :
    Quiet s s' ∧ s'.atMostTwo = s.atMostTwo ∧ s'.mutex = s.mutex ∧ s'.semPriv = s.semPriv := by
  unfold mainStep at hs
  cases hmain : s.main with
  | posting k =>
      simp only [hmain] at hs
      split at hs <;> cases hs <;>
        exact ⟨⟨rfl, rfl, rfl, rfl, rfl, rfl, rfl, rfl⟩, rfl, rfl, rfl⟩
  | joining k total =>
      simp only [hmain] at hs
      split at hs
      · split at hs <;> cases hs
        exact ⟨⟨rfl, rfl, rfl, rfl, rfl, rfl, rfl, rfl⟩, rfl, rfl, rfl⟩
      · cases hs
        exact ⟨⟨rfl, rfl, rfl, rfl, rfl, rfl, rfl, rfl⟩, rfl, rfl, rfl⟩
  | finished total => simp [hmain] at hs

theorem Inv.of_mainStep {s' : State n} (h : Inv pthreadSelf M s) (hs : mainStep s = some s') :
    Inv pthreadSelf M s' := by
  obtain ⟨hq, htwo, hmutex, hpriv⟩ := mainStep_quiet hs
  have hsum : ∀ f, s'.sum f = s.sum f := fun f => by rw [State.sum, State.sum, hq.creatures]
  obtain ⟨c₁, c₂, c₃, c₄, c₅, c₆, c₇, c₈, c₉, c₁₀, c₁₁⟩ := h.counts
  refine ⟨?_, ?_, ?_⟩
  · constructor <;> simp only [State.completed, State.metSum, State.owedSum, hsum, htwo,
      hmutex, hpriv, hq.creatures, hq.firstArrived, hq.done, hq.meetingsLeft, hq.firsts,
      hq.seconds] <;> assumption
  · intro j
    rw [hq.creatures]
    exact (h.creatures j).congr hq.done hq.slotA hq.slotB hq.firsts hq.seconds
  · rw [hq.firsts, hq.seconds]
    exact h.paired

theorem inv_initial {startingColors : Fin n → Color}
    (hcolors : ∀ i, (startingColors i).Primary) (hM : 1 ≤ M) :
    Inv pthreadSelf M (initial startingColors pthreadSelf M) := by
  refine ⟨?_, ?_, by simp [initial]⟩
  · constructor <;> simp [initial, State.sum, State.metSum, State.owedSum, State.completed,
      weight]
    omega
  · intro i
    exact ⟨rfl, hcolors i, by simp [initial], rfl, by simp [initial], by simp [initial],
      by simp [initial], by simp [initial], by simp [initial], by simp [initial],
      by simp [initial]⟩

/-- The invariant holds after every schedule. -/
theorem inv_of_reachable {startingColors : Fin n → Color}
    (hcolors : ∀ i, (startingColors i).Primary) (hM : 1 ≤ M)
    (h : (meetings startingColors pthreadSelf M).Reachable s) : Inv pthreadSelf M s := by
  apply h.invariant (inv_initial hcolors hM)
  intro s l s' hs hstep
  cases l with
  | creature i => exact hs.of_creatureStep hstep
  | main => exact hs.of_mainStep hstep

end PthreadBenchmark.Chameneos
