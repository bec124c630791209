import PthreadBenchmark.Chameneos.Preservation
import Mathlib.Data.Fin.VecNotation

/-! # Safety and progress of the meeting place -/

namespace PthreadBenchmark.Chameneos

variable {n : ℕ} {pthreadSelf : Fin n ↪ ℕ} {M : ℕ} {s : State n} {i : Fin n}

/-! ## Progress -/

/-- A creature that has not left can move unless it stands before a zero semaphore. -/
theorem creatureStep_isSome (halive : (s.creatures i).pc ≠ .aborted)
    (hleft : ¬ (s.creatures i).LeftLoop) (hblocked : ¬ s.Blocked i) :
    (creatureStep s i).isSome = true := by
  unfold creatureStep
  cases hpc : (s.creatures i).pc <;>
    simp_all [Creature.LeftLoop, State.Blocked, Nat.pos_iff_ne_zero]

theorem creatureStep_of_blocked (h : s.Blocked i) : creatureStep s i = none := by
  unfold creatureStep
  rcases h with ⟨hpc, hzero⟩ | ⟨hpc, hzero⟩ | ⟨hpc, hzero⟩ <;> simp [hpc, hzero]

/-- While the mutex is down, its holder or the creature the baton is for can move. -/
theorem Inv.exists_step_of_mutex (h : Inv pthreadSelf M s) (hmutex : s.mutex = 0) :
    ∃ j, (creatureStep s j).isSome = true := by
  have hcount := h.counts.mutex
  by_cases hpriv : s.semPriv = 0
  · have hsum : 0 < s.sum Pc.holds := by omega
    obtain ⟨j, hj⟩ := exists_of_weight_pos hsum
    refine ⟨j, creatureStep_isSome (h.creatures j).alive ?_ ?_⟩ <;>
      cases hpc : (s.creatures j).pc <;> simp_all [Creature.LeftLoop, State.Blocked]
  · have hwaiting := h.counts.waiting
    have hsum : 0 < s.sum Pc.waiting := by omega
    obtain ⟨j, hj⟩ := exists_of_weight_pos hsum
    -- Nobody holds the mutex, so the creature that waits has already released it.
    have hholds : (s.creatures j).pc.holds = 0 := by
      have : (s.creatures j).pc.holds ≤ s.sum Pc.holds := le_sum Pc.holds j
      omega
    refine ⟨j, creatureStep_isSome (h.creatures j).alive ?_ ?_⟩ <;>
      cases hpc : (s.creatures j).pc <;> simp_all [Creature.LeftLoop, State.Blocked]

/-- Inside the meeting place, only a creature that waits for its partner can be stuck
while the mutex is up. -/
theorem Inv.step_of_slots (h : Inv pthreadSelf M s) (hmutex : s.mutex ≠ 0)
    (hslots : (s.creatures i).pc.waiting < (s.creatures i).pc.slots) :
    (creatureStep s i).isSome = true := by
  refine creatureStep_isSome (h.creatures i).alive ?_ ?_ <;>
    cases hpc : (s.creatures i).pc <;> simp_all [Creature.LeftLoop, State.Blocked]

/-- A creature that finds no slot is not alone: one of the two inside can move. -/
theorem Inv.exists_step_of_full (h : Inv pthreadSelf M s) (htwo : s.atMostTwo = 0)
    (hmutex : s.mutex ≠ 0) : ∃ j, (creatureStep s j).isSome = true := by
  have hslots := h.counts.slots
  have hcount := h.counts.mutex
  have hwaiting := h.counts.waiting
  have hone := h.counts.one
  have hlt : s.sum Pc.waiting < s.sum Pc.slots := by omega
  obtain ⟨j, hj⟩ := exists_lt_of_weight_lt hlt
  exact ⟨j, h.step_of_slots hmutex hj⟩

/-- The first creature of a meeting never waits alone. -/
theorem Inv.exists_step_of_first (hn : 2 ≤ n) (h : Inv pthreadSelf M s)
    (hpc : (s.creatures i).pc = .waitSemPriv) (hmutex : s.mutex ≠ 0) :
    ∃ j, j ≠ i ∧ (creatureStep s j).isSome = true := by
  have hslots := h.counts.slots
  have hcount := h.counts.mutex
  have hwaiting := h.counts.waiting
  have hone := h.counts.one
  have hrunning : s.done = 0 := (h.creatures i).running (by simp [hpc])
  have halone : ∀ j, j ≠ i → (s.creatures j).pc.waiting = 0 := by
    intro j hj
    have hle : (s.creatures j).pc.waiting + (s.creatures i).pc.waiting ≤ s.sum Pc.waiting :=
      add_le_weight (fun c : Creature => c.pc.waiting) s.creatures hj
    simp only [hpc, Pc.waiting] at hle ⊢
    omega
  by_cases htwo : s.atMostTwo = 0
  · have hlt : (s.creatures i).pc.slots < s.sum Pc.slots := by
      simp only [hpc, Pc.slots]
      omega
    obtain ⟨j, hj, hpos⟩ := exists_ne_of_lt_weight (f := fun c : Creature => c.pc.slots) hlt
    exact ⟨j, hj, h.step_of_slots hmutex (by rw [halone j hj]; exact hpos)⟩
  · have : Nontrivial (Fin n) := Fin.nontrivial_iff_two_le.mpr hn
    obtain ⟨j, hj⟩ := exists_ne i
    have hjw := halone j hj
    have hleaving : ¬ (s.creatures j).Leaving := fun hl => by
      have := (h.creatures j).leaving hl
      omega
    refine ⟨j, hj, creatureStep_isSome (h.creatures j).alive ?_ ?_⟩ <;>
      cases hjpc : (s.creatures j).pc <;> simp_all [Creature.LeftLoop, State.Blocked]

/-- A blocked creature always has another one that can move. -/
theorem Inv.exists_step (hn : 2 ≤ n) (h : Inv pthreadSelf M s) (hb : s.Blocked i) :
    ∃ j, j ≠ i ∧ (creatureStep s j).isSome = true := by
  have hne : ∀ j, (creatureStep s j).isSome = true → j ≠ i := by
    rintro j hj rfl
    simp [creatureStep_of_blocked hb] at hj
  by_cases hmutex : s.mutex = 0
  · obtain ⟨j, hj⟩ := h.exists_step_of_mutex hmutex
    exact ⟨j, hne j hj, hj⟩
  · rcases hb with ⟨-, htwo⟩ | ⟨-, hzero⟩ | ⟨hpc, -⟩
    · obtain ⟨j, hj⟩ := h.exists_step_of_full htwo hmutex
      exact ⟨j, hne j hj, hj⟩
    · exact absurd hzero hmutex
    · exact h.exists_step_of_first hn hpc hmutex

/-! ## The final count -/

/-- When all creatures have left, every exchange has been counted on both sides. -/
theorem Inv.metSum_of_left (hn : 2 ≤ n) (h : Inv pthreadSelf M s)
    (hleft : ∀ i, (s.creatures i).LeftLoop) : s.metSum = 2 * M := by
  have hzero : ∀ f : Pc → ℕ, f .waitSemPrint = 0 → f .exited = 0 → s.sum f = 0 := by
    intro f hprint hexited
    rw [State.sum, weight_eq_zero_iff]
    intro i
    rcases hleft i with hpc | hpc <;> simp [hpc, hprint, hexited]
  have howed : s.owedSum = 0 := by
    rw [State.owedSum, weight_eq_zero_iff]
    intro i
    rcases hleft i with hpc | hpc <;> simp [hpc]
  have hhand := hzero Pc.handing rfl rfl
  have hexch := hzero Pc.exchanging rfl rfl
  have hwait := hzero Pc.waiting rfl rfl
  have hdone : s.done = 1 := by
    refine (h.creatures ⟨0, by omega⟩).leaving ?_
    rcases hleft ⟨0, by omega⟩ with hpc | hpc <;> simp [hpc]
  have hcompleted := h.counts.left
  rw [h.counts.left_of_done hdone, State.completed] at hcompleted
  have hwaiting := h.counts.waiting
  have hseconds := h.counts.seconds
  have hmet := h.counts.met
  omega

/-- For every number of creatures and of meetings and every interleaving: the meetings
made and those left add up, the semaphores stay in range, each meeting joins two
different creatures that receive each other's data, the final counts are right, and a
creature blocked in `meeting` is never the only hope of the others. -/
theorem meetings_correct (hn : 2 ≤ n) (startingColors : Fin n → Color)
    (hcolors : ∀ i, (startingColors i).Primary) (pthreadSelf : Fin n ↪ ℕ) (M : ℕ)
    (hM : 1 ≤ M) (s : State n) (h : (meetings startingColors pthreadSelf M).Reachable s) :
    ((s.completed : ℤ) + s.meetingsLeft = M ∧
      s.atMostTwo ≤ 2 ∧ s.mutex ≤ 1 ∧ s.semPriv ≤ 1) ∧
    (∀ k < s.completed, ∃ a b, s.firsts[k]? = some a ∧ s.seconds[k]? = some b ∧
      a.who ≠ b.who ∧ a.received = b.entered ∧ b.received = a.entered) ∧
    ((∀ i, (s.creatures i).LeftLoop) →
      ∑ i, ((s.creatures i).metOthers + (s.creatures i).metSelf) = 2 * M ∧
        ∀ i, (s.creatures i).metSelf = 0) ∧
    (∀ i, s.Blocked i → ∃ j, j ≠ i ∧
      (meetings startingColors pthreadSelf M).Enabled s (.creature j)) := by
  have hinv := inv_of_reachable hcolors hM h
  have hslots := hinv.counts.slots
  have hmutex := hinv.counts.mutex
  refine ⟨⟨hinv.counts.left, by omega, by omega, by omega⟩, ?_, ?_, ?_⟩
  · intro k hk
    obtain ⟨b, hb, hab⟩ := hinv.paired k _ (List.getElem?_eq_getElem hk)
    exact ⟨_, b, List.getElem?_eq_getElem hk, hb, hab.ne, hab.firstGot, hab.secondGot⟩
  · intro hleft
    exact ⟨hinv.metSum_of_left hn hleft, fun i => (hinv.creatures i).metSelf⟩
  · intro i hb
    exact hinv.exists_step hn hb

/-- The only meeting of two creatures, up to the end of both loops. -/
def twoRun : Option (State 2) :=
  (meetings ![.blue, .red] Fin.valEmbedding 1).exec (initial ![.blue, .red] Fin.valEmbedding 1)
    (List.replicate 7 (Thread.creature 0) ++ List.replicate 8 (Thread.creature 1) ++
      List.replicate 8 (Thread.creature 0) ++ [Thread.creature 1])

theorem meetings_correct_two :
    ∃ s, (meetings ![.blue, .red] Fin.valEmbedding 1).Reachable s ∧
      (∀ i, (s.creatures i).LeftLoop) ∧
      ∑ i, ((s.creatures i).metOthers + (s.creatures i).metSelf) = 2 * 1 := by
  have hrun : twoRun.isSome = true := by decide
  have hreach := System.Reachable.init.exec (Option.some_get hrun).symm
  have hleft : ∀ i, ((twoRun.get (by decide)).creatures i).LeftLoop := by decide
  exact ⟨_, hreach, hleft, ((meetings_correct le_rfl ![.blue, .red] (by decide)
    Fin.valEmbedding 1 le_rfl _ hreach).2.2.1 hleft).1⟩

end PthreadBenchmark.Chameneos
