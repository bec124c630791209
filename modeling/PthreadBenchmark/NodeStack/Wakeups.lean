import PthreadBenchmark.NodeStack.Trace
import PthreadBenchmark.Shared.PthreadRest

/-! # No node is left behind

Each node is signalled, so while a consumer sleeps there is for each node a consumer that is awake.
When the producers pause, the consumers take all nodes, give them back and go to sleep. -/

namespace PthreadBenchmark.NodeStack

open Pthread

variable {consumers producers : ℕ} {malloc : Malloc (Node ℕ)} {s : Shared consumers producers}
  {p : Point consumers producers} {l : List (ℕ × ℕ)} {id : Fin consumers}
  {point : ConsumePoint} {target : Option (Tid consumers producers)}
  {c c' : Config (Tid consumers producers) (Shared consumers producers)
    (Point consumers producers) Mutex Cond}

/-! ## Sleepers -/

/-- How many numbers have been printed by producers and not by consumers. -/
def pending (s : Shared consumers producers) : ℕ := ((replay s.printed).getD []).length

/-- The threads that are awake and will look for nodes, or will wake one that does. -/
def awake : Point consumers producers → ℕ
  | .consume _ _ | .produce _ (.signal _) => 1
  | _ => 0

theorem pending_append {e : Event consumers producers} {stack stack' : List ℕ}
    (h : replay s.printed = some stack) (happly : apply stack e = some stack') :
    pending s = stack.length ∧
      pending { s with printed := s.printed ++ [e] } = stack'.length := by
  simp only [pending, replay_append, h, Option.bind_some, happly]
  exact ⟨rfl, rfl⟩

theorem Sound.pays {ps : Tid consumers producers → Point consumers producers}
    {i : Tid consumers producers} (h : Sound s ps l) (halone : Alone inside Resting ps i) :
    Pays .cond pending awake s (ps i) (code malloc s (ps i)) := by
  have hvalid := h.valid i
  have hfits := h.fits i
  have hreplay := h.replay_eq halone
  cases hp : ps i with
  | consume id point =>
      rw [hp] at hvalid hfits hreplay
      cases point with
      | lock | unlock | load => exact le_rfl
      | test =>
          rw [code_test]
          split <;> exact le_rfl
      | printWait =>
          have hempty := hreplay trivial fun hmid => hmid
          rw [h.list_eq_nil hfits] at hempty
          obtain ⟨hpending, hnext⟩ := pending_append (e := .consumeWait id) hempty rfl
          exact Nat.add_le_add_right (hnext.trans hpending.symm).le 1
      | wait =>
          have hempty := hreplay trivial fun hmid => hmid
          rw [h.list_eq_nil hfits] at hempty
          have hpending : pending s = 0 := by
            rw [pending, hempty]
            rfl
          exact ⟨hpending, le_rfl⟩
      | advance p =>
          obtain ⟨node, hnode⟩ := hvalid
          rw [code_advance hnode]
          exact le_rfl
      | print p =>
          obtain ⟨a, x, next, rfl, hcell, hstack⟩ := hfits
          have hnode : node? s (some a) = some ⟨x, next⟩ := hcell
          rw [code_printConsumed hnode]
          obtain ⟨hpending, hnext⟩ := pending_append hstack (apply_consumed id x _)
          simp only [Pays, hpending, hnext, List.length_cons]
          exact Nat.add_le_add_right (Nat.le_succ _) 1
      | free p =>
          cases p with
          | none => exact le_rfl
          | some a =>
              obtain ⟨node, hnode⟩ := hvalid
              rw [code_free hnode]
              exact le_rfl
      | crashed => trivial
  | produce id point =>
      rw [hp] at hvalid hfits hreplay
      cases point with
      | lock | unlock | malloc | head | signal => exact le_rfl
      | num a i =>
          obtain ⟨node, hnode⟩ := hvalid
          rw [code_store hnode rfl]
          exact le_rfl
      | next a i =>
          obtain ⟨node, hnode⟩ := hvalid
          rw [code_store hnode rfl]
          exact le_rfl
      | print a i =>
          obtain ⟨node, hnode⟩ := hvalid
          obtain ⟨rest, rfl, hstack⟩ := hfits
          rw [code_printProduced hnode]
          obtain ⟨hpending, hnext⟩ := pending_append (e := .produced id node.data) hstack rfl
          simp only [Pays, hpending, hnext, List.length_cons]
          exact le_rfl
      | crashed => trivial

theorem covered_of_program (h : (program malloc consumers producers).Reachable c) :
    Covered .cond pending awake c.shared c.threads := by
  refine covered_of_pays (fun c hc i p hi => ?_) h
  obtain ⟨howned, l, hsound⟩ := sound_of_reachable hc
  obtain rfl : points c i = p := points_of_running hi
  exact hsound.pays (howned.alone
    (waits_of_reachable (fun _ _ _ _ _ hop => resting_of_wait hop) hc) hi)

/-! ## The consumers on their own -/

/-- How far a consumer is from its wait. -/
def rank : Point consumers producers → ℕ
  | .consume _ (.unlock _) => 10
  | .consume _ (.free _) => 9
  | .consume _ .lock => 8
  | .consume _ .test => 7
  | .consume _ .load => 6
  | .consume _ (.advance _) => 5
  | .consume _ (.print _) => 4
  | .consume _ .printWait => 2
  | .consume _ .wait => 1
  | _ => 0

theorem Sound.lowers {ps : Tid consumers producers → Point consumers producers}
    (h : Sound c.shared ps l) (halone : Alone inside Resting ps (.inl id))
    (hp : ps (.inl id) = .consume id point) :
    Lowers rank (fun _ => 0) (fun s => 7 * pending s) c (.consume id point)
      (code malloc c.shared (.consume id point)) := by
  have hvalid := h.valid (.inl id)
  have hfits := h.fits (.inl id)
  have hreplay := h.replay_eq halone
  rw [hp] at hvalid hfits hreplay
  cases point with
  | lock | unlock | wait => simp [code, consume, Op.map, Lowers, rank]
  | test =>
      rw [code_test]
      refine Nat.add_lt_add_left ?_ _
      split <;> simp [rank]
  | printWait =>
      have hempty := hreplay trivial fun hmid => hmid
      rw [h.list_eq_nil hfits] at hempty
      obtain ⟨hpending, hnext⟩ := pending_append (e := .consumeWait id) hempty rfl
      refine Nat.add_lt_add_of_le_of_lt ?_ Nat.one_lt_two
      exact Nat.mul_le_mul_left 7 (hnext.trans hpending.symm).le
  | load => exact Nat.add_lt_add_left (Nat.lt_succ_self 5) _
  | advance p =>
      obtain ⟨node, hnode⟩ := hvalid
      rw [code_advance hnode]
      exact Nat.add_lt_add_left (Nat.lt_succ_self 4) _
  | print p =>
      obtain ⟨a, x, next, rfl, hcell, hstack⟩ := hfits
      have hnode : node? c.shared (some a) = some ⟨x, next⟩ := hcell
      rw [code_printConsumed hnode]
      obtain ⟨hpending, hnext⟩ := pending_append hstack (apply_consumed id x _)
      simp only [Lowers, hpending, hnext, List.length_cons, rank]
      omega
  | free p =>
      cases p with
      | none => exact Nat.add_lt_add_left (Nat.lt_succ_self 8) _
      | some a =>
          obtain ⟨node, hnode⟩ := hvalid
          rw [code_free hnode]
          exact Nat.add_lt_add_left (Nat.lt_succ_self 8) _
  | crashed => trivial

theorem running_of_owner {i : Tid consumers producers} (howned : Owned inside c)
    (hown : c.owner .mutex = some i) : ∃ p, c.threads i = .running p ∧ inside p .mutex := by
  have hholds := (howned.owner i .mutex).mp hown
  cases ht : c.threads i with
  | running p =>
      rw [ht] at hholds
      exact ⟨p, rfl, hholds⟩
  | asleep k m q | woken m q =>
      rw [ht] at hholds
      cases m
      exact absurd rfl hholds.1

/-- A running consumer goes on, unless it wants the mutex and another thread has it. -/
theorem exists_step (howned : Owned inside c) (hvalid : Valid c.shared (.consume id point))
    (hi : c.threads (.inl id) = .running (.consume id point))
    (hlock : point = .lock → c.owner .mutex = none) (hcrashed : point ≠ .crashed) :
    ∃ c', step (code malloc) c (.run (.inl id) none) = some c' := by
  have hown : insideConsume point .mutex → c.owner .mutex = some (.inl id) :=
    fun hin => howned.owner_of_inside hi hin
  cases point with
  | lock => exact ⟨_, step_lock hi rfl (hlock rfl)⟩
  | test => exact ⟨_, step_run hi (code_test id)⟩
  | printWait | load => exact ⟨_, step_run hi rfl⟩
  | wait => exact ⟨_, step_wait hi rfl (hown trivial)⟩
  | advance p =>
      obtain ⟨node, hnode⟩ := hvalid
      exact ⟨_, step_run hi (code_advance hnode)⟩
  | print p =>
      obtain ⟨node, hnode⟩ := hvalid
      exact ⟨_, step_run hi (code_printConsumed hnode)⟩
  | unlock p => exact ⟨_, step_unlock hi rfl (hown trivial)⟩
  | free p =>
      cases p with
      | none => exact ⟨_, step_run hi rfl⟩
      | some a =>
          obtain ⟨node, hnode⟩ := hvalid
          exact ⟨_, step_run hi (code_free hnode)⟩
  | crashed => exact absurd rfl hcrashed

/-- All consumers sleep. -/
def AllAsleep (c : Config (Tid consumers producers) (Shared consumers producers)
    (Point consumers producers) Mutex Cond) : Prop :=
  ∀ id, AsleepOn .cond (c.threads (.inl id))

/-- No producer is between its lock and its unlock. -/
def Paused (c : Config (Tid consumers producers) (Shared consumers producers)
    (Point consumers producers) Mutex Cond) : Prop :=
  ∀ id, ¬ inside (points c (.inr id)) .mutex

theorem Paused.step (h : Paused c)
    (hs : step (code malloc) c (.run (.inl id) target) = some c') : Paused c' := by
  intro id'
  rcases project_of_run hs with ⟨hpoints, -⟩ | ⟨q, -, -, hpoints, -⟩
  · rw [hpoints]
    exact h id'
  · rw [hpoints, Function.update_of_ne Sum.inr_ne_inl]
    exact h id'

/-- A consumer that is awake can go on, if it is inside of the mutex or no thread is. -/
theorem exists_step_of_awake (hc : (program malloc consumers producers).Reachable c)
    (hi : ¬ AsleepOn .cond (c.threads (.inl id)))
    (hmutex : c.owner .mutex = some (.inl id) ∨ c.owner .mutex = none) :
    ∃ c', step (code malloc) c (.run (.inl id) none) = some c' := by
  obtain ⟨howned, l, hsound⟩ := sound_of_reachable hc
  have hid := hsound.tid (.inl id)
  have hvalid := hsound.valid (.inl id)
  have hfits := hsound.fits (.inl id)
  cases ht : c.threads (.inl id) with
  | asleep k m q =>
      rw [ht] at hi
      cases k
      exact absurd rfl hi
  | woken m q =>
      refine ⟨_, step_relock ht ?_⟩
      rcases hmutex with hown | hfree
      · obtain ⟨p, hp, -⟩ := running_of_owner howned hown
        rw [ht] at hp
        cases hp
      · cases m
        exact hfree
  | running p =>
      rw [points_of_running ht] at hid hvalid hfits
      cases p with
      | produce id' point => cases hid
      | consume id' point =>
          cases hid
          refine exists_step howned hvalid ht ?_ ?_
          · rintro rfl
            rcases hmutex with hown | hfree
            · obtain ⟨p, hp, hin⟩ := running_of_owner howned hown
              rw [ht] at hp
              cases hp
              exact hin.elim
            · exact hfree
          · rintro rfl
            exact hfits

/-- As long as a consumer is awake some consumer can go on. -/
theorem exists_consumer_step (hc : (program malloc consumers producers).Reachable c)
    (hpaused : Paused c) (hawake : ¬ AllAsleep c) :
    ∃ id c', step (code malloc) c (.run (.inl id) none) = some c' := by
  obtain ⟨howned, l, hsound⟩ := sound_of_reachable hc
  cases hown : c.owner .mutex with
  | none =>
      obtain ⟨id, hid⟩ := not_forall.mp hawake
      obtain ⟨c', hc'⟩ := exists_step_of_awake hc hid (.inr hown)
      exact ⟨id, c', hc'⟩
  | some i =>
      obtain ⟨p, ht, hin⟩ := running_of_owner howned hown
      cases i with
      | inr id =>
          have hout := hpaused id
          rw [points_of_running ht] at hout
          exact absurd hin hout
      | inl id =>
          have hid : ¬ AsleepOn .cond (c.threads (.inl id)) := by
            rw [ht]
            exact fun hasleep => hasleep
          obtain ⟨c', hc'⟩ := exists_step_of_awake hc hid (.inl hown)
          exact ⟨id, c', hc'⟩

/-- How much the consumers have left to do. -/
def work (c : Config (Tid consumers producers) (Shared consumers producers)
    (Point consumers producers) Mutex Cond) : ℕ :=
  7 * pending c.shared + weight (restRank rank fun _ => 0) c.threads

/-- The consumers have `n` left to do, while the producers pause. -/
def Left (malloc : Malloc (Node ℕ)) (c : Config (Tid consumers producers)
    (Shared consumers producers) (Point consumers producers) Mutex Cond) (n : ℕ) : Prop :=
  (program malloc consumers producers).Reachable c ∧ Paused c ∧ work c = n

theorem lt_of_consumer_step (hc : (program malloc consumers producers).Reachable c)
    (hs : step (code malloc) c (.run (.inl id) target) = some c') :
    work c' < work c := by
  obtain ⟨howned, l, hsound⟩ := sound_of_reachable hc
  have hid := hsound.tid (.inl id)
  have hlower : ∀ p, c.threads (.inl id) = .running p →
      Lowers rank (fun _ => 0) (fun s => 7 * pending s) c p (code malloc c.shared p) := by
    intro p hp
    rw [points_of_running hp] at hid
    have halone := howned.alone
      (waits_of_reachable (fun _ _ _ _ _ hop => resting_of_wait hop) hc) hp
    cases p with
    | produce id' point => cases hid
    | consume id' point =>
        cases hid
        exact hsound.lowers halone (points_of_running hp)
  exact lt_of_step hlower hs

/-- Where all consumers sleep and no producer is at work there are no nodes. -/
theorem empty_of_asleep (hconsumers : 0 < consumers)
    (hc : (program malloc consumers producers).Reachable c) (hpaused : Paused c)
    (hasleep : AllAsleep c) : c.shared.head = none ∧ ∀ a, c.shared.heap.cells a = none := by
  obtain ⟨-, l, hsound⟩ := sound_of_reachable hc
  have hwaits := waits_of_reachable (W := fun _ _ q => Resting q)
    (fun _ _ _ _ _ hop => resting_of_wait hop) hc
  have hpoint : ∀ id, points c (.inl id) = .consume id .test := by
    intro id
    obtain ⟨m, q, ht⟩ := exists_asleep (hasleep id)
    have hq := hwaits (.inl id)
    have hid := hsound.tid (.inl id)
    rw [ht] at hq
    rw [points_of_asleep ht] at hid ⊢
    cases q with
    | produce id' point => cases hid
    | consume id' point =>
        cases hid
        obtain rfl : point = .test := hq
        rfl
  have hlock : ∀ id, own (points c (.inr id)) = none ∧ ¬ Midway (points c (.inr id)) ∧
      awake (points c (.inr id)) = 0 := by
    intro id
    have hout := hpaused id
    have hid := hsound.tid (.inr id)
    cases hp : points c (.inr id) with
    | consume id' point =>
        rw [hp] at hid
        cases hid
    | produce id' point =>
        rw [hp] at hout
        cases point with
        | lock i => exact ⟨rfl, fun hmid => hmid, rfl⟩
        | crashed => exact ⟨rfl, fun hmid => hmid, rfl⟩
        | _ => exact absurd trivial hout
  have hnodes : replay c.shared.printed = some (l.map Prod.snd) := by
    refine hsound.stack fun i => ?_
    cases i with
    | inl id =>
        rw [hpoint id]
        exact fun hmid => hmid
    | inr id => exact (hlock id).2.1
  have hweight : weight (credit awake) c.threads = 0 := by
    rw [weight_eq_zero_iff]
    intro i
    cases i with
    | inl id =>
        obtain ⟨m, q, ht⟩ := exists_asleep (hasleep id)
        rw [ht]
        rfl
    | inr id =>
        have hle := credit_le_point awake (c.threads (.inr id))
        have hzero : awake (point (c.threads (.inr id))) = 0 := (hlock id).2.2
        omega
  have hpending := (covered_of_program hc).need_le (hasleep ⟨0, hconsumers⟩)
  have hl : l = [] := by
    rw [hweight, pending, hnodes, Option.getD_some, List.length_map] at hpending
    exact List.length_eq_zero_iff.mp (Nat.le_zero.mp hpending)
  subst hl
  refine ⟨hsound.divided.chain, fun a => ?_⟩
  by_contra hcell
  rcases (hsound.divided.allocated a).mp hcell with hmem | ⟨i, hown⟩
  · cases hmem
  · cases i with
    | inl id =>
        rw [hpoint id] at hown
        cases hown
    | inr id =>
        rw [(hlock id).1] at hown
        cases hown

/-! ## Results -/

/-- While the producers pause, the consumers alone go on until they have taken and freed all nodes
and all sleep. -/
theorem consumers_drain (hconsumers : 0 < consumers)
    (hc : (program malloc consumers producers).Reachable c) (hpaused : Paused c) :
    ∃ ls c', (∀ a ∈ ls, ∃ id, a = .run (.inl id) none) ∧
      (program malloc consumers producers).exec c ls = some c' ∧ AllAsleep c' ∧
      c'.shared.head = none ∧ ∀ a, c'.shared.heap.cells a = none := by
  have hstep : ∀ c n, Left malloc c n → ¬ (AllAsleep c ∧ ∃ n, Left malloc c n) →
      ∃ a c' n', (∃ id, a = .run (.inl id) none) ∧
        (program malloc consumers producers).step c a = some c' ∧ Left malloc c' n' ∧ n' < n := by
    rintro c n ⟨hc, hpaused, rfl⟩ hawake
    obtain ⟨id, c', hs⟩ := exists_consumer_step hc hpaused
      fun hasleep => hawake ⟨hasleep, _, hc, hpaused, rfl⟩
    have hstep : (program malloc consumers producers).step c (.run (.inl id) none) = some c' := hs
    exact ⟨_, c', _, ⟨id, rfl⟩, hstep, ⟨hc.step _ hstep, hpaused.step hs, rfl⟩,
      lt_of_consumer_step hc hs⟩
  obtain ⟨ls, c', hls, hexec, hasleep, n, hc', hpaused', -⟩ :=
    System.exists_exec_final hstep ⟨hc, hpaused, rfl⟩
  exact ⟨ls, c', hls, hexec, hasleep, empty_of_asleep hconsumers hc' hpaused' hasleep⟩

/-- The two consumers take the two nodes of the two producers. -/
theorem consumers_drain_two : ∃ c, (program (bumpMalloc _) 2 2).Reachable c ∧
    c.shared.printed = [.produced 0 0, .produced 1 0] ∧
    ∃ ls c', (program (bumpMalloc _) 2 2).exec c ls = some c' ∧ AllAsleep c' ∧
      c'.shared.head = none := by
  have htrace : IsTrace [(.produced 0 0 : Event 2 2), .produced 1 0] := ⟨rfl, by decide⟩
  obtain ⟨c, hc, hready, hprinted⟩ := exists_ready (bumpMalloc _) htrace
  have hpaused : Paused c := by
    intro id
    obtain ⟨i, hi⟩ := hready.produce id
    rw [points_of_running hi]
    exact fun hin => hin
  obtain ⟨ls, c', -, hexec, hasleep, hhead, -⟩ := consumers_drain (by decide) hc hpaused
  exact ⟨c, hc, hprinted, ls, c', hexec, hasleep, hhead⟩

end PthreadBenchmark.NodeStack
