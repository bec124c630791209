import PthreadBenchmark.PingPong.View

/-! # The threads take turns -/

namespace PthreadBenchmark.PingPong

open Pthread

variable {maxCount i : ℕ} {who : Player} {c c' : Config Player Shared Point Mutex Cond}

/-! ## The game -/

/-- What both threads have printed after `n` rounds. -/
def exchange (n : ℕ) : List Line :=
  (List.range n).flatMap fun i => [.ping (i + 1), .pong (i + 1)]

theorem exchange_succ (n : ℕ) :
    exchange (n + 1) = exchange n ++ [.ping (n + 1), .pong (n + 1)] := by
  simp [exchange, List.range_succ]

theorem exchange_prefix {m n : ℕ} (h : m ≤ n) : exchange m <+: exchange n := by
  induction n, h using Nat.le_induction with
  | base => exact List.prefix_rfl
  | succ n _ ih =>
      rw [exchange_succ]
      exact ih.trans (List.prefix_append _ _)

/-- What a thread does in its turn. -/
inductive Stage where
  | woken
  | prints
  | signals
  | tests

/-- How far the game is: the start, where `ping` has to come first, the turns of both, in
which a thread prints its line `i + 1`, and the end. -/
inductive Phase where
  | idle
  | pongTests
  | pongRetries
  | pingSets
  | pingWaits
  | pingSleeps
  | pongSees
  | pongSignals
  | pongWaits
  | turn (who : Player) (i : ℕ) (stage : Stage)
  | done

/-- The lines before the turn. -/
def before : Player → ℕ → List Line
  | .ping, i => exchange i
  | .pong, i => exchange i ++ [.ping (i + 1)]

def asleep (p : Point) : State := .asleep .thrCond .thrCondLock p

def woken (p : Point) : State := .woken .thrCondLock p

/-- The thread that does not have the turn: `ping` exits after its last turn. -/
def partner (maxCount : ℕ) : Player → ℕ → State
  | .ping, i => asleep (.print .pong i)
  | .pong, i => if i + 1 = maxCount then .running (.exited .ping) else asleep (.print .ping (i + 1))

/-- The phase, from the side of the thread that goes on. -/
def Phase.view (maxCount : ℕ) : Phase → View
  | .idle => ⟨.ping, none, ⟨.pingInit, []⟩, .running .pingLock, .running .pongLock⟩
  | .pongTests => ⟨.pong, some .pong, ⟨.pingInit, []⟩, .running .pongTest, .running .pingLock⟩
  | .pongRetries => ⟨.pong, some .pong, ⟨.pingInit, []⟩, .running .pongUnlock, .running .pingLock⟩
  | .pingSets => ⟨.ping, some .ping, ⟨.pingInit, []⟩, .running .pingReady, .running .pongLock⟩
  | .pingWaits => ⟨.ping, some .ping, ⟨.pingReady, []⟩, .running .pingWait, .running .pongLock⟩
  | .pingSleeps => ⟨.pong, none, ⟨.pingReady, []⟩, .running .pongLock, asleep (.print .ping 0)⟩
  | .pongSees => ⟨.pong, some .pong, ⟨.pingReady, []⟩, .running .pongTest, asleep (.print .ping 0)⟩
  | .pongSignals =>
    ⟨.pong, some .pong, ⟨.pingReady, []⟩, .running .pongSignal, asleep (.print .ping 0)⟩
  | .pongWaits =>
    ⟨.pong, some .pong, ⟨.pingReady, []⟩, .running .pongWait, woken (.print .ping 0)⟩
  | .turn who i .woken =>
    ⟨who, none, ⟨.pingReady, before who i⟩, woken (.print who i), partner maxCount who i⟩
  | .turn who i .prints =>
    ⟨who, some who, ⟨.pingReady, before who i⟩, .running (.print who i), partner maxCount who i⟩
  | .turn who i .signals =>
    ⟨who, some who, ⟨.pingReady, before who i ++ [line who (i + 1)]⟩,
      .running (.signal who (i + 1)), partner maxCount who i⟩
  | .turn who i .tests =>
    ⟨who, some who, ⟨.pingReady, before who i ++ [line who (i + 1)]⟩,
      .running (.test who (i + 1)), wake .thrCond (partner maxCount who i)⟩
  | .done =>
    ⟨.ping, none, ⟨.pingReady, exchange maxCount⟩, .running (.exited .ping),
      .running (.exited .pong)⟩

def Phase.next (maxCount : ℕ) : Phase → Phase
  | .idle => .pingSets
  | .pongTests => .pongRetries
  | .pongRetries => .idle
  | .pingSets => .pingWaits
  | .pingWaits => .pingSleeps
  | .pingSleeps => .pongSees
  | .pongSees => .pongSignals
  | .pongSignals => .pongWaits
  | .pongWaits => .turn .ping 0 .woken
  | .turn who i .woken => .turn who i .prints
  | .turn who i .prints => .turn who i .signals
  | .turn who i .signals => .turn who i .tests
  | .turn .ping i .tests => .turn .pong i .woken
  | .turn .pong i .tests => if i + 1 = maxCount then .done else .turn .ping (i + 1) .woken
  | .done => .done

/-- A turn belongs to one of the rounds. -/
def Phase.Valid (maxCount : ℕ) : Phase → Prop
  | .turn _ i _ => i < maxCount
  | _ => True

/-- The number of steps to the end, if `pong` does not spin. -/
def Phase.rank (maxCount : ℕ) : Phase → ℕ
  | .idle => 8 * maxCount + 7
  | .pongTests => 8 * maxCount + 9
  | .pongRetries => 8 * maxCount + 8
  | .pingSets => 8 * maxCount + 6
  | .pingWaits => 8 * maxCount + 5
  | .pingSleeps => 8 * maxCount + 4
  | .pongSees => 8 * maxCount + 3
  | .pongSignals => 8 * maxCount + 2
  | .pongWaits => 8 * maxCount + 1
  | .turn who i stage =>
    8 * (maxCount - (i + 1)) + (match who with | .ping => 4 | .pong => 0) +
      (match stage with | .woken => 4 | .prints => 3 | .signals => 2 | .tests => 1)
  | .done => 0

variable {φ : Phase}

theorem Phase.Valid.next (hcount : 1 ≤ maxCount) (h : φ.Valid maxCount) :
    (φ.next maxCount).Valid maxCount := by
  cases φ with
  | pongWaits => exact hcount
  | turn who i stage =>
      cases stage with
      | tests =>
          cases who with
          | ping => exact h
          | pong =>
              have hlt : i < maxCount := h
              simp only [Phase.next]
              split
              · trivial
              · change i + 1 < maxCount
                omega
      | _ => exact h
  | _ => trivial

theorem Phase.rank_next (hcount : 1 ≤ maxCount) (h : φ.Valid maxCount) (hdone : φ ≠ .done) :
    (φ.next maxCount).rank maxCount < φ.rank maxCount := by
  cases φ with
  | done => exact absurd rfl hdone
  | turn who i stage =>
      have hlt : i < maxCount := h
      cases stage with
      | tests =>
          cases who with
          | ping => simp [Phase.next, Phase.rank]
          | pong =>
              simp only [Phase.next]
              split
              · simp [Phase.rank]
              · simp only [Phase.rank]
                omega
      | _ => simp [Phase.next, Phase.rank]
  | pongWaits =>
      simp only [Phase.next, Phase.rank]
      omega
  | _ => simp [Phase.next, Phase.rank]

/-! ## The program plays the game -/

/-- The configuration is in this phase. -/
def InPhase (maxCount : ℕ) (c : Config Player Shared Point Mutex Cond) (φ : Phase) : Prop :=
  Shows c (φ.view maxCount)

theorem exchange_eq (n : ℕ) : before .pong n ++ [line .pong (n + 1)] = exchange (n + 1) := by
  rw [exchange_succ, before, List.append_assoc]
  rfl

theorem step_last {s : Shared} {t : State} (hlast : i = maxCount) :
    View.step maxCount ⟨who, some who, s, .running (.test who i), t⟩ =
      some ⟨who, none, s, .running (.exited who), t⟩ := by
  simp only [View.step, code, if_pos hlast, if_true]

theorem step_wait {s : Shared} {t : State} (hlast : i ≠ maxCount) :
    View.step maxCount ⟨who, some who, s, .running (.test who i), t⟩ =
      some ⟨who, none, s, asleep (.print who i), t⟩ := by
  simp only [View.step, code, if_neg hlast, if_true, asleep]

/-- The thread that goes on leads to the next phase, which may be the turn of the other one. -/
theorem view_step (maxCount : ℕ) (hdone : φ ≠ .done) :
    ∃ v, (φ.view maxCount).step maxCount = some v ∧
      (v = (φ.next maxCount).view maxCount ∨ v.swap = (φ.next maxCount).view maxCount) := by
  cases φ with
  | done => exact absurd rfl hdone
  | pongRetries | pingWaits | pongWaits => exact ⟨_, rfl, .inr rfl⟩
  | idle | pongTests | pingSets | pingSleeps | pongSees | pongSignals => exact ⟨_, rfl, .inl rfl⟩
  | turn who i stage =>
      cases stage with
      | woken | prints | signals => exact ⟨_, rfl, .inl rfl⟩
      | tests =>
          cases who with
          | ping =>
              by_cases hlast : i + 1 = maxCount
              · refine ⟨_, step_last hlast, .inr ?_⟩
                simp only [Phase.next, Phase.view, partner, if_pos hlast]
                rfl
              · refine ⟨_, step_wait hlast, .inr ?_⟩
                simp only [Phase.next, Phase.view, partner, if_neg hlast]
                rfl
          | pong =>
              by_cases hlast : i + 1 = maxCount
              · refine ⟨_, step_last hlast, .inr ?_⟩
                simp only [Phase.next, Phase.view, View.swap, partner, if_pos hlast, exchange_eq]
                rw [hlast]
                rfl
              · refine ⟨_, step_wait hlast, .inr ?_⟩
                simp only [Phase.next, Phase.view, View.swap, partner, if_neg hlast, exchange_eq]
                rfl

/-- A step of the thread that goes on. -/
theorem InPhase.next (h : InPhase maxCount c φ) {target : Option Player}
    (hs : step (code maxCount) c (.run (φ.view maxCount).who target) = some c')
    (hdone : φ ≠ .done) : InPhase maxCount c' (φ.next maxCount) := by
  obtain ⟨v, hv, hshows⟩ := Shows.step h hs
  obtain ⟨v', hv', hnext⟩ := view_step maxCount hdone
  obtain rfl : v = v' := Option.some.inj (hv.symm.trans hv')
  rcases hnext with hnext | hnext
  · rw [InPhase, ← hnext]
    exact hshows
  · rw [InPhase, ← hnext]
    exact hshows.swap

/-- The other thread can only spin at the start. -/
theorem view_swap_step {v : View} (h : (φ.view maxCount).swap.step maxCount = some v) :
    φ = .idle ∧ v = Phase.pongTests.view maxCount := by
  cases φ with
  | idle =>
      cases h
      exact ⟨rfl, rfl⟩
  | turn who i stage =>
      cases who with
      | ping => cases stage <;> cases h
      | pong =>
          by_cases hlast : i + 1 = maxCount
          · cases stage <;>
              simp [Phase.view, View.swap, View.step, partner, hlast, wake, code] at h
          · cases stage <;>
              simp [Phase.view, View.swap, View.step, partner, hlast, asleep, woken, wake] at h
  | _ => cases h

/-- The program is always in some phase of the game. -/
theorem inPhase_of_reachable (hcount : 1 ≤ maxCount) (h : (program maxCount).Reachable c) :
    ∃ φ : Phase, φ.Valid maxCount ∧ InPhase maxCount c φ := by
  apply h.invariant (P := fun c => ∃ φ : Phase, φ.Valid maxCount ∧ InPhase maxCount c φ)
  · exact ⟨.idle, trivial, fun _ => rfl, rfl, rfl, rfl⟩
  · intro c a c' hphase hs
    obtain ⟨φ, hvalid, hshows⟩ := hphase
    cases a with
    | spurious i => cases hs
    | run i target =>
        change step (code maxCount) c (.run i target) = some c' at hs
        rcases Player.eq_or_eq_other (φ.view maxCount).who i with heq | heq
        · rw [heq] at hs
          by_cases hdone : φ = .done
          · subst hdone
            obtain ⟨v, hv, -⟩ := hshows.step hs
            cases hv
          · exact ⟨_, hvalid.next hcount, InPhase.next hshows hs hdone⟩
        · rw [heq] at hs
          obtain ⟨v, hv, hshows'⟩ := hshows.swap.step hs
          obtain ⟨rfl, rfl⟩ := view_swap_step hv
          exact ⟨.pongTests, trivial, hshows'⟩

/-- Before the end some thread can go on, and brings the end nearer. -/
theorem InPhase.exists_next (hcount : 1 ≤ maxCount) (hvalid : φ.Valid maxCount)
    (h : InPhase maxCount c φ) (hdone : φ ≠ .done) :
    ∃ who target c', step (code maxCount) c (.run who target) = some c' ∧
      InPhase maxCount c' (φ.next maxCount) ∧ (φ.next maxCount).Valid maxCount ∧
      (φ.next maxCount).rank maxCount < φ.rank maxCount := by
  obtain ⟨v, hv, -⟩ := view_step maxCount hdone
  obtain ⟨target, c', hstep⟩ := Shows.exists_step h hv
  exact ⟨_, target, c', hstep, h.next hstep hdone, hvalid.next hcount,
    Phase.rank_next hcount hvalid hdone⟩

def Exited (c : Config Player Shared Point Mutex Cond) (who : Player) : Prop :=
  c.threads who = .running (.exited who)

theorem InPhase.exited (h : InPhase maxCount c .done) (who : Player) : Exited c who := by
  cases who with
  | ping => exact h.mover
  | pong => exact h.waiter

/-- What has been printed in each phase. -/
theorem InPhase.output_prefix (hvalid : φ.Valid maxCount) (h : InPhase maxCount c φ) :
    c.shared.output <+: exchange maxCount := by
  rw [h.shared]
  cases φ with
  | done => exact List.prefix_rfl
  | turn who i stage =>
      have hlt : i < maxCount := hvalid
      have hround : exchange (i + 1) <+: exchange maxCount := exchange_prefix hlt
      have hbefore : before who i ++ [line who (i + 1)] <+: exchange (i + 1) := by
        cases who with
        | ping =>
            rw [exchange_succ]
            exact (List.prefix_append_right_inj _).mpr ⟨[.pong (i + 1)], rfl⟩
        | pong => rw [exchange_eq]
      cases stage with
      | woken | prints => exact (List.prefix_append _ _).trans (hbefore.trans hround)
      | signals | tests => exact hbefore.trans hround
  | _ => exact List.nil_prefix

/-! ## Result -/

/-- For any count from one on and any interleaving in which only signals wake the threads: the
output is a prefix of the rounds, some thread can go on until both have exited, and a run
leads from every reachable state to the exit of both, with all rounds printed. -/
theorem ping_pong_correct (hcount : 1 ≤ maxCount) (c : Config Player Shared Point Mutex Cond)
    (h : (program maxCount).Reachable c) :
    c.shared.output <+: exchange maxCount ∧
      ((∃ who, ¬ Exited c who) → ∃ a c', (program maxCount).step c a = some c') ∧
      ∃ as c', (program maxCount).exec c as = some c' ∧ (∀ who, Exited c' who) ∧
        c'.shared.output = exchange maxCount := by
  obtain ⟨φ, hvalid, hphase⟩ := inPhase_of_reachable hcount h
  refine ⟨hphase.output_prefix hvalid, ?_, ?_⟩
  · intro hsome
    obtain ⟨who, hwho⟩ := hsome
    have hdone : φ ≠ .done := by
      intro hdone
      subst hdone
      exact hwho (hphase.exited who)
    obtain ⟨i, target, c', hstep, -⟩ := hphase.exists_next hcount hvalid hdone
    exact ⟨.run i target, c', hstep⟩
  · have hrun : ∃ as c', (∀ a ∈ as, True) ∧ (program maxCount).exec c as = some c' ∧
        InPhase maxCount c' .done := by
      apply System.exists_exec_final (R := fun c n => ∃ φ : Phase, φ.Valid maxCount ∧
        InPhase maxCount c φ ∧ φ.rank maxCount = n) _ ⟨φ, hvalid, hphase, rfl⟩
      intro c n hc hnot
      obtain ⟨φ, hvalid, hphase, hrank⟩ := hc
      have hdone : φ ≠ .done := by
        intro hdone
        subst hdone
        exact hnot hphase
      obtain ⟨i, target, c', hstep, hphase', hvalid', hlt⟩ :=
        hphase.exists_next hcount hvalid hdone
      exact ⟨.run i target, c', _, trivial, hstep, ⟨_, hvalid', hphase', rfl⟩, by omega⟩
    obtain ⟨as, c', -, hexec, hfinal⟩ := hrun
    exact ⟨as, c', hexec, hfinal.exited, congrArg Shared.output hfinal.shared⟩

/-- `ping` starts, and both print once. -/
def oneRound : Option (Config Player Shared Point Mutex Cond) :=
  (program 2).exec (program 2).init
    ([.run .ping none, .run .ping none, .run .ping none, .run .pong none, .run .pong none,
      .run .pong (some .ping), .run .pong none, .run .ping none, .run .ping none,
      .run .ping (some .pong), .run .ping none, .run .pong none, .run .pong none])

theorem ping_pong_correct_two : ∃ c, oneRound = some c ∧
    c.shared.output = [.ping 1, .pong 1] ∧ c.shared.output <+: exchange 2 := by
  have hrun : oneRound.isSome = true := by decide
  obtain ⟨hexchange, -⟩ := ping_pong_correct (by decide) _
    (System.Reachable.init.exec (Option.some_get hrun).symm)
  exact ⟨oneRound.get hrun, (Option.some_get hrun).symm, rfl, hexchange⟩

end PthreadBenchmark.PingPong
