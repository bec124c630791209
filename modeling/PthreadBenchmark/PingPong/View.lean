import PthreadBenchmark.PingPong.Model
import PthreadBenchmark.Shared.PthreadProgress

/-! # Two threads from the side of one of them

What one of the two threads does next is a function of the mutex, the shared variables and the
states of both. -/

namespace PthreadBenchmark.PingPong

open Pthread

variable {maxCount : ℕ} {c c' : Config Player Shared Point Mutex Cond} {target : Option Player}

def Player.other : Player → Player
  | .ping => .pong
  | .pong => .ping

@[simp] theorem Player.other_ne (who : Player) : who.other ≠ who := by
  cases who <;> simp [Player.other]

@[simp] theorem Player.other_other (who : Player) : who.other.other = who := by
  cases who <;> rfl

theorem Player.eq_or_eq_other (who i : Player) : i = who ∨ i = who.other := by
  cases who <;> cases i <;> simp [Player.other]

abbrev State := Status Point Mutex Cond

/-- A configuration in which `who` may move. -/
structure View where
  who : Player
  owner : Option Player
  shared : Shared
  mover : State
  waiter : State

def View.swap (v : View) : View :=
  { v with who := v.who.other, mover := v.waiter, waiter := v.mover }

/-- The step of the thread that may move. -/
def View.step (maxCount : ℕ) (v : View) : Option View :=
  match v.mover with
  | .asleep _ _ _ => none
  | .woken _ q =>
    if v.owner = none then some { v with owner := some v.who, mover := .running q } else none
  | .running p =>
    match code maxCount v.shared p with
    | .lock _ q =>
      if v.owner = none then some { v with owner := some v.who, mover := .running q } else none
    | .unlock _ q =>
      if v.owner = some v.who then some { v with owner := none, mover := .running q } else none
    | .wait cond m q =>
      if v.owner = some v.who then some { v with owner := none, mover := .asleep cond m q }
      else none
    | .signal cond q => some { v with mover := .running q, waiter := wake cond v.waiter }
    | .run s q => some { v with shared := s, mover := .running q }
    | .broadcast _ _ | .join _ _ | .halt => none

structure Shows (c : Config Player Shared Point Mutex Cond) (v : View) : Prop where
  owner : ∀ m, c.owner m = v.owner
  shared : c.shared = v.shared
  mover : c.threads v.who = v.mover
  waiter : c.threads v.who.other = v.waiter

variable {v v' : View}

theorem Shows.swap (h : Shows c v) : Shows c v.swap where
  owner := h.owner
  shared := h.shared
  mover := h.waiter
  waiter := by
    simp only [View.swap, Player.other_other]
    exact h.mover

/-- The mover changes the mutex, the shared variables and its own state. -/
theorem Shows.update (h : Shows c v) {owner : Mutex → Option Player} {o : Option Player}
    (howner : ∀ m, owner m = o) (s : Shared) (t : State) :
    Shows ⟨owner, s, Function.update c.threads v.who t⟩
      { v with owner := o, shared := s, mover := t } where
  owner := howner
  shared := rfl
  mover := Function.update_self ..
  waiter := (Function.update_of_ne (Player.other_ne _) ..).trans h.waiter

theorem update_owner (owner : Mutex → Option Player) (m m' : Mutex) (o : Option Player) :
    Function.update owner m o m' = o := by
  cases m
  cases m'
  exact Function.update_self ..

theorem wake_of_awake {cond : Cond} {t : State} (h : ¬ AsleepOn cond t) : wake cond t = t := by
  cases t with
  | running p => rfl
  | woken m p => rfl
  | asleep c m p => exact if_neg h

/-- The waiter is woken. -/
theorem Shows.wake (h : Shows c v) (cond : Cond) :
    Shows ⟨c.owner, c.shared, Function.update c.threads v.who.other (wake cond v.waiter)⟩
      { v with waiter := wake cond v.waiter } where
  owner := h.owner
  shared := h.shared
  mover := (Function.update_of_ne (Player.other_ne _).symm ..).trans h.mover
  waiter := Function.update_self ..

theorem not_broadcast (s : Shared) (p : Point) (cond : Cond) (q : Point) :
    code maxCount s p ≠ .broadcast cond q := by
  intro hop
  cases p with
  | test who i =>
      simp only [code] at hop
      split at hop <;> cases hop
  | _ => cases hop

theorem not_join (s : Shared) (p : Point) (j : Player) (q : Point) :
    code maxCount s p ≠ .join j q := by
  intro hop
  cases p with
  | test who i =>
      simp only [code] at hop
      split at hop <;> cases hop
  | _ => cases hop

/-- Each step of the program is the step of the view. -/
theorem Shows.step (h : Shows c v)
    (hs : Pthread.step (code maxCount) c (.run v.who target) = some c') :
    ∃ v', v.step maxCount = some v' ∧ Shows c' v' := by
  cases hm : v.mover with
  | asleep cond m q => simp [Pthread.step, h.mover, hm] at hs
  | woken m q =>
      simp only [Pthread.step, h.mover, hm, exec] at hs
      split at hs
      · next hfree =>
          cases hs
          have hfree' : v.owner = none := (h.owner m).symm.trans hfree
          exact ⟨_, by simp only [View.step, hm, if_pos hfree', h.shared],
            h.update (fun m' => update_owner ..) _ _⟩
      · cases hs
  | running p =>
      simp only [Pthread.step, h.mover, hm, h.shared] at hs
      cases hop : code maxCount v.shared p with
      | lock m q =>
          simp only [hop, exec] at hs
          split at hs
          · next hfree =>
              cases hs
              have hfree' : v.owner = none := (h.owner m).symm.trans hfree
              exact ⟨_, by simp only [View.step, hm, hop, if_pos hfree', h.shared],
                h.update (fun m' => update_owner ..) _ _⟩
          · cases hs
      | unlock m q =>
          simp only [hop, exec] at hs
          split at hs
          · next hown =>
              cases hs
              have hown' : v.owner = some v.who := (h.owner m).symm.trans hown
              exact ⟨_, by simp only [View.step, hm, hop, if_pos hown', h.shared],
                h.update (fun m' => update_owner ..) _ _⟩
          · cases hs
      | wait cond m q =>
          simp only [hop, exec] at hs
          split at hs
          · next hown =>
              cases hs
              have hown' : v.owner = some v.who := (h.owner m).symm.trans hown
              exact ⟨_, by simp only [View.step, hm, hop, if_pos hown', h.shared],
                h.update (fun m' => update_owner ..) _ _⟩
          · cases hs
      | signal cond q =>
          refine ⟨{ v with mover := .running q, waiter := Pthread.wake cond v.waiter },
            by simp only [View.step, hm, hop], ?_⟩
          simp only [hop, exec] at hs
          cases target with
          | none =>
              simp only at hs
              split at hs
              · cases hs
              · next hnone =>
                  cases hs
                  have hawake : ¬ AsleepOn cond v.waiter := by
                    intro hasleep
                    exact hnone ⟨v.who.other, by rwa [h.waiter]⟩
                  rw [wake_of_awake hawake, ← h.shared]
                  exact h.update h.owner _ _
          | some j =>
              simp only at hs
              split at hs
              · next hasleep =>
                  cases hs
                  rcases Player.eq_or_eq_other v.who j with rfl | rfl
                  · rw [h.mover, hm] at hasleep
                    exact hasleep.elim
                  · rw [h.waiter, ← h.shared]
                    exact (h.wake cond).update h.owner _ _
              · cases hs
      | broadcast cond q => exact absurd hop (not_broadcast _ _ _ _)
      | join j q => exact absurd hop (not_join _ _ _ _)
      | run s q =>
          simp only [hop, exec] at hs
          cases hs
          exact ⟨_, by simp only [View.step, hm, hop], h.update h.owner _ _⟩
      | halt => simp [hop, exec] at hs

/-- Where the view has a step, the program has one. -/
theorem Shows.exists_step (h : Shows c v) (hv : v.step maxCount = some v') :
    ∃ target c', Pthread.step (code maxCount) c (.run v.who target) = some c' := by
  cases hm : v.mover with
  | asleep cond m q => simp [View.step, hm] at hv
  | woken m q =>
      simp only [View.step, hm] at hv
      split at hv
      · next hfree => exact ⟨none, _, step_relock (h.mover.trans hm) ((h.owner m).trans hfree)⟩
      · cases hv
  | running p =>
      have hrun := h.mover.trans hm
      simp only [View.step, hm] at hv
      cases hop : code maxCount v.shared p with
      | lock m q =>
          simp only [hop] at hv
          split at hv
          · next hfree =>
              exact ⟨none, _, step_lock hrun (h.shared ▸ hop) ((h.owner m).trans hfree)⟩
          · cases hv
      | unlock m q =>
          simp only [hop] at hv
          split at hv
          · next hown =>
              exact ⟨none, _, step_unlock hrun (h.shared ▸ hop) ((h.owner m).trans hown)⟩
          · cases hv
      | wait cond m q =>
          simp only [hop] at hv
          split at hv
          · next hown =>
              exact ⟨none, _, step_wait hrun (h.shared ▸ hop) ((h.owner m).trans hown)⟩
          · cases hv
      | signal cond q => exact exists_step_signal hrun (h.shared ▸ hop)
      | run s q => exact ⟨none, _, step_run hrun (h.shared ▸ hop)⟩
      | broadcast cond q => exact absurd hop (not_broadcast _ _ _ _)
      | join j q => exact absurd hop (not_join _ _ _ _)
      | halt => simp [hop] at hv

end PthreadBenchmark.PingPong
