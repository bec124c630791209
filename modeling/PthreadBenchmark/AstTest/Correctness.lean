import PthreadBenchmark.AstTest.Model
import PthreadBenchmark.Shared.PthreadConditions

/-! # The second wait has no mutex

The first request is made inside of the mutex, so its AST cannot be delivered before the wait. -/

namespace PthreadBenchmark.AstTest

open Pthread

variable {o : Options} {s : Shared} {ps : Thread → Point} {p q : Point} {i : Thread}
  {c : Config Thread Shared Point Mutex Cond}

/-- `main` calls `pthread_cond_wait` only while it holds the mutex. -/
def WaitsInside (o : Options) (c : Config Thread Shared Point Mutex Cond) : Prop :=
  ∀ p q, c.threads .main = .running p → code o c.shared p = .wait .cond .mutex q →
    c.owner .mutex = some .main

/-- `ast_routine` has been called and has signalled for all requests. -/
def Delivered (c : Config Thread Shared Point Mutex Cond) : Prop :=
  c.shared.called = c.shared.requested ∧
    (points c .dlm = .dispatch ∨ points c .dlm = .astUnlock)

/-- No wait without the mutex, and no wait for an AST that has been delivered. -/
def Correct (o : Options) (c : Config Thread Shared Point Mutex Cond) : Prop :=
  WaitsInside o c ∧ ¬ (AsleepOn .cond (c.threads .main) ∧ Delivered c)

/-- `main` does not come to the second wait. -/
def OneWait (o : Options) : Prop :=
  o.lockFails = true ∨ o.doCrash = true ∨ o.doUnlock = false ∨ o.unlockFails = true

instance (o : Options) : Decidable (OneWait o) := inferInstanceAs (Decidable (_ ∨ _ ∨ _ ∨ _))

/-! ## The order of the hand-off -/

/-- The points of a thread, and what it takes to get there. -/
def Point.Fits (o : Options) : Thread → Point → Prop
  | .main, .mainLock | .main, .dlmLock | .main, .crashed | .main, .failed | .main, .returned => True
  | .main, .crashTest => o.lockFails = false
  | .main, .lockWait | .main, .lockUnlock | .main, .dlmUnlock =>
    o.lockFails = false ∧ o.doCrash = false
  | .main, .unlockWait | .main, .unlockUnlock => ¬ OneWait o
  | .dlm, .dispatch | .dlm, .astLock | .dlm, .astSet | .dlm, .astSignal | .dlm, .astUnlock => True
  | _, _ => False

/-- The requests that `main` has made up to the first wait. -/
def Point.Requests : Point → ℕ → Prop
  | .mainLock, k | .dlmLock, k => k = 0
  | .crashTest, k | .lockWait, k | .lockUnlock, k => 1 ≤ k
  | _, _ => True

/-- Points of `main` up to the first wait. -/
def Point.Early : Point → Prop
  | .mainLock | .dlmLock | .crashTest | .lockWait => True
  | _ => False

/-- What the thread that dispatches has done with the call of `ast_routine` that it is in. -/
def Point.Calls (s : Shared) : Point → Prop
  | .dispatch => s.astCalled = false → s.called = 0
  | .astLock | .astSet => 1 ≤ s.called
  | .astSignal | .astUnlock => 1 ≤ s.called ∧ s.astCalled = true
  | _ => True

structure Ordered (o : Options) (s : Shared) (ps : Thread → Point) : Prop where
  fits : ∀ i, (ps i).Fits o i
  requests : (ps .main).Requests s.requested
  early : (ps .main).Early → s.astCalled = false
  calls : (ps .dlm).Calls s
  called : s.called ≤ s.requested

def inside (p : Point) (_ : Mutex) : Prop :=
  match p with
  | .dlmLock | .crashTest | .lockWait | .lockUnlock | .crashed | .failed | .unlockUnlock => True
  | .astSet | .astSignal | .astUnlock => True
  | .mainLock | .dlmUnlock | .unlockWait | .returned | .dispatch | .astLock => False

/-- Points behind a wait. -/
def Resting (p : Point) : Prop := p = .lockUnlock ∨ p = .unlockUnlock

theorem resting_of_wait (s : Shared) (p : Point) (k : Cond) (m : Mutex) (q : Point)
    (h : code o s p = .wait k m q) : Resting q := by
  cases p with
  | lockWait =>
      cases h
      exact .inl rfl
  | unlockWait =>
      cases h
      exact .inr rfl
  | dlmLock | dlmUnlock =>
      simp only [code] at h
      split at h <;> cases h
  | _ => cases h

theorem tracks_code (hp : p ≠ .unlockWait) : Tracks inside p (code o s p) := by
  cases p with
  | mainLock | lockUnlock | unlockUnlock | astLock | astUnlock =>
      intro m
      simp [inside]
  | dlmLock | dlmUnlock =>
      simp only [code]
      split <;> exact fun _ => Iff.rfl
  | crashTest =>
      simp only [code]
      cases o.doCrash <;> exact fun _ => Iff.rfl
  | dispatch =>
      simp only [code, Op.await]
      split <;> exact fun _ => Iff.rfl
  | lockWait => exact ⟨trivial, fun _ => Iff.rfl⟩
  | astSet | astSignal => exact fun _ => Iff.rfl
  | crashed | failed | returned => trivial
  | unlockWait => exact absurd rfl hp

theorem ordered_start : Ordered o ⟨false, 0, 0⟩ start where
  fits i := by cases i <;> trivial
  requests := rfl
  early _ := rfl
  calls _ := rfl
  called := le_rfl

theorem Ordered.ne_unlockWait (hone : OneWait o) (h : Ordered o s ps) (i : Thread) :
    ps i ≠ .unlockWait := by
  intro hp
  have hfits := h.fits i
  rw [hp] at hfits
  cases i with
  | main => exact hfits hone
  | dlm => exact hfits

theorem Ordered.move_main (h : Ordered o s ps) (q : Point) (k : ℕ) (hfits : q.Fits o .main)
    (hrequests : q.Requests (s.requested + k)) (hearly : q.Early → s.astCalled = false) :
    Ordered o { s with requested := s.requested + k } (Function.update ps .main q) := by
  have hcalls : ∀ p : Point, p.Calls s → p.Calls { s with requested := s.requested + k } := by
    intro p hp
    cases p <;> exact hp
  refine ⟨fun i => ?_, hrequests, hearly, hcalls _ h.calls, Nat.le_add_right_of_le h.called⟩
  cases i with
  | main => exact hfits
  | dlm => exact h.fits .dlm

theorem Ordered.move_dlm (h : Ordered o s ps) (q : Point) {s' : Shared} (hfits : q.Fits o .dlm)
    (hrequested : s'.requested = s.requested) (hearly : (ps .main).Early → s'.astCalled = false)
    (hcalls : q.Calls s') (hcalled : s'.called ≤ s.requested) :
    Ordered o s' (Function.update ps .dlm q) := by
  refine ⟨fun i => ?_, hrequested ▸ h.requests, hearly, hcalls, hrequested ▸ hcalled⟩
  cases i with
  | main => exact h.fits .main
  | dlm => exact hfits

theorem Ordered.step_main (h : Ordered o s ps) (hq : (code o s (ps .main)).next? = some q) :
    Ordered o ((code o s (ps .main)).after s) (Function.update ps .main q) := by
  have hfits := h.fits .main
  have hrequests := h.requests
  have hearly := h.early
  cases hp : ps .main <;> rw [hp] at hq hfits hrequests hearly
  case mainLock =>
    cases hq
    exact h.move_main .dlmLock 0 trivial hrequests hearly
  case dlmLock =>
    simp only [code] at hq ⊢
    by_cases hfails : o.lockFails = true
    · rw [if_pos hfails] at hq ⊢
      cases hq
      exact h.move_main .failed 0 trivial trivial False.elim
    · rw [if_neg hfails] at hq ⊢
      cases hq
      exact h.move_main .crashTest 1 (Bool.eq_false_iff.mpr hfails) (Nat.le_add_left 1 _) hearly
  case crashTest =>
    cases hq
    cases hcrash : o.doCrash
    · exact h.move_main .lockWait 0 ⟨hfits, hcrash⟩ hrequests hearly
    · exact h.move_main .crashed 0 trivial trivial False.elim
  case lockWait =>
    cases hq
    exact h.move_main .lockUnlock 0 hfits hrequests False.elim
  case lockUnlock =>
    cases hq
    exact h.move_main .dlmUnlock 0 hfits trivial False.elim
  case dlmUnlock =>
    simp only [code] at hq ⊢
    by_cases hlast : o.doUnlock = false ∨ o.unlockFails = true
    · rw [if_pos hlast] at hq ⊢
      cases hq
      exact h.move_main .returned 0 trivial trivial False.elim
    · rw [if_neg hlast] at hq ⊢
      cases hq
      apply h.move_main .unlockWait 1 _ trivial False.elim
      rintro (hone | hone | hone)
      · exact absurd hone (by simp [hfits.1])
      · exact absurd hone (by simp [hfits.2])
      · exact hlast hone
  case unlockWait =>
    cases hq
    exact h.move_main .unlockUnlock 0 hfits trivial False.elim
  case unlockUnlock =>
    cases hq
    exact h.move_main .returned 0 trivial trivial False.elim
  case crashed | failed | returned => cases hq
  case dispatch | astLock | astSet | astSignal | astUnlock => exact hfits.elim

theorem Ordered.step_dlm (h : Ordered o s ps)
    (halone : Alone inside Resting ps .dlm)
    (hq : (code o s (ps .dlm)).next? = some q) :
    Ordered o ((code o s (ps .dlm)).after s) (Function.update ps .dlm q) := by
  have hfits := h.fits .dlm
  have hcalls := h.calls
  have hcalled := h.called
  cases hp : ps .dlm <;> rw [hp] at hq hfits hcalls
  case dispatch =>
    rcases Op.await_cases hq with ⟨hlt, rfl, hafter⟩ | ⟨rfl, hafter⟩
    · rw [code, hafter]
      exact h.move_dlm .astLock trivial rfl h.early (Nat.le_add_left 1 _) hlt
    · rw [code, hafter]
      exact h.move_dlm .dispatch trivial rfl h.early hcalls hcalled
  case astLock =>
    cases hq
    exact h.move_dlm .astSet trivial rfl h.early hcalls hcalled
  case astSet =>
    cases hq
    refine h.move_dlm .astSignal trivial rfl (fun hearly => ?_) ⟨hcalls, rfl⟩ hcalled
    -- Up to its first wait `main` has been inside of the mutex from its first request on.
    have hout : ∀ p : Point, p.Early → p.Requests s.requested → inside p .mutex := by
      intro p hp hr
      cases p <;> first | exact hp.elim | trivial | skip
      simp only [Point.Requests] at hr
      exact absurd (hcalls.trans hcalled) (by omega)
    rcases halone .main .mutex (by simp) (by rw [hp]; trivial) (hout _ hearly h.requests) with
      hrest | hrest
    · rw [hrest] at hearly
      exact hearly.elim
    · rw [hrest] at hearly
      exact hearly.elim
  case astSignal =>
    cases hq
    exact h.move_dlm .astUnlock trivial rfl h.early hcalls hcalled
  case astUnlock =>
    cases hq
    refine h.move_dlm .dispatch trivial rfl h.early (fun hfalse => ?_) hcalled
    exact absurd (hfalse.symm.trans hcalls.2) Bool.false_ne_true
  all_goals exact hfits.elim

theorem ordered_of_reachable (hone : OneWait o) (h : (program o).Reachable c) :
    Owned inside c ∧ Ordered o c.shared (points c) := by
  refine owned_invariant ?_ resting_of_wait ?_ h ordered_start ?_
  · exact fun s ps i hordered => tracks_code (hordered.ne_unlockWait hone i)
  · intro i m
    cases i <;> exact id
  · intro s ps i q hordered halone hq
    cases i with
    | main => exact hordered.step_main hq
    | dlm => exact hordered.step_dlm halone hq

/-! ## The first wait -/

/-- `main` behind the first wait, and the signal of `ast_routine`. -/
def wakeupCredit : Point → ℕ
  | .lockUnlock | .dlmUnlock | .unlockWait | .unlockUnlock | .returned | .astSignal => 1
  | .mainLock | .dlmLock | .crashTest | .lockWait | .crashed | .failed => 0
  | .dispatch | .astLock | .astSet | .astUnlock => 0

theorem pays (hwait : p ≠ .unlockWait) (hearly : p = .lockWait → s.astCalled = false) :
    Pays .cond (fun s => s.astCalled.toNat) wakeupCredit s p (code o s p) := by
  cases p with
  | dlmLock | dlmUnlock =>
      simp only [code]
      split <;> exact le_rfl
  | crashTest =>
      cases hcrash : o.doCrash <;> simp [code, Pays, wakeupCredit, hcrash]
  | dispatch =>
      simp only [code, Op.await]
      split <;> exact le_rfl
  | lockWait => exact ⟨by simp [hearly rfl], le_rfl⟩
  | astSet => exact Nat.le_add_left 1 _
  | astSignal => exact le_rfl
  | unlockWait => exact absurd rfl hwait
  | mainLock | lockUnlock | unlockUnlock | astLock | astUnlock => exact le_rfl
  | crashed | failed | returned => trivial

theorem covered_of_program (hone : OneWait o) (h : (program o).Reachable c) :
    Covered .cond (fun s => s.astCalled.toNat) wakeupCredit c.shared c.threads := by
  refine covered_of_pays (fun c hc i p hi => ?_) h
  obtain ⟨-, hordered⟩ := ordered_of_reachable hone hc
  have hpoint : points c i = p := points_of_running hi
  apply pays (hpoint ▸ hordered.ne_unlockWait hone i)
  rintro rfl
  have hfits := hordered.fits i
  cases i with
  | main => exact hordered.early (by rw [hpoint]; trivial)
  | dlm =>
      rw [hpoint] at hfits
      exact hfits.elim

/-- Where `main` sleeps, the signal for the request is still to come. -/
theorem not_delivered_of_asleep (hone : OneWait o) (h : (program o).Reachable c)
    (hasleep : AsleepOn .cond (c.threads .main)) : ¬ Delivered c := by
  rintro ⟨hall, hdlm⟩
  obtain ⟨-, hordered⟩ := ordered_of_reachable hone h
  have hcalls := hordered.calls
  have hrequests : 1 ≤ c.shared.requested := by
    have hwaits := waits_of_reachable (W := fun _ _ q => Resting q) resting_of_wait h .main
    obtain ⟨m, q, hmain⟩ := exists_asleep hasleep
    have hpoint : points c .main = q := points_of_asleep hmain
    have hfits := hordered.fits .main
    have hr := hordered.requests
    rw [hmain] at hwaits
    rw [hpoint] at hfits hr
    rcases hwaits with rfl | rfl
    · exact hr
    · exact absurd hone hfits
  have hset : c.shared.astCalled = true := by
    rcases hdlm with hp | hp
    · rw [hp] at hcalls
      by_contra hfalse
      have hzero := hcalls (Bool.eq_false_iff.mpr hfalse)
      omega
    · rw [hp] at hcalls
      exact hcalls.2
  have hneed := (covered_of_program hone h).need_le hasleep
  rw [hset] at hneed
  obtain ⟨i, hi⟩ := exists_of_weight_pos (lt_of_lt_of_le Nat.one_pos hneed)
  cases i with
  | main =>
      obtain ⟨m, q, hmain⟩ := exists_asleep hasleep
      rw [hmain] at hi
      exact absurd hi (Nat.lt_irrefl 0)
  | dlm =>
      have hle := hi.trans_le (credit_le_point wakeupCredit (c.threads .dlm))
      change 0 < wakeupCredit (points c .dlm) at hle
      rcases hdlm with hp | hp <;> rw [hp] at hle <;> exact absurd hle (Nat.lt_irrefl 0)

theorem waitsInside_of_oneWait (hone : OneWait o) (h : (program o).Reachable c) :
    WaitsInside o c := by
  obtain ⟨howned, hordered⟩ := ordered_of_reachable hone h
  intro p q hp hop
  have hpoint : points c .main = p := points_of_running hp
  have htracks : Tracks inside p (code o c.shared p) :=
    tracks_code (hpoint ▸ hordered.ne_unlockWait hone .main)
  rw [hop] at htracks
  exact howned.owner_of_inside hp htracks.1

/-! ## The second wait -/

/-- The lock is granted while `main` waits, and the unlock before `main` does. -/
def secondRequest : Option (Config Thread Shared Point Mutex Cond) :=
  (program ⟨true, false, false, false⟩).exec (program ⟨true, false, false, false⟩).init
    (List.replicate 4 (Action.run Thread.main none) ++
      List.replicate 3 (Action.run Thread.dlm none) ++
      [Action.run Thread.dlm (some Thread.main), Action.run Thread.dlm none] ++
      List.replicate 3 (Action.run Thread.main none) ++
      List.replicate 5 (Action.run Thread.dlm none))

theorem exists_second_wait : ∃ c, (program ⟨true, false, false, false⟩).Reachable c ∧
    c.threads .main = .running .unlockWait ∧ c.owner .mutex = none ∧ Delivered c := by
  have hrun : secondRequest.isSome = true := by decide
  exact ⟨secondRequest.get hrun, System.Reachable.init.exec (Option.some_get hrun).symm, rfl, rfl,
    rfl, .inl rfl⟩

/-! ## Results -/

/-- For any timing of the calls of `ast_routine`: `main` waits only inside of the mutex and never
for an AST that has been delivered, if and only if it does not come to the second wait. -/
theorem ast_wait_correct_iff (o : Options) :
    (∀ c, (program o).Reachable c → Correct o c) ↔ OneWait o := by
  constructor
  · intro hall
    by_contra hboth
    obtain ⟨doUnlock, doCrash, lockFails, unlockFails⟩ := o
    obtain ⟨rfl, rfl, rfl, rfl⟩ : doUnlock = true ∧ doCrash = false ∧ lockFails = false ∧
        unlockFails = false := by
      simpa [OneWait, and_assoc, and_comm, and_left_comm] using hboth
    obtain ⟨c, hc, hmain, hfree, -⟩ := exists_second_wait
    have hown := (hall c hc).1 _ _ hmain rfl
    rw [hfree] at hown
    cases hown
  · exact fun hone c hc =>
      ⟨waitsInside_of_oneWait hone hc, fun h => not_delivered_of_asleep hone hc h.1 h.2⟩

/-- `main` calls `pthread_cond_wait` without the mutex, for an AST that has been delivered. -/
theorem wait_without_mutex : ∃ c, (program ⟨true, false, false, false⟩).Reachable c ∧
    Delivered c ∧ ¬ WaitsInside ⟨true, false, false, false⟩ c := by
  obtain ⟨c, hc, hmain, hfree, hdelivered⟩ := exists_second_wait
  refine ⟨c, hc, hdelivered, fun hinside => ?_⟩
  have hown := hinside _ _ hmain rfl
  rw [hfree] at hown
  cases hown

end PthreadBenchmark.AstTest
