import PthreadBenchmark.Skynet.Signals
import PthreadBenchmark.Skynet.Exclusion

/-! # A handler on a thread that holds the mutex

`skynet_shutdown` locks the mutex of the monitor whichever thread it has interrupted. -/

namespace PthreadBenchmark.Skynet

open Pthread

variable {n : ℕ} {dispatch : Fin n → ℕ → ℤ} {poll : ℕ → ℤ} {s : Host} {P Q : HostPoint n}
  {sig : Signal} {pc : HandlerPc} {t : Thread n} {c c' : HostState n}

def HandlerPc.Inside : HandlerPc → Prop
  | .shutdown pc => pc.Inside
  | _ => False

def hostInside (P : HostPoint n) (m : Mutex) : Prop :=
  match P with
  | .thread P => processInside P m
  | .handler _ pc => pc.Inside

theorem tracks_handler (s : Host) (sig : Signal) (pc : HandlerPc) :
    Tracks hostInside (.handler sig pc) (handler (n := n) s sig pc) := by
  cases pc with
  | shutdown pc =>
      cases pc with
      | lock | unlock =>
          intro m
          simp [hostInside, HandlerPc.Inside, ShutdownPc.Inside, handlerPoint]
      | setQuit | broadcast => exact fun _ => Iff.rfl
      | returned =>
          simp only [handler]
          split
          · trivial
          · exact fun _ => Iff.rfl
  | releaseAll | setDefault | raise | raised => exact fun _ => Iff.rfl

theorem tracks_hostCode (s : Host) (P : HostPoint n) :
    Tracks hostInside P (hostCode dispatch poll s P) := by
  cases P with
  | thread P => exact tracks_map (fun _ _ => Iff.rfl) (tracks_processCode s.process P)
  | handler sig pc => exact tracks_handler s sig pc

/-! ## Points of the handlers -/

def HostPoint.IsHandler : HostPoint n → Prop
  | .handler _ _ => True
  | .thread _ => False

theorem isHandler_of_next (hP : P.IsHandler) (hq : (hostCode dispatch poll s P).next? = some Q) :
    Q.IsHandler := by
  cases P with
  | thread P => exact hP.elim
  | handler sig pc =>
      cases pc with
      | shutdown pc =>
          cases pc with
          | returned =>
              simp only [hostCode, handler] at hq
              split at hq <;> cases hq
              trivial
          | lock | setQuit | broadcast | unlock =>
              cases hq
              trivial
      | releaseAll | setDefault | raise | raised =>
          cases hq
          trivial

/-- A handler returns out of the critical section. -/
theorem not_inside_of_halt (hP : P.IsHandler) (hop : hostCode dispatch poll s P = .halt)
    (m : Mutex) : ¬ hostInside P m := by
  cases P with
  | thread P => exact hP.elim
  | handler sig pc =>
      cases pc with
      | shutdown pc =>
          cases pc with
          | returned => exact id
          | lock | setQuit | broadcast | unlock => cases hop
      | releaseAll | setDefault | raise | raised => cases hop

/-- `skynet_shutdown` itself does not lock the mutex twice. -/
theorem not_inside_of_lock {m : Mutex} (hP : P.IsHandler)
    (hop : hostCode dispatch poll s P = .lock m Q) : ¬ hostInside P m := by
  cases P with
  | thread P => exact hP.elim
  | handler sig pc =>
      cases pc with
      | shutdown pc =>
          cases pc with
          | lock => exact id
          | setQuit | broadcast | unlock => cases hop
          | returned =>
              simp only [hostCode, handler] at hop
              split at hop <;> cases hop
      | releaseAll | setDefault | raise | raised => cases hop

/-! ## Runs in which no owner of the mutex is interrupted -/

/-- A signal that is handled does not reach a thread that owns the mutex, by itself or by one of its
handlers. -/
def SparesOwner (c : HostState n) : HostAction n → Prop
  | .deliver t sig => sig ∉ c.base.shared.defaults → c.base.owner .mutex ≠ some t
  | _ => True

instance (c : HostState n) (a : HostAction n) : Decidable (SparesOwner c a) := by
  unfold SparesOwner
  split <;> infer_instance

structure Sound (c : HostState n) : Prop where
  guarded : Guarded hostInside c
  frames : ∀ t, ∀ P ∈ c.frames t, P.IsHandler

theorem sound_init : Sound (host dispatch poll).init := by
  refine ⟨⟨fun t m => ?_, fun t => trivial, fun t ht => absurd rfl ht, fun t P rest ht => ?_⟩,
    fun t P hP => ?_⟩
  · have hout : ¬ hostInside (hostStart t) m := by
      rcases t with - | i | service
      · exact id
      · exact id
      · cases service <;> exact id
    exact iff_of_false (by simp [host, Pthread.program]) hout
  · cases ht
  · cases hP

theorem Sound.step {a : HostAction n} (h : Sound c) (hgood : SparesOwner c a)
    (hs : (host dispatch poll).step c a = some c') : Sound c' := by
  simp only [host, Option.ite_none_left_eq_some] at hs
  obtain ⟨-, hs⟩ := hs
  cases a with
  | thread a =>
      cases a with
      | run t w =>
          have hframes : c'.frames = c.frames := by
            simp only [hostStep, stepThread, Option.ite_none_right_eq_some,
              Option.map_eq_some_iff] at hs
            obtain ⟨-, b, -, rfl⟩ := hs
            rfl
          exact ⟨h.guarded.stepThread tracks_hostCode hs, by rw [hframes]; exact h.frames⟩
      | spurious t =>
          have hframes : c'.frames = c.frames := by
            simp only [hostStep, stepSpurious, Option.map_eq_some_iff] at hs
            obtain ⟨b, -, rfl⟩ := hs
            rfl
          exact ⟨h.guarded.stepSpurious hs, by rw [hframes]; exact h.frames⟩
  | handler t =>
      refine ⟨h.guarded.stepHandler tracks_hostCode (fun P hP s hop m => ?_) hs,
        forall_frames_of_stepHandler (fun s P Q => isHandler_of_next) h.frames hs⟩
      exact not_inside_of_halt (h.frames t P hP) hop m
  | deliver t sig =>
      simp only [hostStep, Option.ite_none_right_eq_some] at hs
      obtain ⟨-, hs⟩ := hs
      split at hs
      · cases hs
        exact ⟨⟨h.guarded.owner, h.guarded.returns, h.guarded.thread, h.guarded.handlers⟩, h.frames⟩
      · next hhandled =>
          cases hs
          refine ⟨h.guarded.interrupt (fun m => hgood hhandled) fun m => id, fun t' P hP => ?_⟩
          by_cases ht : t' = t
          · subst ht
            simp only [interrupt, Function.update_self] at hP
            rcases List.mem_cons.mp hP with rfl | hP
            · trivial
            · exact h.frames t' P hP
          · simp only [interrupt, Function.update_of_ne ht] at hP
            exact h.frames t' P hP

abbrev SparingRun (dispatch : Fin n → ℕ → ℤ) (poll : ℕ → ℤ) : HostState n → Prop :=
  (host dispatch poll).ReachableBy SparesOwner

theorem sound_of_sparing (h : SparingRun dispatch poll c) : Sound c :=
  h.invariant sound_init fun _ _ _ _ hsound hgood hs => hsound.step hgood hs

theorem Sound.not_selfDeadlock (h : Sound c) : ¬ SelfDeadlock (hostCode dispatch poll) c :=
  h.guarded.not_selfDeadlock fun t P hP _ _ _ hop => not_inside_of_lock (h.frames t P hP) hop

/-- The handler starts with the lock that its thread owns. -/
theorem selfDeadlock_of_deliver (hs : (host dispatch poll).step c (.deliver t sig) = some c')
    (howner : ¬ SparesOwner c (.deliver t sig)) : SelfDeadlock (hostCode dispatch poll) c' := by
  simp only [SparesOwner, Classical.not_imp, not_not] at howner
  obtain ⟨hhandled, howner⟩ := howner
  simp only [host, hostStep, Option.ite_none_left_eq_some, Option.ite_none_right_eq_some,
    if_neg hhandled] at hs
  obtain ⟨-, -, hs⟩ := hs
  cases hs
  exact ⟨t, _, c.frames t, .mutex, _, Function.update_self .., rfl, howner⟩

/-- For any number of workers, any dispatches and polls, and any signals at any points of any
threads and handlers: in a run in which no signal that is handled reaches a thread that owns the
mutex, no handler wants a mutex that its own thread holds; the first signal that does leads to
this at once. -/
theorem no_selfDeadlock_until_owner (dispatch : Fin n → ℕ → ℤ) (poll : ℕ → ℤ) (c)
    (h : SparingRun dispatch poll c) : ¬ SelfDeadlock (hostCode dispatch poll) c ∧
      ∀ t sig c', (host dispatch poll).step c (.deliver t sig) = some c' →
        ¬ SparesOwner c (.deliver t sig) → SelfDeadlock (hostCode dispatch poll) c' :=
  ⟨(sound_of_sparing h).not_selfDeadlock, fun _ _ _ hs howner => selfDeadlock_of_deliver hs howner⟩

/-- `SIGTERM` reaches `skynet_start` while it joins the worker, and the worker leaves. -/
def termAtJoin (i : Fin 1) : Option (HostState 1) :=
  ((host (fun _ _ => 1) fun _ => 1).guarded SparesOwner).exec (host (fun _ _ => 1) fun _ => 1).init
    (List.replicate 4 (.thread (.run none none)) ++ [.deliver none .sigterm] ++
      List.replicate 5 (.handler none) ++ List.replicate 3 (.thread (.run (some (.inl i)) none)) ++
      List.replicate 6 (.thread (.run none none)))

theorem no_selfDeadlock_until_owner_join : ∃ c, termAtJoin 0 = some c ∧
    c.base.shared.process.freed = true ∧
    ¬ SelfDeadlock (hostCode (fun _ _ => 1) fun _ => 1) c := by
  have hrun : (termAtJoin 0).isSome = true := by decide
  have hreach : SparingRun (fun _ _ => 1) (fun _ => 1) ((termAtJoin 0).get hrun) :=
    .of_exec (Option.some_get hrun).symm
  exact ⟨(termAtJoin 0).get hrun, (Option.some_get hrun).symm, rfl,
    (no_selfDeadlock_until_owner _ _ _ hreach).1⟩

/-- `SIGTERM` reaches the timer while it tests `m->quit`. -/
def termAtTest : Option (HostState 1) :=
  (host (fun _ _ => 1) fun _ => 1).exec (host (fun _ _ => 1) fun _ => 1).init
    (List.replicate 4 (.thread (.run none none)) ++ [.thread (.run (some (.inr .timer)) none),
      .deliver (some (.inr .timer)) .sigterm])

theorem selfDeadlock_at_test : ∃ c, (host (n := 1) (fun _ _ => 1) fun _ => 1).Reachable c ∧
    SelfDeadlock (hostCode (fun _ _ => 1) fun _ => 1) c := by
  have hrun : termAtTest.isSome = true := by decide
  exact ⟨termAtTest.get hrun, System.Reachable.init.exec (Option.some_get hrun).symm,
    some (.inr .timer), .handler .sigterm (.shutdown .lock), [], .mutex, _, rfl, rfl, rfl⟩

end PthreadBenchmark.Skynet
