import PthreadBenchmark.IrEvent.Discipline
import PthreadBenchmark.Shared.PthreadConditions

/-! # Who frees the connection

Behind `handle_error` both threads go on as if nothing had happened, and the connection is freed
once more at the end. -/

namespace PthreadBenchmark.IrEvent

open Pthread

variable {env : Env} {s s' : Shared} {ps : Tid → Point} {p q : Point} {t : Tid}
  {pc pc' : MainPc} {mpc mpc' : MonitorPc} {c c' : Config Tid Shared Point Mutex Empty}

/-- The connection is not used after `handle_error` has freed it, and freed at most once. -/
def Safe (s : Shared) : Prop := s.usedLate = false ∧ s.freed ≤ 1

/-- No call fails whose failure goes to `handle_error`, but for that which asks for the status. -/
def Succeeds (env : Env) (s : Shared) (ps : Tid → Point) (t : Tid) : Prop :=
  match ps t with
  | .main .clearError | .main .runStop | .main .responseFinish | .main .runPlay
  | .monitor .clearError => (env.reply s).ok = true
  | _ => True

instance (env : Env) (s : Shared) (ps : Tid → Point) (t : Tid) :
    Decidable (Succeeds env s ps t) := by
  unfold Succeeds
  split <;> infer_instance

/-! ## Runs without a failure -/

/-- Whether the monitor has been created, and what has been done with the connection. -/
structure Books (s : Shared) (created handled : Bool) (freed : ℕ) : Prop where
  created : s.created = created
  handled : s.handled = handled
  freed : s.freed = freed
  usedLate : s.usedLate = false

/-- What is on the books when the main thread is at this point. -/
def MainPc.Keeps (s : Shared) : MainPc → Prop
  | .connect | .handleError .connect _ | .create => Books s false false 0
  | .handleError .command _ => False
  | .getState _ none => Books s true true 1
  | .exit _ => Books s true false 1 ∨ Books s false true 1
  | .gone _ => s.freed = 1 ∧ s.usedLate = false ∧ s.exited = true
  | _ => Books s true false 0

theorem Shared.use_eq (h : s.handled = false) : s.use = s := by
  cases s
  cases h
  simp [Shared.use]

theorem Books.call {created : Bool} {freed : ℕ} (h : Books s created false freed) :
    Books s.call created false freed := by
  refine ⟨h.created, h.handled, h.freed, ?_⟩
  simp [Shared.call, Shared.use, h.usedLate, h.handled]

theorem Books.use {created : Bool} {freed : ℕ} (h : Books s created false freed) :
    Books s.use created false freed := by
  rwa [Shared.use_eq h.handled]

theorem Books.free {created byHandler : Bool} (h : Books s created false 0) :
    Books (s.free byHandler) created byHandler 1 := by
  refine ⟨h.created, ?_, ?_, ?_⟩
  · simp [Shared.free, h.handled]
  · simp [Shared.free, h.freed]
  · simp [Shared.free, Shared.use, h.usedLate, h.handled]

theorem Books.exit {created handled : Bool} (h : Books s created handled 1) (held : Bool) :
    (MainPc.gone held).Keeps { s with exited := true } :=
  ⟨h.freed, h.usedLate, rfl⟩

theorem keeps_switch (h : Books s true false 0) (ev : InputEvent) : (switch ev).Keeps s := by
  rcases switch_cases ev with ⟨-, hswitch | hswitch | ⟨key, hswitch⟩⟩ | ⟨-, hswitch⟩ <;>
    exact hswitch ▸ h

theorem keeps_command (h : Books s true false 0) (key : StatusKey) (state : MpdState) :
    (command key state).Keeps s := by
  cases key <;> cases state <;> exact h

theorem MainPc.Keeps.safe (h : pc.Keeps s) : Safe s := by
  have hbooks : ∀ {created handled freed}, Books s created handled freed → freed ≤ 1 → Safe s :=
    fun hbooks hle => ⟨hbooks.usedLate, hbooks.freed.trans_le hle⟩
  cases pc with
  | connect | create => exact hbooks h (Nat.zero_le 1)
  | handleError caller pc =>
      cases caller with
      | connect | getStatus key => exact hbooks h (Nat.zero_le 1)
      | command => exact h.elim
  | getState key status =>
      cases status with
      | none => exact hbooks h le_rfl
      | some state => exact hbooks h (Nat.zero_le 1)
  | exit held => exact h.elim (hbooks · le_rfl) (hbooks · le_rfl)
  | gone held => exact ⟨h.2.1, h.1.le⟩
  | _ => exact hbooks h (Nat.zero_le 1)

/-- The step of the main thread leads to a point with the books in order. -/
def Lands (s : Shared) (q : Point) : Prop := ∃ pc, q = .main pc ∧ pc.Keeps s

theorem lands_runCommand {next onError : MainPc}
    (hnext : (env.reply s).ok = true → next.Keeps s.call)
    (herror : (env.reply s).ok = false → onError.Keeps s.call)
    (hq : (runCommand env s next onError).next? = some q) :
    Lands ((runCommand env s next onError).after s) q := by
  cases hq
  refine ⟨_, rfl, ?_⟩
  simp only [runCommand, Op.after]
  cases hok : (env.reply s).ok with
  | true => exact hnext hok
  | false => exact herror hok

theorem lands_main (h : pc.Keeps s) (hgood : Succeeds env s ps .main) (hp : ps .main = .main pc)
    (hq : (main env s pc).next? = some q) : Lands ((main env s pc).after s) q := by
  cases pc with
  | connect => exact lands_runCommand (fun _ => h.call) (fun _ => h.call) hq
  | changeVolume => exact lands_runCommand (fun _ => h.call) (fun _ => h.call) hq
  | clearError | runStop | responseFinish | runPlay =>
      have hok : (env.reply s).ok = true := by simpa only [Succeeds, hp] using hgood
      exact lands_runCommand (fun _ => h.call) (fun hnot => absurd hok (by simp [hnot])) hq
  | handleError caller pc =>
      cases caller with
      | command => exact h.elim
      | connect =>
          cases pc with
          | getError | getErrorMessage =>
              cases hq
              exact ⟨_, rfl, h.use⟩
          | free =>
              cases hq
              exact ⟨_, rfl, .inr h.free⟩
      | getStatus key =>
          cases pc with
          | getError | getErrorMessage =>
              cases hq
              exact ⟨_, rfl, h.use⟩
          | free =>
              cases hq
              exact ⟨_, rfl, h.free⟩
  | create =>
      cases hq
      exact ⟨_, rfl, rfl, h.handled, h.freed, h.usedLate⟩
  | openDevice =>
      cases hq
      refine ⟨_, rfl, ?_⟩
      cases env.opens <;> exact h
  | test held =>
      cases hq
      refine ⟨_, rfl, ?_⟩
      cases s.isRunning <;> exact h
  | openFailed | free held =>
      cases hq
      exact ⟨_, rfl, .inl h.free⟩
  | read held =>
      cases hq
      have hread : Books { s with reads := s.reads + 1 } true false 0 :=
        ⟨h.created, h.handled, h.freed, h.usedLate⟩
      refine ⟨_, rfl, ?_⟩
      cases env.events s.reads with
      | none => exact hread
      | some ev =>
          simp only
          split <;> exact hread
  | lock ev held | unlock | destroy held | join held =>
      cases hq
      exact ⟨_, rfl, h⟩
  | switch ev =>
      cases hq
      exact ⟨_, rfl, keeps_switch h ev⟩
  | runStatus key =>
      simp only [main] at hq ⊢
      split at hq
      · next hok =>
          rw [if_pos hok]
          cases hq
          exact ⟨_, rfl, h.call⟩
      · next hnot =>
          rw [if_neg hnot]
          cases hq
          exact ⟨_, rfl, h.call⟩
  | getState key status =>
      cases status with
      | none =>
          cases hq
          exact ⟨_, rfl, h.exit true⟩
      | some state =>
          cases hq
          exact ⟨_, rfl, keeps_command h key state⟩
  | sendPause =>
      cases hq
      exact ⟨_, rfl, h.use⟩
  | exit held =>
      cases hq
      exact ⟨_, rfl, h.elim (·.exit held) (·.exit held)⟩
  | gone held => cases hq

/-- The monitor runs only when it has been created, and does not get to `handle_error`. -/
def MonitorPc.Keeps (s : Shared) : MonitorPc → Prop
  | .start => True
  | .handleError _ => False
  | _ => s.created = true

structure Intact (s : Shared) (ps : Tid → Point) : Prop where
  main : ∃ pc, ps .main = .main pc ∧ pc.Keeps s
  monitor : ∃ mpc, ps .monitor = .monitor mpc ∧ mpc.Keeps s
  signal : ps .signal = .signal

/-- The main thread does not take the creation of the monitor back. -/
theorem created_main (h : s.created = true) : ((main env s pc).after s).created = true := by
  cases pc with
  | handleError caller pc => cases pc <;> exact h
  | runStatus key =>
      simp only [main]
      split <;> exact h
  | getState key status => cases status <;> exact h
  | create => rfl
  | _ => exact h

theorem MonitorPc.Keeps.mono (h : mpc.Keeps s) (hcreated : s.created = true → s'.created = true) :
    mpc.Keeps s' := by
  cases mpc with
  | start => trivial
  | handleError pc => exact h.elim
  | _ => exact hcreated h

/-- What a step of another thread leaves alone. -/
theorem MainPc.Keeps.congr (h : pc.Keeps s) (hcreated : s'.created = s.created)
    (hhandled : s'.handled = s.handled) (hfreed : s'.freed = s.freed)
    (husedLate : s'.usedLate = s.usedLate) (hexited : s'.exited = s.exited) : pc.Keeps s' := by
  have hbooks : ∀ {created handled freed}, Books s created handled freed →
      Books s' created handled freed := by
    intro created handled freed hbooks
    exact ⟨hcreated.trans hbooks.created, hhandled.trans hbooks.handled,
      hfreed.trans hbooks.freed, husedLate.trans hbooks.usedLate⟩
  cases pc with
  | handleError caller pc =>
      cases caller with
      | connect | getStatus key => exact hbooks h
      | command => exact h
  | getState key status => cases status <;> exact hbooks h
  | exit held => exact h.imp hbooks hbooks
  | gone held => exact ⟨hfreed.trans h.1, husedLate.trans h.2.1, hexited.trans h.2.2⟩
  | _ => exact hbooks h

/-- While the monitor is in its critical section, `handle_error` has not freed the connection. -/
theorem MainPc.Keeps.handled (h : pc.Keeps s) (hout : ¬ pc.Inside) (hcreated : s.created = true)
    (hexited : s.exited = false) : s.handled = false := by
  cases pc with
  | connect | create => exact Books.handled h
  | handleError caller pc =>
      cases caller with
      | connect | getStatus key => exact Books.handled h
      | command => exact h.elim
  | getState key status => exact absurd trivial hout
  | exit held =>
      rcases h with h | h
      · exact h.handled
      · exact absurd (h.created.symm.trans hcreated) (by simp)
  | gone held => exact absurd (h.2.2.symm.trans hexited) (by simp)
  | _ => exact Books.handled h

theorem intact_start : Intact initial start where
  main := ⟨.connect, rfl, rfl, rfl, rfl, rfl⟩
  monitor := ⟨.start, rfl, trivial⟩
  signal := rfl

theorem Intact.step_main (h : Intact s ps) (hgood : Succeeds env s ps .main)
    (hexited : s.exited = false) (hq : (code env s (ps .main)).next? = some q) :
    Intact ((code env s (ps .main)).after s) (Function.update ps .main q) := by
  obtain ⟨pc, hp, hkeeps⟩ := h.main
  obtain ⟨mpc, hmonitor, hmkeeps⟩ := h.monitor
  rw [code_of_alive hexited, hp] at hq ⊢
  obtain ⟨pc', rfl, hkeeps'⟩ := lands_main hkeeps hgood hp hq
  exact ⟨⟨pc', by simp, hkeeps'⟩, ⟨mpc, by simpa using hmonitor, hmkeeps.mono created_main⟩,
    by simpa using h.signal⟩

theorem Intact.step_signal (h : Intact s ps) (hexited : s.exited = false)
    (hq : (code env s (ps .signal)).next? = some q) :
    Intact ((code env s (ps .signal)).after s) (Function.update ps .signal q) := by
  obtain ⟨pc, hp, hkeeps⟩ := h.main
  obtain ⟨mpc, hmonitor, hmkeeps⟩ := h.monitor
  rw [code_of_alive hexited, h.signal] at hq ⊢
  cases hq
  exact ⟨⟨pc, by simpa using hp, hkeeps.congr rfl rfl rfl rfl rfl⟩,
    ⟨mpc, by simpa using hmonitor, hmkeeps.mono id⟩, by simp⟩

/-- The monitor goes on without the books being touched. -/
theorem Intact.move_monitor (h : Intact s ps) (hmpc : mpc.Keeps s) :
    Intact s (Function.update ps .monitor (.monitor mpc)) := by
  obtain ⟨pc, hp, hkeeps⟩ := h.main
  exact ⟨⟨pc, by simpa using hp, hkeeps⟩, ⟨mpc, by simp, hmpc⟩, by simpa using h.signal⟩

/-- A call of the monitor does not come behind `handle_error`. -/
theorem Intact.call_monitor (h : Intact s ps) (hhandled : s.handled = false)
    (hmpc : mpc.Keeps s) : Intact s.call (Function.update ps .monitor (.monitor mpc)) := by
  obtain ⟨pc, hp, hkeeps⟩ := h.main
  have husedLate : s.call.usedLate = s.usedLate := by
    simp [Shared.call, Shared.use, hhandled]
  exact ⟨⟨pc, by simpa using hp, hkeeps.congr rfl rfl rfl husedLate rfl⟩,
    ⟨mpc, by simp, hmpc.mono id⟩, by simpa using h.signal⟩

theorem Intact.step_monitor (h : Intact s ps) (hgood : Succeeds env s ps .monitor)
    (hexited : s.exited = false) (halone : Alone inside (fun _ => False) ps .monitor)
    (hq : (code env s (ps .monitor)).next? = some q) :
    Intact ((code env s (ps .monitor)).after s) (Function.update ps .monitor q) := by
  obtain ⟨pc, hp, hkeeps⟩ := h.main
  obtain ⟨mpc, hmonitor, hmkeeps⟩ := h.monitor
  have hhandled : mpc.Inside → s.created = true → s.handled = false := by
    intro hin hcreated
    refine hkeeps.handled (fun hmain => ?_) hcreated hexited
    exact halone .main .mutex1 (by simp) (by rwa [hmonitor]) (by rwa [hp])
  rw [code_of_alive hexited, hmonitor] at hq ⊢
  cases mpc with
  | start =>
      simp only [operation, IrEvent.monitor] at hq ⊢
      split at hq
      · next hcreated =>
          rw [if_pos hcreated]
          cases hq
          exact h.move_monitor hcreated
      · cases hq
  | test =>
      cases hq
      refine h.move_monitor ?_
      cases s.isRunning <;> exact hmkeeps
  | lock | unlock | usleep =>
      cases hq
      exact h.move_monitor hmkeeps
  | changeVolume =>
      cases hq
      refine h.call_monitor (hhandled trivial hmkeeps) ?_
      cases (env.reply s).ok <;> exact hmkeeps
  | clearError =>
      have hok : (env.reply s).ok = true := by simpa only [Succeeds, hmonitor] using hgood
      cases hq
      refine h.call_monitor (hhandled trivial hmkeeps) ?_
      rw [hok]
      exact hmkeeps
  | handleError pc => exact hmkeeps.elim
  | exit => cases hq

abbrev SucceedingRun (env : Env) : Config Tid Shared Point Mutex Empty → Prop :=
  (program env).ReachableBy (Meets (Succeeds env) fun _ _ _ => True)

theorem intact_of_succeeding (h : SucceedingRun env c) : Intact c.shared (points c) := by
  apply conditional_invariant (P := fun s ps _ => Intact s ps) tracks_code not_wait
    not_inside_start h intact_start
  · intro s ps sl sl' t q hintact _ hgood halone hq _
    have hexited : s.exited = false := by
      by_contra hexited
      rw [code_of_exited (by simpa using hexited)] at hq
      cases hq
    cases t with
    | main => exact hintact.step_main hgood hexited hq
    | monitor => exact hintact.step_monitor hgood hexited halone hq
    | signal => exact hintact.step_signal hexited hq
  · exact fun s ps sl t cond hintact _ _ => hintact

theorem Intact.safe (h : Intact s ps) : Safe s := by
  obtain ⟨pc, -, hkeeps⟩ := h.main
  exact hkeeps.safe

/-! ## Behind a failure -/

section Failure

variable {o : Mutex → Option Tid} {threads : Tid → Status Point Mutex Empty} {held : Bool}
  {ev : InputEvent}

/-- A thread uses or frees the connection that `handle_error` has freed. -/
abbrev LeadsUnsafe (env : Env) (c : Config Tid Shared Point Mutex Empty) : Prop :=
  (program env).Leads (fun c => ¬ Safe c.shared) c

theorem not_safe_of_usedLate (h : s.usedLate = true) : ¬ Safe s :=
  fun hsafe => absurd (hsafe.1.symm.trans h) (by simp)

theorem usedLate_use (h : s.handled = true) : s.use.usedLate = true := by
  simp [Shared.use, h]

/-- The process goes on behind `handle_error`, and has got the signal to stop. -/
structure Shared.Stale (s : Shared) : Prop where
  handled : s.handled = true
  alive : s.exited = false
  stopped : s.isRunning = false

/-- The connection is used behind `handle_error`. -/
theorem Shared.Stale.leads_late (hs : s.Stale) (hlate : c.shared.usedLate = s.use.usedLate) :
    LeadsUnsafe env c :=
  .here (not_safe_of_usedLate (hlate.trans (usedLate_use hs.handled)))

theorem leads_free (hs : s.Stale) :
    LeadsUnsafe env (turn o s threads .main (.main (.free held))) :=
  leads_main hs.alive rfl (hs.leads_late rfl)

theorem leads_join_monitor (hs : s.Stale)
    (hmonitor : threads .monitor = .running (.monitor .exit)) :
    LeadsUnsafe env (turn o s threads .main (.main (.join held))) := by
  refine leads_join (code_of_alive hs.alive _) ?_ (leads_free hs)
  have hexit : (turn o s threads .main (.main (.join held))).threads .monitor =
      .running (.monitor .exit) := by simpa [turn] using hmonitor
  rw [hexit]
  simp [Halted, code_of_alive hs.alive, operation, monitor, isHalt]

theorem leads_test (hs : s.Stale) (hmonitor : threads .monitor = .running (.monitor .exit)) :
    LeadsUnsafe env (turn o s threads .main (.main (.test held))) := by
  have htest : main env s (.test held) = .run s (.main (.destroy held)) := by
    simp [main, hs.stopped]
  exact leads_main hs.alive htest (leads_main hs.alive rfl (leads_join_monitor hs hmonitor))

theorem leads_call_main {next onError : MainPc} (hs : s.Stale)
    (hop : main env s pc = runCommand env s next onError) :
    LeadsUnsafe env (turn o s threads .main (.main pc)) :=
  leads_main hs.alive hop (hs.leads_late rfl)

theorem leads_runStatus (hs : s.Stale) (key : StatusKey) :
    LeadsUnsafe env (turn o s threads .main (.main (.runStatus key))) := by
  have hlate : ∀ pc, LeadsUnsafe env (turn o s.call threads .main (.main pc)) :=
    fun _ => hs.leads_late rfl
  cases hok : (env.reply s).ok with
  | true => exact leads_main hs.alive (if_pos hok) (hlate _)
  | false => exact leads_main hs.alive (if_neg (by simp [hok])) (hlate _)

theorem leads_lock_main (hs : s.Stale) (hfree : o .mutex1 = none)
    (hmonitor : threads .monitor = .running (.monitor .exit)) :
    LeadsUnsafe env (turn o s threads .main (.main (.lock ev held))) := by
  refine leads_main_lock hs.alive hfree (leads_main hs.alive rfl ?_)
  rcases switch_cases ev with ⟨-, hswitch | hswitch | ⟨key, hswitch⟩⟩ | ⟨-, hswitch⟩ <;>
    rw [hswitch]
  · exact leads_main_unlock hs.alive hfree (leads_test hs hmonitor)
  · exact leads_call_main hs rfl
  · exact leads_runStatus hs key
  · exact leads_test hs hmonitor

theorem leads_read (hs : s.Stale) (hfree : o .mutex1 = none)
    (hmonitor : threads .monitor = .running (.monitor .exit)) :
    LeadsUnsafe env (turn o s threads .main (.main (.read held))) := by
  have hread : ({ s with reads := s.reads + 1 } : Shared).Stale :=
    ⟨hs.handled, hs.alive, hs.stopped⟩
  refine leads_main hs.alive rfl ?_
  cases env.events s.reads with
  | none => exact leads_test hread hmonitor
  | some ev =>
      simp only
      split
      · exact leads_test hread hmonitor
      · exact leads_lock_main hread hfree hmonitor

/-- Points of the main thread behind which it gets to its loop or to the end. -/
def MainPc.Outside : MainPc → Prop
  | .openDevice | .openFailed | .test _ | .read _ | .lock _ _ | .destroy _ | .join _
  | .free _ => True
  | _ => False

/-- The monitor has left, and the main thread frees the connection once more if it does not use it
before. -/
theorem leads_main_out (hs : s.Stale) (hfree : o .mutex1 = none)
    (hmonitor : threads .monitor = .running (.monitor .exit)) (hpc : pc.Outside) :
    LeadsUnsafe env (turn o s threads .main (.main pc)) := by
  have hfreed : ∀ pc, LeadsUnsafe env (turn o (s.free false) threads .main (.main pc)) :=
    fun _ => hs.leads_late rfl
  cases pc with
  | openDevice =>
      refine leads_main hs.alive rfl ?_
      cases env.opens with
      | true => exact leads_test hs hmonitor
      | false => exact leads_main hs.alive rfl (hfreed _)
  | openFailed => exact leads_main hs.alive rfl (hfreed _)
  | test held => exact leads_test hs hmonitor
  | read held => exact leads_read hs hfree hmonitor
  | lock ev held => exact leads_lock_main hs hfree hmonitor
  | destroy held => exact leads_main hs.alive rfl (leads_join_monitor hs hmonitor)
  | join held => exact leads_join_monitor hs hmonitor
  | free held => exact leads_free hs
  | _ => exact hpc.elim

theorem leads_monitor (hexited : s.exited = false)
    (hop : monitor env s mpc = .run s' (.monitor mpc'))
    (h : LeadsUnsafe env (turn o s' threads .monitor (.monitor mpc'))) :
    LeadsUnsafe env (turn o s threads .monitor (.monitor mpc)) :=
  leads_run ((code_of_alive hexited _).trans hop) h

theorem leads_monitor_exit (hs : s.Stale) (hfree : o .mutex1 = none)
    (hmain : threads .main = .running (.main pc)) (hpc : pc.Outside) :
    LeadsUnsafe env (turn o s threads .monitor (.monitor .exit)) := by
  have hmain' : (turn o s threads .monitor (.monitor .exit)).threads .main =
      .running (.main pc) := by simpa [turn] using hmain
  rw [← turn_self hmain']
  exact leads_main_out hs hfree (turn_threads_self ..) hpc

theorem leads_monitor_test (hs : s.Stale) (hfree : o .mutex1 = none)
    (hmain : threads .main = .running (.main pc)) (hpc : pc.Outside) :
    LeadsUnsafe env (turn o s threads .monitor (.monitor .test)) := by
  have htest : monitor env s .test = .run s (.monitor .exit) := by simp [monitor, hs.stopped]
  exact leads_monitor hs.alive htest (leads_monitor_exit hs hfree hmain hpc)

/-- The monitor leaves, if it does not use the connection before. -/
theorem leads_monitor_out (hs : s.Stale) (hcreated : s.created = true) (hfree : o .mutex1 = none)
    (hmain : threads .main = .running (.main pc)) (hpc : pc.Outside) (hmpc : ¬ mpc.Inside) :
    LeadsUnsafe env (turn o s threads .monitor (.monitor mpc)) := by
  cases mpc with
  | start =>
      exact leads_monitor hs.alive (if_pos hcreated) (leads_monitor_test hs hfree hmain hpc)
  | test => exact leads_monitor_test hs hfree hmain hpc
  | lock =>
      refine leads_lock (code_of_alive hs.alive _) hfree ?_
      exact leads_monitor hs.alive rfl (hs.leads_late rfl)
  | usleep => exact leads_monitor hs.alive rfl (leads_monitor_test hs hfree hmain hpc)
  | exit => exact leads_monitor_exit hs hfree hmain hpc
  | changeVolume | clearError | handleError pc | unlock => exact absurd trivial hmpc

/-- Both threads are out of their critical sections, behind `handle_error`. -/
theorem leads_of_handled (hhandled : c.shared.handled = true) (hexited : c.shared.exited = false)
    (hcreated : c.shared.created = true) (hfree : c.owner .mutex1 = none)
    (hmain : c.threads .main = .running (.main pc)) (hpc : pc.Outside)
    (hmonitor : c.threads .monitor = .running (.monitor mpc)) (hmpc : ¬ mpc.Inside)
    (hsignal : c.threads .signal = .running .signal) : LeadsUnsafe env c := by
  refine leads_round hsignal (code_of_alive hexited _) ?_
  have hs : ({ c.shared with isRunning := false } : Shared).Stale := ⟨hhandled, hexited, rfl⟩
  have hmonitor' : (⟨c.owner, { c.shared with isRunning := false }, c.threads⟩ :
      Config Tid Shared Point Mutex Empty).threads .monitor = .running (.monitor mpc) := hmonitor
  rw [← turn_self hmonitor']
  exact leads_monitor_out hs hcreated hfree hmain hpc hmpc

theorem leads_of_main_failed (hexited : c.shared.exited = false)
    (hcreated : c.shared.created = true) (hown : c.owner .mutex1 = some .main)
    (hmain : c.threads .main = .running (.main (.handleError .command .getError)))
    (hmonitor : c.threads .monitor = .running (.monitor mpc)) (hmpc : ¬ mpc.Inside)
    (hsignal : c.threads .signal = .running .signal) : LeadsUnsafe env c := by
  have hunlock : code env (c.shared.use.use.free true) (.main .unlock) =
      .unlock .mutex1 (.main (.test false)) :=
    code_of_alive (s := c.shared.use.use.free true) hexited _
  rw [← turn_self hmain]
  refine leads_main hexited rfl (leads_main hexited rfl (leads_main hexited rfl ?_))
  refine leads_unlock hunlock hown ?_
  have hout : (MainPc.test false).Outside := trivial
  refine leads_of_handled (by simp [turn, Shared.free]) hexited hcreated (by simp)
    (turn_threads_self ..) hout ?_ hmpc ?_
  · simpa [turn] using hmonitor
  · simpa [turn] using hsignal

theorem leads_of_monitor_failed (hexited : c.shared.exited = false)
    (hcreated : c.shared.created = true) (hown : c.owner .mutex1 = some .monitor)
    (hmain : c.threads .main = .running (.main pc)) (hpc : pc.Outside ∨ c.shared.freed = 1)
    (hmonitor : c.threads .monitor = .running (.monitor (.handleError .getError)))
    (hsignal : c.threads .signal = .running .signal) : LeadsUnsafe env c := by
  have hunlock : code env (c.shared.use.use.free true) (.monitor .unlock) =
      .unlock .mutex1 (.monitor .usleep) :=
    code_of_alive (s := c.shared.use.use.free true) hexited _
  rw [← turn_self hmonitor]
  refine leads_monitor hexited rfl (leads_monitor hexited rfl (leads_monitor hexited rfl ?_))
  rcases hpc with hpc | hfreed
  · refine leads_unlock hunlock hown ?_
    have hout : ¬ MonitorPc.usleep.Inside := id
    refine leads_of_handled (by simp [turn, Shared.free]) hexited hcreated (by simp) ?_ hpc
      (turn_threads_self ..) hout ?_
    · simpa [turn] using hmain
    · simpa [turn] using hsignal
  · refine .here fun hsafe => ?_
    have hle : c.shared.freed + 1 ≤ 1 := hsafe.2
    omega

end Failure

/-- A main thread that is not in its critical section gets to its loop or to the end, but where it
has freed the connection itself. -/
theorem MainPc.Keeps.outside (h : pc.Keeps s) (hout : ¬ pc.Inside) (hcreated : s.created = true)
    (hexited : s.exited = false) : pc.Outside ∨ s.freed = 1 := by
  cases pc with
  | connect | create => exact absurd (h.created.symm.trans hcreated) (by simp)
  | handleError caller pc =>
      cases caller with
      | connect => exact absurd (Books.created h |>.symm.trans hcreated) (by simp)
      | getStatus key => exact absurd trivial hout
      | command => exact h.elim
  | openDevice | openFailed | test held | read held | lock ev held | destroy held | join held
  | free held => exact .inl trivial
  | exit held => exact .inr (h.elim Books.freed Books.freed)
  | gone held => exact absurd (h.2.2.symm.trans hexited) (by simp)
  | switch ev | changeVolume | clearError | runStatus key | runStop | sendPause | responseFinish
  | runPlay | unlock => exact absurd trivial hout
  | getState key status => exact absurd trivial hout

theorem leads_of_failure {w : Option Tid} (h : SucceedingRun env c)
    (hs : (program env).step c (.run t w) = some c')
    (hfails : ¬ Succeeds env c.shared (points c) t) : LeadsUnsafe env c' := by
  have hintact := intact_of_succeeding h
  have howned := owned_of_reachable tracks_code not_inside_start h.reachable
  have hrunning : ∀ {t p}, points c t = p → c.threads t = .running p :=
    running_of_points not_wait h.reachable
  have hexited : c.shared.exited = false := by
    by_contra hexited
    have hhalt : code env c.shared (points c t) = .halt :=
      code_of_exited (by simpa using hexited) (points c t)
    simp [program, Pthread.program, step, hrunning rfl, hhalt, exec] at hs
  obtain ⟨pc, hpc, hkeeps⟩ := hintact.main
  obtain ⟨mpc, hmpc, hmkeeps⟩ := hintact.monitor
  have hmain := hrunning hpc
  have hmonitor := hrunning hmpc
  have hsignal := hrunning hintact.signal
  have hsole : pc.Inside → ¬ mpc.Inside := by
    intro hin hmin
    have hmainowner := howned.owner_of_inside (m := .mutex1) hmain hin
    have hmonitorowner := howned.owner_of_inside (m := .mutex1) hmonitor hmin
    simp [hmainowner] at hmonitorowner
  cases t with
  | main =>
      have hfail : ∀ next, main env c.shared pc =
          runCommand env c.shared next (.handleError .command .getError) →
          (env.reply c.shared).ok = false → pc.Inside → c.shared.created = true →
          LeadsUnsafe env c' := by
        intro next hop hnot hin hcreated
        simp only [program, Pthread.program, step, hmain, code_of_alive hexited, operation, hop,
          runCommand, hnot, exec, Option.some.injEq] at hs
        subst hs
        exact leads_of_main_failed hexited hcreated (howned.owner_of_inside hmain hin)
          (by simp) (by simpa using hmonitor) (hsole hin) (by simpa using hsignal)
      cases pc with
      | clearError | runStop | responseFinish | runPlay =>
          simp only [Succeeds, hpc, Bool.not_eq_true] at hfails
          exact hfail _ rfl hfails trivial (Books.created hkeeps)
      | _ => simp [Succeeds, hpc] at hfails
  | monitor =>
      cases mpc with
      | clearError =>
          simp only [Succeeds, hmpc, Bool.not_eq_true] at hfails
          simp only [program, Pthread.program, step, hmonitor, code_of_alive hexited, operation,
            monitor, hfails, exec, Option.some.injEq] at hs
          subst hs
          have hout : ¬ pc.Inside := fun hin => hsole hin trivial
          exact leads_of_monitor_failed hexited hmkeeps (howned.owner_of_inside hmonitor trivial)
            (by simpa using hmain) (hkeeps.outside hout hmkeeps hexited)
            (by simp) (by simpa using hsignal)
      | _ => simp [Succeeds, hmpc] at hfails
  | signal => simp [Succeeds, hintact.signal] at hfails

/-- For any events, replies and outcome of opening the device: in a run in which no call fails whose
failure goes to `handle_error`, but for that which asks for the status, the connection is not used
after `handle_error` has freed it, and freed at most once, in any interleaving. The first such
failure leads to a state in which it is used or freed again. -/
theorem safe_until_failure (env : Env) (c) (h : SucceedingRun env c) :
    Safe c.shared ∧ ∀ t w c', (program env).step c (.run t w) = some c' →
      ¬ Succeeds env c.shared (points c) t → LeadsUnsafe env c' :=
  ⟨(intact_of_succeeding h).safe, fun _ _ _ hs hfails => leads_of_failure h hs hfails⟩

/-- The key to mute is pressed. The player is lost with the first command, for good or until the
error is cleared. -/
def muted (cleared : Bool) : Env where
  events k := if k = 0 then some ⟨evKey, keyMute, 1⟩ else none
  replies k := ⟨k = 0 || (k = 2 && cleared), .unknown⟩
  opens := true

/-- The main thread handles the key and leaves its loop on a signal, as does the monitor. -/
def muteAndLeave (handling : ℕ) : List (Action Tid) :=
  List.replicate (10 + handling) (Action.run Tid.main none) ++ [Action.run Tid.signal none] ++
    List.replicate 2 (Action.run Tid.monitor none) ++ List.replicate 4 (Action.run Tid.main none)

def cleared : Option (Config Tid Shared Point Mutex Empty) :=
  ((program (muted true)).guarded (Meets (Succeeds (muted true)) fun _ _ _ => True)).exec
    (program (muted true)).init (muteAndLeave 0)

theorem safe_until_failure_cleared : ∃ c, cleared = some c ∧ Safe c.shared ∧
    c.shared.freed = 1 ∧ c.threads .main = .running (.main (.exit false)) := by
  have hrun : cleared.isSome = true := by decide
  have hreach : SucceedingRun (muted true) (cleared.get hrun) :=
    .of_exec (Option.some_get hrun).symm
  exact ⟨cleared.get hrun, (Option.some_get hrun).symm,
    (safe_until_failure (muted true) _ hreach).1, rfl, rfl⟩

def notCleared : Option (Config Tid Shared Point Mutex Empty) :=
  (program (muted false)).exec (program (muted false)).init (muteAndLeave 3)

/-- The connection is freed by `handle_error`, and at the end of `main`. -/
theorem freed_twice : ∃ c, (program (muted false)).Reachable c ∧ c.shared.freed = 2 ∧
    ¬ Safe c.shared := by
  have hrun : notCleared.isSome = true := by decide
  refine ⟨notCleared.get hrun, System.Reachable.init.exec (Option.some_get hrun).symm, rfl, ?_⟩
  intro hsafe
  have hle : 2 ≤ 1 := hsafe.2
  omega

end PthreadBenchmark.IrEvent
