import PthreadBenchmark.IrEvent.Model
import PthreadBenchmark.Shared.PthreadRuns

/-! # The lock discipline of the event loop

The switch is left by `continue` for any key that it does not know. -/

namespace PthreadBenchmark.IrEvent

open Pthread

variable {env : Env} {s : Shared} {p q : Point} {t : Tid}
  {c : Config Tid Shared Point Mutex Empty}

/-! ## Mutual exclusion -/

def MainPc.Inside : MainPc → Prop
  | .connect | .handleError .connect _ | .create | .openDevice | .openFailed => False
  | .test held | .read held | .lock _ held | .destroy held | .join held | .free held
  | .exit held | .gone held => held = true
  | _ => True

def MonitorPc.Inside : MonitorPc → Prop
  | .changeVolume | .clearError | .handleError _ | .unlock => True
  | _ => False

def inside (p : Point) (_ : Mutex) : Prop :=
  match p with
  | .main pc => pc.Inside
  | .monitor pc => pc.Inside
  | .signal => False

theorem code_of_exited (h : s.exited = true) (p : Point) : code env s p = .halt := if_pos h

theorem code_of_alive (h : s.exited = false) (p : Point) : code env s p = operation env s p :=
  if_neg (by simp [h])

theorem tracks_runCommand {pc next onError : MainPc} (hnext : next.Inside ↔ pc.Inside)
    (herror : onError.Inside ↔ pc.Inside) :
    Tracks inside (.main pc) (runCommand env s next onError) := by
  intro m
  cases hok : (env.reply s).ok with
  | true => simpa [inside] using hnext
  | false => simpa [inside] using herror

theorem tracks_handleError (goto : ErrorPc → Point) {next : Point} (pc : ErrorPc)
    (hgoto : ∀ pc' m, inside (goto pc') m ↔ inside (goto pc) m)
    (hnext : ∀ m, inside next m ↔ inside (goto pc) m) :
    Tracks inside (goto pc) (handleError s goto next pc) := by
  cases pc with
  | getError | getErrorMessage => exact hgoto _
  | free => exact hnext

def keys : List ℕ := [keyPower, keyMute, keyStop, keyPlaypause]

/-- The switch goes on to the command of a key or to the end of the iteration, but for a key that it
does not know. -/
theorem switch_cases (ev : InputEvent) :
    ev.code ∈ keys ∧ (switch ev = .unlock ∨ switch ev = .changeVolume ∨
      ∃ key, switch ev = .runStatus key) ∨ ev.code ∉ keys ∧ switch ev = .test true := by
  simp only [keys, List.mem_cons, List.not_mem_nil, or_false, switch]
  by_cases hvalue : ev.value = 1 <;> simp only [hvalue, if_true, if_false]
  all_goals
    split
    · next h => exact .inl ⟨.inl h, .inl rfl⟩
    split
    · next h => exact .inl ⟨.inr (.inl h), by simp⟩
    split
    · next h => exact .inl ⟨.inr (.inr (.inl h)), by simp⟩
    split
    · next h => exact .inl ⟨.inr (.inr (.inr h)), by simp⟩
    · next h₁ h₂ h₃ h₄ => exact .inr ⟨by simp [h₁, h₂, h₃, h₄], rfl⟩

theorem inside_switch (ev : InputEvent) : (switch ev).Inside := by
  rcases switch_cases ev with ⟨-, h | h | ⟨key, h⟩⟩ | ⟨-, h⟩
  · exact h ▸ trivial
  · exact h ▸ trivial
  · exact h ▸ trivial
  · exact h ▸ rfl

theorem inside_command (key : StatusKey) (state : MpdState) : (command key state).Inside := by
  cases key <;> cases state <;> trivial

theorem tracks_main (env : Env) (s : Shared) (pc : MainPc) :
    Tracks inside (.main pc) (main env s pc) := by
  cases pc with
  | connect => exact tracks_runCommand Iff.rfl Iff.rfl
  | changeVolume | clearError | runStop | responseFinish | runPlay =>
      exact tracks_runCommand Iff.rfl Iff.rfl
  | handleError caller pc =>
      refine tracks_handleError (fun pc => .main (.handleError caller pc)) pc ?_ ?_
      · cases caller <;> exact fun _ _ => Iff.rfl
      · cases caller <;> simp [inside, MainPc.Inside, Caller.next]
  | create | sendPause => exact fun _ => Iff.rfl
  | openFailed =>
      intro m
      simp [inside, MainPc.Inside]
  | openDevice =>
      intro m
      cases env.opens <;> simp [inside, MainPc.Inside]
  | test held =>
      intro m
      cases s.isRunning <;> rfl
  | read held =>
      intro m
      cases env.events s.reads with
      | none => rfl
      | some ev =>
          simp only
          split <;> rfl
  | lock ev held =>
      intro m
      exact ⟨fun _ => .inl rfl, fun _ => trivial⟩
  | switch ev => exact fun _ => ⟨fun _ => trivial, fun _ => inside_switch ev⟩
  | runStatus key =>
      simp only [main]
      split <;> exact fun _ => Iff.rfl
  | getState key status =>
      cases status with
      | none =>
          intro m
          simp [inside, MainPc.Inside]
      | some state => exact fun _ => ⟨fun _ => trivial, fun _ => inside_command key state⟩
  | unlock =>
      intro m
      simp [inside, MainPc.Inside]
  | destroy held | join held | free held | exit held => exact fun _ => Iff.rfl
  | gone held => trivial

theorem tracks_monitor (env : Env) (s : Shared) (pc : MonitorPc) :
    Tracks inside (.monitor pc) (monitor env s pc) := by
  cases pc with
  | start =>
      simp only [monitor]
      split
      · exact fun _ => Iff.rfl
      · trivial
  | test =>
      intro m
      cases s.isRunning <;> rfl
  | lock | unlock =>
      intro m
      simp [inside, MonitorPc.Inside]
  | changeVolume | clearError =>
      intro m
      cases (env.reply s).ok <;> rfl
  | handleError pc =>
      exact tracks_handleError (fun pc => .monitor (.handleError pc)) pc
        (fun _ _ => Iff.rfl) fun _ => Iff.rfl
  | usleep => exact fun _ => Iff.rfl
  | exit => trivial

theorem tracks_code (s : Shared) (p : Point) : Tracks inside p (code env s p) := by
  cases hexited : s.exited with
  | true =>
      rw [code_of_exited hexited]
      trivial
  | false =>
      rw [code_of_alive hexited]
      cases p with
      | main pc => exact tracks_main env s pc
      | monitor pc => exact tracks_monitor env s pc
      | signal => exact fun _ => Iff.rfl

theorem not_inside_start (t : Tid) (m : Mutex) : ¬ inside (start t) m := by
  cases t <;> exact id

/-! ## Events with keys that the switch knows -/

/-- Every key pressed is one of the four. -/
def KnownKeys (events : ℕ → Option InputEvent) : Prop :=
  ∀ k ev, events k = some ev → ev.type = evKey → ev.code ∈ keys

/-- The main thread is in its loop without the mutex, and has a key that is known. -/
def MainPc.Settled : MainPc → Prop
  | .test held | .read held => held = false
  | .lock ev held => held = false ∧ ev.code ∈ keys
  | .switch ev => ev.code ∈ keys
  | _ => True

theorem settled_switch {ev : InputEvent} (h : ev.code ∈ keys) : (switch ev).Settled := by
  rcases switch_cases ev with ⟨-, hswitch | hswitch | ⟨key, hswitch⟩⟩ | ⟨hnot, -⟩
  · exact hswitch ▸ trivial
  · exact hswitch ▸ trivial
  · exact hswitch ▸ trivial
  · exact absurd h hnot

theorem settled_command (key : StatusKey) (state : MpdState) : (command key state).Settled := by
  cases key <;> cases state <;> trivial

theorem settled_runCommand {next onError : MainPc} (hnext : next.Settled)
    (herror : onError.Settled) (hq : (runCommand env s next onError).next? = some q) :
    ∃ pc, q = .main pc ∧ pc.Settled := by
  cases hq
  refine ⟨_, rfl, ?_⟩
  split
  · exact hnext
  · exact herror

theorem settled_main {pc : MainPc} (hkeys : KnownKeys env.events) (h : pc.Settled)
    (hq : (main env s pc).next? = some q) : ∃ pc', q = .main pc' ∧ pc'.Settled := by
  cases pc with
  | connect | changeVolume | clearError | runStop | responseFinish | runPlay =>
      refine settled_runCommand ?_ ?_ hq <;> trivial
  | handleError caller pc =>
      cases pc with
      | getError | getErrorMessage =>
          cases hq
          exact ⟨_, rfl, trivial⟩
      | free =>
          cases hq
          exact ⟨_, rfl, by cases caller <;> trivial⟩
  | create | openFailed | sendPause | destroy held | join held | free held | exit held =>
      cases hq
      exact ⟨_, rfl, trivial⟩
  | unlock =>
      cases hq
      exact ⟨_, rfl, rfl⟩
  | openDevice =>
      cases hq
      refine ⟨_, rfl, ?_⟩
      split
      · rfl
      · trivial
  | test held =>
      cases hq
      refine ⟨_, rfl, ?_⟩
      split
      · exact h
      · trivial
  | read held =>
      cases hq
      refine ⟨_, rfl, ?_⟩
      cases hev : env.events s.reads with
      | none => exact h
      | some ev =>
          by_cases htype : ev.type = evKey
          · simp only [htype, ne_eq, not_true_eq_false, if_false]
            exact ⟨h, hkeys _ ev hev htype⟩
          · simp only [htype, ne_eq, not_false_eq_true, if_true]
            exact h
  | lock ev held =>
      cases hq
      exact ⟨_, rfl, h.2⟩
  | switch ev =>
      cases hq
      exact ⟨_, rfl, settled_switch h⟩
  | runStatus key =>
      simp only [main] at hq
      split at hq <;> cases hq <;> exact ⟨_, rfl, trivial⟩
  | getState key status =>
      cases status with
      | none =>
          cases hq
          exact ⟨_, rfl, trivial⟩
      | some state =>
          cases hq
          exact ⟨_, rfl, settled_command key state⟩
  | gone held => cases hq

theorem next_monitor {pc : MonitorPc} (hq : (monitor env s pc).next? = some q) :
    ∃ pc', q = .monitor pc' := by
  cases pc with
  | start =>
      simp only [monitor] at hq
      split at hq <;> cases hq
      exact ⟨_, rfl⟩
  | handleError pc => cases pc <;> cases hq <;> exact ⟨_, rfl⟩
  | exit => cases hq
  | test | lock | changeVolume | clearError | unlock | usleep =>
      cases hq
      exact ⟨_, rfl⟩

/-- The points of each thread, with a property of those of the main thread. -/
def Point.Fits (good : MainPc → Prop) : Tid → Point → Prop
  | .main, p => ∃ pc, p = .main pc ∧ good pc
  | .monitor, p => ∃ pc, p = .monitor pc
  | .signal, p => p = .signal

theorem next_fits {good : MainPc → Prop}
    (hmain : ∀ s pc q, good pc → (main env s pc).next? = some q → ∃ pc', q = .main pc' ∧ good pc')
    (h : p.Fits good t) (hq : (code env s p).next? = some q) : q.Fits good t := by
  cases hexited : s.exited with
  | true =>
      rw [code_of_exited hexited] at hq
      cases hq
  | false =>
      rw [code_of_alive hexited] at hq
      cases t with
      | main =>
          obtain ⟨pc, rfl, hgood⟩ := h
          exact hmain s pc q hgood hq
      | monitor =>
          obtain ⟨pc, rfl⟩ := h
          exact next_monitor hq
      | signal =>
          obtain rfl : p = .signal := h
          cases hq
          rfl

theorem settled_of_reachable (hkeys : KnownKeys env.events) (h : (program env).Reachable c)
    (t : Tid) : (points c t).Fits MainPc.Settled t := by
  refine fits_of_reachable h ?_ ?_ t
  · intro t
    cases t with
    | main => exact ⟨.connect, rfl, trivial⟩
    | monitor => exact ⟨.start, rfl⟩
    | signal => rfl
  · intro s t p q hfits hq
    exact next_fits (fun s pc q h => settled_main hkeys h) hfits hq

/-! ## The discipline -/

/-- The main thread is at a point of its loop outside of the switch. -/
def MainPc.Waiting : MainPc → Prop
  | .test _ | .read _ | .lock _ _ => True
  | _ => False

/-- The mutex that an iteration locks is unlocked before the next one, so that the main thread never
locks a mutex it owns; and it is free while the main thread reads, but for the critical section of
the monitor. -/
structure Disciplined (c : Config Tid Shared Point Mutex Empty) : Prop where
  unlocked : ∀ pc, c.threads .main = .running (.main pc) → pc.Waiting →
    c.owner .mutex1 ≠ some .main
  free : ∀ held, c.threads .main = .running (.main (.read held)) →
    (∀ pc, c.threads .monitor = .running (.monitor pc) → ¬ pc.Inside) → c.owner .mutex1 = none

theorem not_inside_of_settled {pc : MainPc} (h : pc.Settled) (hwaiting : pc.Waiting) :
    ¬ pc.Inside := by
  cases pc <;> simp_all [MainPc.Settled, MainPc.Waiting, MainPc.Inside]

theorem disciplined_of_known (hkeys : KnownKeys env.events) (h : (program env).Reachable c) :
    Disciplined c := by
  have howned := owned_of_reachable tracks_code not_inside_start h
  have hfits := settled_of_reachable hkeys h
  have hrunning : ∀ {t p}, points c t = p → c.threads t = .running p :=
    running_of_points not_wait h
  have hholds : ∀ t, c.owner .mutex1 = some t → inside (points c t) .mutex1 := by
    intro t ht
    have hin := (howned.owner t .mutex1).mp ht
    rwa [hrunning rfl] at hin
  have hunlocked : ∀ pc, c.threads .main = .running (.main pc) → pc.Waiting →
      c.owner .mutex1 ≠ some .main := by
    intro pc hpc hwaiting howner
    obtain ⟨pc', hpc', hsettled⟩ := hfits .main
    obtain rfl : pc = pc' := by simpa [points_of_running hpc] using hpc'
    have hin := hholds .main howner
    rw [hpc'] at hin
    exact not_inside_of_settled hsettled hwaiting hin
  refine ⟨hunlocked, fun held hread hmonitor => ?_⟩
  cases howner : c.owner .mutex1 with
  | none => rfl
  | some t =>
      have hin := hholds t howner
      cases t with
      | main => exact absurd howner (hunlocked (.read held) hread trivial)
      | monitor =>
          obtain ⟨pc, hpc⟩ := hfits .monitor
          rw [hpc] at hin
          exact absurd hin (hmonitor pc (hrunning hpc))
      | signal =>
          have hsignal : points c .signal = .signal := hfits .signal
          rw [hsignal] at hin
          exact hin.elim

/-! ## A key that the switch does not know -/

section Unknown

variable {s' : Shared} {pc pc' : MainPc} {o : Mutex → Option Tid}
  {threads : Tid → Status Point Mutex Empty} {G : Config Tid Shared Point Mutex Empty → Prop}
  {ev : InputEvent}

theorem leads_main (hexited : s.exited = false) (hop : main env s pc = .run s' (.main pc'))
    (h : (program env).Leads G (turn o s' threads .main (.main pc'))) :
    (program env).Leads G (turn o s threads .main (.main pc)) :=
  leads_run ((code_of_alive hexited _).trans hop) h

theorem leads_main_lock {held : Bool} (hexited : s.exited = false) (hfree : o .mutex1 = none)
    (h : (program env).Leads G
      (turn (Function.update o .mutex1 (some .main)) s threads .main (.main (.switch ev)))) :
    (program env).Leads G (turn o s threads .main (.main (.lock ev held))) :=
  leads_lock (code_of_alive hexited _) hfree h

theorem leads_main_unlock (hexited : s.exited = false) (hfree : o .mutex1 = none)
    (h : (program env).Leads G (turn o s threads .main (.main (.test false)))) :
    (program env).Leads G (turn (Function.update o .mutex1 (some .main)) s threads .main
      (.main .unlock)) := by
  refine leads_unlock (code_of_alive hexited _) (Function.update_self ..) ?_
  rwa [free_again hfree]

/-- The player answers all calls and does not say what it does, and the device can be opened. -/
def quiet (events : ℕ → Option InputEvent) : Env := ⟨events, fun _ => ⟨true, .unknown⟩, true⟩

variable {events : ℕ → Option InputEvent}

/-- What the main thread needs to go round its loop. -/
structure Shared.Going (s : Shared) (k : ℕ) : Prop where
  isRunning : s.isRunning = true
  alive : s.exited = false
  reads : s.reads = k

theorem Shared.Going.test {k : ℕ} {held : Bool} (hs : s.Going k) :
    main env s (.test held) = .run s (.main (.read held)) := by
  simp only [main, hs.isRunning, if_true]

theorem main_read_key (hev : env.events s.reads = some ev) (htype : ev.type = evKey)
    (held : Bool) :
    main env s (.read held) = .run { s with reads := s.reads + 1 } (.main (.lock ev held)) := by
  simp [main, hev, htype]

theorem main_read_skip (h : ∀ ev, env.events s.reads = some ev → ev.type ≠ evKey) (held : Bool) :
    main env s (.read held) = .run { s with reads := s.reads + 1 } (.main (.test held)) := by
  cases hev : env.events s.reads with
  | none => simp [main, hev]
  | some ev => simp [main, hev, h ev hev]

/-- An iteration for a key that is known gives the mutex back. -/
theorem leads_switch {k : ℕ} (hs : s.Going k) (hkey : ev.code ∈ keys) (hfree : o .mutex1 = none)
    (h : ∀ s' : Shared, s'.Going k →
      (program (quiet events)).Leads G (turn o s' threads .main (.main (.test false)))) :
    (program (quiet events)).Leads G (turn (Function.update o .mutex1 (some .main)) s threads .main
      (.main (switch ev))) := by
  have hcall : s.call.Going k := ⟨hs.isRunning, hs.alive, hs.reads⟩
  rcases switch_cases ev with ⟨-, hswitch | hswitch | ⟨key, hswitch⟩⟩ | ⟨hnot, -⟩
  · rw [hswitch]
    exact leads_main_unlock hs.alive hfree (h s hs)
  · rw [hswitch]
    exact leads_main hs.alive rfl (leads_main_unlock hcall.alive hfree (h _ hcall))
  · rw [hswitch]
    have hcommand : main (quiet events) s.call (.getState key (some .unknown)) =
        .run s.call (.main .unlock) := by cases key <;> rfl
    exact leads_main hs.alive rfl (leads_main hcall.alive hcommand
      (leads_main_unlock hcall.alive hfree (h _ hcall)))
  · exact absurd hkey hnot

/-- A key that is not known leads back to the loop with the mutex. -/
theorem leads_unknown_key {k : ℕ} (hs : s.Going k) (hfree : o .mutex1 = none)
    (hev : events k = some ev) (htype : ev.type = evKey) (hcode : ev.code ∉ keys) :
    (program (quiet events)).Leads (fun c => ¬ Disciplined c)
      (turn o s threads .main (.main (.test false))) := by
  have hswitch : switch ev = .test true := by
    rcases switch_cases ev with ⟨hkey, -⟩ | ⟨-, hswitch⟩
    · exact absurd hkey hcode
    · exact hswitch
  have hread : (quiet events).events s.reads = some ev := by rw [hs.reads]; exact hev
  refine leads_main hs.alive hs.test (leads_main hs.alive (main_read_key hread htype false) ?_)
  refine leads_main_lock hs.alive hfree (leads_main hs.alive rfl ?_)
  rw [hswitch]
  refine .here fun hdisciplined => ?_
  exact hdisciplined.unlocked (.test true) (turn_threads_self ..) trivial (by simp)

/-- The main thread gets to the first key that the switch does not know. -/
theorem leads_unknown {k d : ℕ} (hs : s.Going k) (hfree : o .mutex1 = none)
    (hknown : ∀ k' ev, k ≤ k' → k' < k + d → events k' = some ev → ev.type = evKey →
      ev.code ∈ keys)
    (hev : events (k + d) = some ev) (htype : ev.type = evKey) (hcode : ev.code ∉ keys) :
    (program (quiet events)).Leads (fun c => ¬ Disciplined c)
      (turn o s threads .main (.main (.test false))) := by
  induction d generalizing k s with
  | zero => exact leads_unknown_key hs hfree hev htype hcode
  | succ d ih =>
      have hnext : ∀ s' : Shared, s'.Going (k + 1) →
          (program (quiet events)).Leads (fun c => ¬ Disciplined c)
            (turn o s' threads .main (.main (.test false))) := by
        intro s' hs'
        refine ih hs' (fun k' ev hle hlt => hknown k' ev (by omega) (by omega)) ?_
        rwa [show k + 1 + d = k + (d + 1) by omega]
      have hread : ({ s with reads := s.reads + 1 } : Shared).Going (k + 1) :=
        ⟨hs.isRunning, hs.alive, by simp [hs.reads]⟩
      refine leads_main hs.alive hs.test ?_
      by_cases hkey : ∃ ev, (quiet events).events s.reads = some ev ∧ ev.type = evKey
      · obtain ⟨ev', hev', htype'⟩ := hkey
        have hk : events k = some ev' := by rw [← hs.reads]; exact hev'
        refine leads_main hs.alive (main_read_key hev' htype' false) ?_
        refine leads_main_lock hread.alive hfree (leads_main hread.alive rfl ?_)
        exact leads_switch hread (hknown k ev' le_rfl (by omega) hk htype') hfree hnext
      · have hskip := main_read_skip (fun ev hev htype => hkey ⟨ev, hev, htype⟩) false
        exact leads_main hs.alive hskip (hnext _ hread)

theorem exists_not_disciplined (h : ¬ KnownKeys events) :
    ∃ c, (program (quiet events)).Reachable c ∧ ¬ Disciplined c := by
  classical
  have hsome : ∃ k ev, events k = some ev ∧ ev.type = evKey ∧ ev.code ∉ keys := by
    simpa [KnownKeys] using h
  obtain ⟨ev, hev, htype, hcode⟩ := Nat.find_spec hsome
  refine System.Leads.reachable (S := program (quiet events)) ?_ .init
  have hinit : (program (quiet events)).init =
      turn (fun _ => none) initial (fun t => .running (start t)) .main (.main .connect) :=
    (turn_self rfl).symm
  rw [hinit]
  have hopen : ∀ s, main (quiet events) s .openDevice = .run s (.main (.test false)) :=
    fun _ => rfl
  refine leads_main rfl rfl (leads_main rfl rfl (leads_main rfl (hopen _) ?_))
  refine leads_unknown (k := 0) (d := Nat.find hsome) ⟨rfl, rfl, rfl⟩ rfl ?_ ?_ htype hcode
  · intro k ev _ hlt hev htype
    by_contra hcode
    exact Nat.find_min hsome (by omega) ⟨ev, hev, htype, hcode⟩
  · rwa [Nat.zero_add]

end Unknown

/-- For any events, whatever the player answers and whether the device can be opened, every run is
disciplined in every interleaving, if and only if each key pressed is one that the switch knows. -/
theorem disciplined_iff (events : ℕ → Option InputEvent) :
    (∀ replies opens c, (program ⟨events, replies, opens⟩).Reachable c → Disciplined c) ↔
      KnownKeys events := by
  constructor
  · intro h
    by_contra hunknown
    obtain ⟨c, hreach, hnot⟩ := exists_not_disciplined hunknown
    exact hnot (h _ _ c hreach)
  · exact fun hkeys replies opens c h => disciplined_of_known hkeys h

/-- The key A is pressed, and then the key to stop. -/
def keyA : ℕ → Option InputEvent
  | 0 => some ⟨evKey, 30, 1⟩
  | 1 => some ⟨evKey, keyStop, 1⟩
  | _ => none

def stopBehindA : Option (Config Tid Shared Point Mutex Empty) :=
  (program (quiet keyA)).exec (program (quiet keyA)).init (List.replicate 9 (.run .main none))

/-- The main thread is about to lock the mutex for the second key, and still owns it. -/
theorem locks_while_held : ∃ c, (program (quiet keyA)).Reachable c ∧
    c.threads .main = .running (.main (.lock ⟨evKey, keyStop, 1⟩ true)) ∧
    c.owner .mutex1 = some .main ∧ ¬ Disciplined c := by
  have hrun : stopBehindA.isSome = true := by decide
  refine ⟨stopBehindA.get hrun, System.Reachable.init.exec (Option.some_get hrun).symm, rfl, rfl,
    ?_⟩
  intro hdisciplined
  exact hdisciplined.unlocked (.lock ⟨evKey, keyStop, 1⟩ true) rfl trivial rfl

end PthreadBenchmark.IrEvent
