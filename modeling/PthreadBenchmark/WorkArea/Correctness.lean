import PthreadBenchmark.WorkArea.Model
import PthreadBenchmark.Shared.PthreadConditions
import PthreadBenchmark.Shared.PthreadRest
import Mathlib.Algebra.GroupWithZero.Nat

/-! # The last line is never taken away

Behind the line that starts with `end` the second thread leaves without clearing the work area, and
`main` waits for it to be clear. -/

namespace PthreadBenchmark.WorkArea

open Pthread

variable {lines : List (List Char)} {s : Shared} {ps : Tid → Point} {p q : Point}
  {c : Config Tid Shared Point Mutex Cond}

/-! ## Reading -/

/-- The last line starts with `end`. -/
def Ends (lines : List (List Char)) : Prop := ∃ line, lines.getLast? = some line ∧ IsEnd line

theorem Ends.ne_nil (h : Ends lines) : lines ≠ [] := by
  rintro rfl
  obtain ⟨line, hline, -⟩ := h
  cases hline

theorem isEnd_iff (line : List Char) :
    IsEnd line ↔ ∃ rest, line = 'e' :: 'n' :: 'd' :: rest := by
  refine ⟨fun h => ⟨line.drop 3, ?_⟩, fun ⟨rest, hrest⟩ => by rw [hrest]; rfl⟩
  calc line = line.take 3 ++ line.drop 3 := (List.take_append_drop 3 line).symm
    _ = 'e' :: 'n' :: 'd' :: line.drop 3 := by rw [h]; rfl

/-- A line that starts with `end` does so in the work area. -/
theorem isEnd_takeWhile {line : List Char} (h : IsEnd line) :
    IsEnd ((line.take (workSize - 1)).takeWhile (· ≠ nul)) := by
  obtain ⟨rest, rfl⟩ := (isEnd_iff line).mp h
  rfl

theorem not_isEnd_nil : ¬ IsEnd [] := by decide

/-- `fgets` reads the last line, or leaves it to be read. -/
theorem isEnd_or_ends_readLine (h : Ends s.stdin) :
    IsEnd (readLine s).workArea ∨ Ends (readLine s).stdin := by
  obtain ⟨last, hlast, hend⟩ := h
  cases hlines : s.stdin with
  | nil =>
      rw [hlines] at hlast
      cases hlast
  | cons line rest =>
      rw [hlines] at hlast
      simp only [readLine, hlines, fgets]
      cases rest with
      | nil =>
          obtain rfl : line = last := Option.some.inj hlast
          exact .inl (isEnd_takeWhile hend)
      | cons next rest =>
          right
          split
          · exact ⟨last, hlast, hend⟩
          · exact ⟨last, hlast, hend⟩

/-- The characters and lines that are still to be read. -/
def unread (lines : List (List Char)) : ℕ := (lines.map fun line => line.length + 1).sum

theorem unread_readLine (h : s.stdin ≠ []) : unread (readLine s).stdin < unread s.stdin := by
  cases hlines : s.stdin with
  | nil => exact absurd hlines h
  | cons line rest =>
      simp only [readLine, hlines, fgets, unread]
      split
      · simp
      · simp [workSize] at *
        omega

/-! ## The mutex -/

def inside : Point → Mutex → Prop
  | .mainLoop, _ | .mainRead, _ | .mainSignal, _ | .mainUnlock, _ | .mainTest, _ | .mainLeave, _
  | .test, _ | .clear, _ | .signal, _ | .wait, _ | .setExit, _ | .signalExit, _
  | .unlock, _ => True
  | _, _ => False

def Resting (p : Point) : Prop := p = .mainTest ∨ p = .test

theorem tracks_code (s : Shared) (p : Point) : Tracks inside p (code s p) := by
  cases p with
  | mainTest =>
      simp only [code]
      split
      · exact ⟨trivial, fun _ => Iff.rfl⟩
      · exact fun _ => Iff.rfl
  | mainLoop | test =>
      simp only [code, Tracks]
      split <;> exact fun _ => Iff.rfl
  | _ => simp [code, Tracks, inside]

theorem resting_of_wait (s : Shared) (p : Point) (cond : Cond) (m : Mutex) (q : Point)
    (h : code s p = .wait cond m q) : Resting q := by
  cases p with
  | mainTest =>
      simp only [code] at h
      split at h <;> cases h
      exact .inl rfl
  | wait =>
      cases h
      exact .inr rfl
  | _ => cases h

theorem not_inside_start (t : Tid) (m : Mutex) : ¬ inside (start t) m := by
  cases t <;> exact id

/-! ## `main` never leaves its loop -/

def MainFine (s : Shared) : Point → Prop
  | .mainStart | .mainLoop | .mainRead => s.workArea = []
  | .mainSignal | .mainUnlock | .mainLock | .mainTest => True
  | _ => False

def ThreadFine (s : Shared) : Point → Prop
  | .lock | .test | .signal | .wait => s.timeToExit = false
  | .clear => ¬ IsEnd s.workArea ∧ s.timeToExit = false
  | .setExit => IsEnd s.workArea ∧ s.timeToExit = false
  | .signalExit | .unlock | .exited => IsEnd s.workArea
  | _ => False

/-- The line that starts with `end` is still to come or stays in the work area; while it does,
`main` does not pass its wait. -/
structure Waiting (s : Shared) (ps : Tid → Point) : Prop where
  main : MainFine s (ps .main)
  thread : ThreadFine s (ps .aThread)
  ends : IsEnd s.workArea ∨ Ends s.stdin

theorem Waiting.update_main (h : Waiting s ps) (hq : MainFine s q) :
    Waiting s (Function.update ps .main q) := by
  refine ⟨by rwa [Function.update_self], ?_, h.ends⟩
  rw [Function.update_of_ne (by simp)]
  exact h.thread

theorem Waiting.update_thread (h : Waiting s ps) (hq : ThreadFine s q) :
    Waiting s (Function.update ps .aThread q) := by
  refine ⟨?_, by rwa [Function.update_self], h.ends⟩
  rw [Function.update_of_ne (by simp)]
  exact h.main

theorem Waiting.step_main (h : Waiting s ps) (halone : Alone inside Resting ps .main)
    (hq : (code s (ps .main)).next? = some q) :
    Waiting ((code s (ps .main)).after s) (Function.update ps .main q) := by
  have hmain := h.main
  have hthread := h.thread
  cases hp : ps .main with
  | mainStart | mainSignal | mainUnlock | mainLock =>
      rw [hp] at hq hmain
      cases hq
      exact h.update_main hmain
  | mainLoop =>
      rw [hp] at hq hmain
      -- the thread raises the flag on a line that it leaves in the work area
      have hflag : s.timeToExit = false := by
        have hempty : s.workArea = [] := hmain
        cases ht : ps .aThread <;> rw [ht] at hthread <;>
          simp only [ThreadFine, hempty, not_isEnd_nil, false_and] at hthread
        all_goals first | exact hthread | exact hthread.2
      simp only [code, hflag, Bool.false_eq_true, if_false] at hq ⊢
      cases hq
      exact h.update_main hmain
  | mainRead =>
      rw [hp] at hq hmain
      cases hq
      have hempty : s.workArea = [] := hmain
      have hends : Ends s.stdin := by
        have hends := h.ends
        rw [hempty] at hends
        exact hends.resolve_left not_isEnd_nil
      refine ⟨by rw [Function.update_self]; trivial, ?_, isEnd_or_ends_readLine hends⟩
      have hflag : (readLine s).timeToExit = s.timeToExit := by
        unfold readLine
        split <;> rfl
      rw [Function.update_of_ne (by simp)]
      cases ht : ps .aThread <;> rw [ht] at hthread <;>
        simp only [ThreadFine, hempty, not_isEnd_nil, false_and] at hthread
      case clear =>
        have hrest := halone .aThread .workMutex (by simp) (by rw [hp]; trivial)
          (by rw [ht]; trivial)
        rw [ht] at hrest
        rcases hrest with hrest | hrest <;> cases hrest
      all_goals exact hflag.trans hthread
  | mainTest =>
      rw [hp] at hq
      simp only [code] at hq ⊢
      split at hq
      · next hfull =>
          cases hq
          rw [if_pos hfull]
          exact h.update_main trivial
      · next hempty =>
          cases hq
          rw [if_neg hempty]
          exact h.update_main (not_not.mp hempty)
  | _ =>
      rw [hp] at hmain
      exact hmain.elim

theorem Waiting.step_thread (h : Waiting s ps) (hq : (code s (ps .aThread)).next? = some q) :
    Waiting ((code s (ps .aThread)).after s) (Function.update ps .aThread q) := by
  have hthread := h.thread
  have hother : ∀ q, Function.update ps .aThread q .main = ps .main :=
    fun q => Function.update_of_ne (by simp) _ _
  cases hp : ps .aThread with
  | lock | signal | wait | signalExit | unlock =>
      rw [hp] at hq hthread
      cases hq
      exact h.update_thread hthread
  | test =>
      rw [hp] at hq hthread
      cases hq
      refine h.update_thread ?_
      split
      · exact ⟨‹_›, hthread⟩
      · exact ⟨‹_›, hthread⟩
  | clear =>
      rw [hp] at hq hthread
      cases hq
      refine ⟨?_, by rw [Function.update_self]; exact hthread.2,
        .inr (h.ends.resolve_left hthread.1)⟩
      have hmain := h.main
      rw [hother]
      cases hm : ps .main <;> rw [hm] at hmain <;> first | exact hmain.elim | trivial
  | setExit =>
      rw [hp] at hq hthread
      cases hq
      exact ⟨by rw [hother]; exact h.main, by rw [Function.update_self]; exact hthread.1, h.ends⟩
  | exited =>
      rw [hp] at hq
      cases hq
  | _ =>
      rw [hp] at hthread
      exact hthread.elim

theorem waiting_of_reachable (hlines : Ends lines) (h : (program lines).Reachable c) :
    Waiting c.shared (points c) := by
  apply alone_invariant tracks_code resting_of_wait not_inside_start h
  · exact ⟨rfl, rfl, .inr hlines⟩
  · intro s ps t q hinv halone hq
    cases t with
    | main => exact hinv.step_main halone hq
    | aThread => exact hinv.step_thread hq

/-! ## The program comes to rest -/

/-- How far a thread is from its wait. With 13 for what is still to be read, `main` pays for the
line that it reads and for the thread that it wakes. -/
def restSteps : Point → ℕ
  | .mainStart => 5
  | .mainLoop => 4
  | .mainRead => 3
  | .mainSignal => 15
  | .mainUnlock => 7
  | .mainLock => 6
  | .mainTest => 5
  | .mainLeave => 2
  | .mainJoin => 1
  | .mainExited => 0
  | .lock => 7
  | .test => 6
  | .clear => 5
  | .signal => 4
  | .wait => 1
  | .setExit => 5
  | .signalExit => 4
  | .unlock => 1
  | .exited => 0

def asleepSteps : Point → ℕ
  | .mainTest => 4
  | _ => 0

/-- Only the other thread can be woken. -/
theorem sleeper_eq (hlines : Ends lines) (h : (program lines).Reachable c) {t : Tid} {cond : Cond}
    {m : Mutex} (ht : c.threads t = .asleep cond m q) :
    (t = .main ∧ q = .mainTest) ∨ (t = .aThread ∧ q = .test) := by
  have hwaits := waits_of_reachable (W := fun _ _ q => Resting q) resting_of_wait h t
  have hinv := waiting_of_reachable hlines h
  rw [ht] at hwaits
  have hpoint : points c t = q := points_of_asleep ht
  cases t with
  | main =>
      have hmain := hinv.main
      rw [hpoint] at hmain
      rcases hwaits with rfl | rfl
      · exact .inl ⟨rfl, rfl⟩
      · exact hmain.elim
  | aThread =>
      have hthread := hinv.thread
      rw [hpoint] at hthread
      rcases hwaits with rfl | rfl
      · exact hthread.elim
      · exact .inr ⟨rfl, rfl⟩

theorem lowers_code (hlines : Ends lines) (h : (program lines).Reachable c) {t : Tid}
    (ht : c.threads t = .running p) :
    Lowers restSteps asleepSteps (fun s => 13 * unread s.stdin) c p (code c.shared p) := by
  have hinv := waiting_of_reachable hlines h
  have hpoint : points c t = p := points_of_running ht
  have hmain := hinv.main
  have hthread := hinv.thread
  cases p with
  | mainRead =>
      cases t with
      | aThread =>
          rw [hpoint] at hthread
          exact hthread.elim
      | main =>
          rw [hpoint] at hmain
          have hempty : c.shared.workArea = [] := hmain
          have hends := hinv.ends
          rw [hempty] at hends
          have hread := unread_readLine (hends.resolve_left not_isEnd_nil).ne_nil
          simp only [code, Lowers, restSteps]
          omega
  | mainSignal =>
      refine ⟨by simp [restSteps], fun j m x hj => ?_⟩
      rcases sleeper_eq hlines h hj with ⟨-, rfl⟩ | ⟨-, rfl⟩ <;> simp [restSteps, asleepSteps]
  | signal | signalExit =>
      refine ⟨by simp [restSteps], fun j m x hj => ?_⟩
      cases t with
      | main =>
          rw [hpoint] at hmain
          exact hmain.elim
      | aThread =>
          rcases sleeper_eq hlines h hj with ⟨-, rfl⟩ | ⟨rfl, rfl⟩
          · simp [restSteps, asleepSteps]
          · rw [ht] at hj
            cases hj
  | mainTest =>
      simp only [code]
      split <;> simp [Lowers, restSteps, asleepSteps]
  | mainLoop | test =>
      simp only [code, Lowers]
      split <;> simp [restSteps]
  | mainExited | exited => trivial
  | _ => simp [code, Lowers, restSteps, asleepSteps]

/-! ## Results -/

/-- For any lines of which the last one starts with `end`, and any interleaving, `main` never gets
as far as joining the thread, and from every reachable state the threads can go on until none can
and `main` has not finished. -/
theorem main_never_exits (lines : List (List Char)) (hlines : Ends lines) :
    (∀ c, (program lines).Reachable c →
      points c .main ≠ .mainJoin ∧ points c .main ≠ .mainExited) ∧
    ∀ c, (program lines).Reachable c → ∃ ls c', (program lines).exec c ls = some c' ∧
      Stuck code c' ∧ ¬ Halted code c'.shared (c'.threads .main) := by
  have hloop : ∀ c, (program lines).Reachable c → MainFine c.shared (points c .main) :=
    fun c hc => (waiting_of_reachable hlines hc).main
  refine ⟨fun c hc => ⟨fun hp => ?_, fun hp => ?_⟩, fun c hc => ?_⟩
  · have hmain := hloop c hc
    rw [hp] at hmain
    exact hmain
  · have hmain := hloop c hc
    rw [hp] at hmain
    exact hmain
  · obtain ⟨ls, c', hexec, hstuck⟩ := exists_stuck
      (fun s : Shared => 13 * unread s.stdin)
      (fun c hc t p ht => lowers_code hlines hc ht) hc
    refine ⟨ls, c', hexec, hstuck, fun hhalted => ?_⟩
    have hmain := hloop c' (hc.exec hexec)
    have hhalt := isHalt_of_halted hhalted
    cases hp : points c' .main <;> rw [hp] at hhalt hmain
    case mainTest =>
      simp only [code] at hhalt
      split at hhalt <;> cases hhalt
    case mainExited | exited => exact hmain
    all_goals cases hhalt

theorem main_never_exits_two :
    ∃ ls c, (program [['h', 'i'], ['e', 'n', 'd']]).exec
      (program [['h', 'i'], ['e', 'n', 'd']]).init ls = some c ∧ Stuck code c ∧
      ¬ Halted code c.shared (c.threads .main) :=
  (main_never_exits _ ⟨['e', 'n', 'd'], rfl, rfl⟩).2 _ .init

/-- The only line starts with `end`: the second thread sees it and leaves, and `main` waits. -/
def endOnly : Option (Config Tid Shared Point Mutex Cond) :=
  (program [['e', 'n', 'd']]).exec (program [['e', 'n', 'd']]).init
    (List.replicate 5 (Action.run .main none) ++ List.replicate 5 (Action.run .aThread none) ++
      List.replicate 2 (Action.run .main none))

theorem main_waits_forever : ∃ c, (program [['e', 'n', 'd']]).Reachable c ∧ Stuck code c ∧
    points c .aThread = .exited ∧ AsleepOn .workCond (c.threads .main) := by
  have hrun : endOnly.isSome = true := by decide
  refine ⟨endOnly.get hrun, System.Reachable.init.exec (Option.some_get hrun).symm, ?_, rfl, rfl⟩
  intro t target
  cases t <;> rfl

end PthreadBenchmark.WorkArea
