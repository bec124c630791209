import PthreadBenchmark.DnsDiscovery.Progress
import PthreadBenchmark.Shared.PthreadRuns
import PthreadBenchmark.Shared.PthreadRest

/-! # What the threads print

A block is printed under the mutex, so blocks do not mix. Blocks of different threads may come in
any order. -/

namespace PthreadBenchmark.DnsDiscovery

open CString Pthread

variable {threads : ℕ} {wordlist domain : Text} {resolve : Resolve threads} {report : Bool}
  {s : Shared threads} {i : Fin threads} {t q : Thread threads} {rest : Text} {calls : ℕ}
  {block todo : List Line} {blocks : List (Fin threads × List Line)}
  {c : Config (Fin threads) (Shared threads) (Thread threads) Mutex Empty}

/-! ## Blocks are not torn apart -/

/-- The lines of the blocks. -/
def lines (blocks : List (Fin threads × List Line)) : List Line :=
  (blocks.map Prod.snd).flatten

theorem lines_append (blocks : List (Fin threads × List Line)) (i : Fin threads)
    (block : List Line) : lines (blocks ++ [(i, block)]) = lines blocks ++ block := by
  simp [lines]

/-- `todo` is still to be printed of the blocks, and `late` to be written to the report. -/
structure Shows (s : Shared threads) (todo late : List Line) : Prop where
  stdout : s.stdout ++ todo = lines s.blocks
  report : ∀ written ∈ s.report, written ++ late = lines s.blocks

/-- What a thread knows of the output. -/
def View (s : Shared threads) (t : Thread threads) : Prop :=
  match t.point with
  | .report line todo _ _ => Shows s todo (line :: todo)
  | .print todo _ _ => Shows s todo todo
  | _ => Shows s [] []

theorem View.of_not_inside (h : ¬ inside t .mutexsum) : View s t ↔ Shows s [] [] := by
  obtain ⟨i, point⟩ := t
  cases point with
  | report | print => exact absurd trivial h
  | _ => exact Iff.rfl

theorem Shows.of_eq {s' : Shared threads} {late : List Line} (h : Shows s todo late)
    (hstdout : s'.stdout = s.stdout) (hreport : s'.report = s.report)
    (hblocks : s'.blocks = s.blocks) : Shows s' todo late := by
  constructor
  · rw [hstdout, hblocks]
    exact h.stdout
  · rw [hreport, hblocks]
    exact h.report

theorem Shows.begin {line : Line} (h : Shows s [] []) :
    Shows { s with
      stdout := s.stdout ++ [line], blocks := s.blocks ++ [(i, line :: todo)] }
      todo (line :: todo) := by
  constructor
  · rw [lines_append, ← h.stdout]
    simp
  · intro written hwritten
    rw [lines_append, ← h.report written hwritten]
    simp

theorem Shows.written {line : Line} (h : Shows s todo (line :: todo)) :
    Shows { s with report := s.report.map fun lines => lines ++ [line] } todo todo := by
  constructor
  · exact h.stdout
  · intro written hwritten
    obtain ⟨before, hbefore, rfl⟩ := Option.mem_map.mp hwritten
    rw [← h.report before hbefore, List.append_assoc]
    rfl

theorem Shows.printed {line : Line} (h : Shows s (line :: todo) (line :: todo)) :
    Shows { s with stdout := s.stdout ++ [line] } todo (line :: todo) := by
  constructor
  · rw [← h.stdout, List.append_assoc]
    rfl
  · exact h.report

variable (wordlist domain resolve) in
theorem exists_loop (s : Shared threads) (i : Fin threads) (rest : Text) (calls : ℕ) :
    ∃ q, code (ι := Fin threads) wordlist domain resolve s ⟨i, .loop rest calls⟩ = .run s q ∧
      ¬ inside q .mutexsum := by
  simp only [code]
  split
  · exact ⟨_, rfl, id⟩
  · split <;> exact ⟨_, rfl, id⟩

theorem View.step (h : View s t)
    (hq : (code (ι := Fin threads) wordlist domain resolve s t).next? = some q) :
    View ((code (ι := Fin threads) wordlist domain resolve s t).after s) q := by
  obtain ⟨i, point⟩ := t
  cases point with
  | lock | unlock | lockBlock =>
      cases hq
      exact h
  | rewind | fputs =>
      cases hq
      exact Shows.of_eq h rfl rfl rfl
  | fgets copy =>
      cases hq
      have hshows : Shows s [] [] := h
      split <;> exact hshows.of_eq rfl rfl rfl
  | loop rest calls =>
      obtain ⟨q', hop, hout⟩ := exists_loop wordlist domain resolve s i rest calls
      rw [hop] at hq ⊢
      cases hq
      exact (View.of_not_inside hout).mpr h
  | printHost host addresses rest calls =>
      cases hq
      exact Shows.begin h
  | report line todo rest calls =>
      cases hq
      exact Shows.written h
  | print todo rest calls =>
      cases todo with
      | nil =>
          cases hq
          exact h
      | cons line todo =>
          cases hq
          exact Shows.printed h
  | exited => cases hq

theorem View.of_outside {r : Thread threads} (ht : ¬ inside t .mutexsum) (hr : View s r)
    (hq : (code (ι := Fin threads) wordlist domain resolve s t).next? = some q) :
    View ((code (ι := Fin threads) wordlist domain resolve s t).after s) r := by
  obtain ⟨i, point⟩ := t
  cases point with
  | lock | lockBlock => exact hr
  | loop rest calls =>
      obtain ⟨q', hop, -⟩ := exists_loop wordlist domain resolve s i rest calls
      rw [hop]
      exact hr
  | exited => cases hq
  | _ => exact absurd trivial ht

theorem shows_of_reachable (h : (program wordlist domain resolve report).Reachable c)
    (hfree : c.owner .mutexsum = none) : Shows c.shared [] [] := by
  have hmonitor := monitor_invariant (m := .mutexsum) (F := fun s => Shows s [] []) (V := View)
    (R := fun _ _ => True) tracks not_wait not_inside_start (fun _ _ _ => trivial)
    (fun _ _ hout => View.of_not_inside hout) ?_ (fun _ _ _ _ _ hview hq => hview.step hq)
    (fun _ _ _ ht _ hq _ hr => hr.of_outside ht hq) h
  · exact hmonitor.1 hfree
  · refine ⟨rfl, fun written hwritten => ?_⟩
    split at hwritten
    · cases hwritten
      rfl
    · cases hwritten

theorem report_isSome (h : (program wordlist domain resolve report).Reachable c) :
    c.shared.report.isSome = report := by
  refine points_invariant (P := fun s _ => s.report.isSome = report) h ?_ ?_
  · cases report <;> rfl
  · intro s ps i q hreport hq
    obtain ⟨i', point, hp⟩ : ∃ i' point, ps i = ⟨i', point⟩ := ⟨_, _, rfl⟩
    rw [hp] at hq ⊢
    cases point with
    | loop rest calls =>
        obtain ⟨q', hop, -⟩ := exists_loop wordlist domain resolve s i' rest calls
        rw [hop]
        exact hreport
    | print todo rest calls => cases todo <;> exact hreport
    | report line todo rest calls => exact Option.isSome_map.trans hreport
    | _ => exact hreport

/-! ## Runs to every order of blocks -/

section Runs

variable {G : Config (Fin threads) (Shared threads) (Thread threads) Mutex Empty → Prop}
  {statuses : Fin threads → Status (Thread threads) Mutex Empty}

abbrev free : Mutex → Option (Fin threads) := fun _ => none

abbrev taken (i : Fin threads) : Mutex → Option (Fin threads) :=
  Function.update free .mutexsum (some i)

theorem leads_fgets {copy : Text}
    (hcopy : copy ++ copied (wordlist.drop s.position) = copied wordlist)
    (h : ∀ position, (program wordlist domain resolve report).Leads G
      (turn free { s with position := position } statuses i ⟨i, .loop (copied wordlist) 0⟩)) :
    (program wordlist domain resolve report).Leads G
      (turn (taken i) s statuses i ⟨i, .fgets copy⟩) := by
  induction hn : (wordlist.drop s.position).length using Nat.strong_induction_on
    generalizing s copy with
  | _ n ih =>
      refine leads_run rfl ?_
      by_cases hrest : wordlist.drop s.position = []
      · rw [hrest, copied_nil, List.append_nil] at hcopy
        rw [if_pos (fgets_eq_nil_iff.mpr hrest), hcopy]
        refine leads_unlock rfl (Function.update_self ..) ?_
        rw [free_again rfl]
        exact h _
      · have hlt := length_drop_lt hrest
        rw [List.drop_drop] at hlt
        rw [if_neg (mt fgets_eq_nil_iff.mp hrest)]
        rw [← copied_drop (mt fgets_eq_nil_iff.mp hrest) rfl, ← List.append_assoc] at hcopy
        exact leads_run rfl (ih _ (hn ▸ hlt) hcopy h rfl)

theorem leads_copy
    (h : ∀ position, (program wordlist domain resolve report).Leads G
      (turn free { s with position := position } statuses i ⟨i, .loop (copied wordlist) 0⟩)) :
    (program wordlist domain resolve report).Leads G (turn free s statuses i ⟨i, .lock⟩) :=
  leads_lock rfl rfl (leads_run rfl (leads_fgets rfl h))

theorem leads_report {line : Line}
    (h : (program wordlist domain resolve report).Leads G
      (turn free { s with
        stdout := s.stdout ++ todo
        report := s.report.map fun written => written ++ line :: todo }
        statuses i ⟨i, .loop rest calls⟩)) :
    (program wordlist domain resolve report).Leads G
      (turn (taken i) s statuses i ⟨i, .report line todo rest calls⟩) := by
  induction todo generalizing s line with
  | nil =>
      refine leads_run rfl (leads_unlock rfl (Function.update_self ..) ?_)
      rw [free_again rfl]
      rwa [List.append_nil] at h
  | cons next todo ih =>
      refine leads_run rfl (leads_run rfl (ih ?_))
      simpa only [Option.map_map, Function.comp_def, List.append_assoc, List.singleton_append]
        using h

/-- A block has been printed. -/
def Shared.add (s : Shared threads) (i : Fin threads) (block : List Line) : Shared threads where
  position := s.position
  stdout := s.stdout ++ block
  report := s.report.map fun written => written ++ block
  blocks := s.blocks ++ [(i, block)]

theorem leads_printHost {host : Text} {addresses : List Address}
    (h : (program wordlist domain resolve report).Leads G
      (turn free (s.add i (.hostname host :: addressLines addresses)) statuses i
        ⟨i, .loop rest calls⟩)) :
    (program wordlist domain resolve report).Leads G
      (turn free s statuses i ⟨i, .lockBlock host addresses rest calls⟩) := by
  refine leads_lock rfl rfl (leads_run rfl (leads_report ?_))
  simp only [List.append_assoc, List.singleton_append]
  exact h

variable (wordlist report G) in
/-- A thread looks up words until a block is to be printed. -/
theorem leads_block {later : List (List Line)}
    (hblocks : blocksOf domain resolve i calls (fileLines rest) = block :: later) :
    ∃ rest' calls', blocksOf domain resolve i calls' (fileLines rest') = later ∧
      ∀ s statuses, (program wordlist domain resolve report).Leads G
        (turn free (Shared.add s i block) statuses i ⟨i, .loop rest' calls'⟩) →
      (program wordlist domain resolve report).Leads G
        (turn free s statuses i ⟨i, .loop rest calls⟩) := by
  induction hn : rest.length using Nat.strong_induction_on generalizing rest calls with
  | _ n ih =>
      have hrest : rest ≠ [] := by
        intro hnil
        rw [hnil] at hblocks
        cases hblocks
      have hlt := length_drop_lt hrest
      have hop : ∀ s, code (ι := Fin threads) wordlist domain resolve s ⟨i, .loop rest calls⟩ = _ :=
        fun s => if_neg (mt fgets_eq_nil_iff.mp hrest)
      rw [fileLines_of_ne hrest, blocksOf] at hblocks
      cases hresolve : resolve i calls (hostname (fgets (lineSize - 1) rest) domain) with
      | none =>
          simp only [hresolve] at hblocks hop
          obtain ⟨rest', calls', hlater, hleads⟩ := ih _ (hn ▸ hlt) hblocks rfl
          exact ⟨rest', calls', hlater, fun s statuses h => leads_run (hop s) (hleads s statuses h)⟩
      | some addresses =>
          simp only [hresolve] at hblocks hop
          obtain ⟨rfl, hlater⟩ := List.cons_eq_cons.mp hblocks
          exact ⟨_, _, hlater, fun s statuses h => leads_run (hop s) (leads_printHost h)⟩

theorem leads_exit (hblocks : blocksOf domain resolve i calls (fileLines rest) = [])
    (h : (program wordlist domain resolve report).Leads G (turn free s statuses i ⟨i, .exited⟩)) :
    (program wordlist domain resolve report).Leads G
      (turn free s statuses i ⟨i, .loop rest calls⟩) := by
  induction hn : rest.length using Nat.strong_induction_on generalizing rest calls with
  | _ n ih =>
      by_cases hrest : rest = []
      · subst hrest
        exact leads_run rfl h
      · have hlt := length_drop_lt hrest
        have hop : code (ι := Fin threads) wordlist domain resolve s ⟨i, .loop rest calls⟩ = _ :=
          if_neg (mt fgets_eq_nil_iff.mp hrest)
        rw [fileLines_of_ne hrest, blocksOf] at hblocks
        cases hresolve : resolve i calls (hostname (fgets (lineSize - 1) rest) domain) with
        | none =>
            simp only [hresolve] at hblocks hop
            exact leads_run hop (ih _ (hn ▸ hlt) hblocks rfl)
        | some addresses =>
            simp only [hresolve] at hblocks
            cases hblocks

variable (wordlist report) in
/-- The blocks of all threads, in any order that keeps the order of each thread. -/
theorem leads_blocks (s : Shared threads) (ps : Fin threads → Text × ℕ)
    (hps : ∀ i, blocksOf domain resolve i (ps i).2 (fileLines (ps i).1) = begun blocks i) :
    (program wordlist domain resolve report).Leads
      (fun c => AllExited c ∧ c.shared.stdout = s.stdout ++ lines blocks)
      (placed free s fun i => ⟨i, .loop (ps i).1 (ps i).2⟩) := by
  induction blocks generalizing s ps with
  | nil =>
      refine leads_each (R := fun s' => s' = s) (q := fun i => ⟨i, .exited⟩) ?_ rfl ?_
      · rintro s' statuses i rfl h
        exact leads_exit (hps i) (h s' rfl)
      · rintro s' rfl
        exact .here ⟨fun _ => rfl, (List.append_nil s'.stdout).symm⟩
  | cons b blocks ih =>
      obtain ⟨i, block⟩ := b
      have hfirst : blocksOf domain resolve i (ps i).2 (fileLines (ps i).1) =
          block :: begun blocks i := by
        rw [hps i]
        simp [begun]
      obtain ⟨rest', calls', hlater, hleads⟩ := leads_block wordlist report _ hfirst
      rw [← turn_self (c := placed free s _) (i := i) rfl]
      refine hleads _ _ ?_
      rw [turn_placed]
      have hpoints : Function.update (fun j => (⟨j, .loop (ps j).1 (ps j).2⟩ : Thread threads)) i
          ⟨i, .loop rest' calls'⟩ = fun j => ⟨j, .loop (Function.update ps i (rest', calls') j).1
            (Function.update ps i (rest', calls') j).2⟩ := by
        funext j
        by_cases hj : j = i
        · subst hj
          simp only [Function.update_self]
        · simp only [Function.update_of_ne hj]
      rw [hpoints]
      refine (ih _ _ fun j => ?_).imp ?_
      · by_cases hj : j = i
        · subst hj
          simp only [Function.update_self]
          exact hlater
        · simp only [Function.update_of_ne hj]
          rw [hps j]
          simp [begun, Ne.symm hj]
      · rintro c ⟨hexited, hstdout⟩
        have hadd : c.shared.stdout = s.stdout ++ block ++ lines blocks := hstdout
        refine ⟨hexited, hadd.trans ?_⟩
        simp [lines]

end Runs

/-! ## Results -/

theorem report_eq (h : (program wordlist domain resolve report).Reachable c)
    (hexited : AllExited c) :
    c.shared.stdout = lines c.shared.blocks ∧
      c.shared.report = if report then some c.shared.stdout else none := by
  have hnone : ∀ i, ¬ inside (points c i) .mutexsum := by
    intro i
    rw [points_of_running (hexited i)]
    exact id
  have hshows := shows_of_reachable h (free_of_not_inside tracks not_inside_start h hnone)
  have hstdout : c.shared.stdout = lines c.shared.blocks := by
    rw [← hshows.stdout, List.append_nil]
  refine ⟨hstdout, ?_⟩
  rw [← report_isSome h]
  cases hreport : c.shared.report with
  | none => rfl
  | some written =>
      have hwritten := hshows.report written hreport
      rw [List.append_nil] at hwritten
      rw [hwritten, hstdout]
      rfl

/-- What the threads may print. Each thread has a block for each line of the word list that is
found, and any order in which the blocks of all threads can be arranged is the order of some run.
The report is a copy, and so is the list of each thread if no zero byte is in it. -/
theorem blocks_iff (wordlist domain : Text) (resolve : Resolve threads) (report : Bool) :
    (∀ c, (program wordlist domain resolve report).Reachable c → AllExited c →
      c.shared.report = if report then some c.shared.stdout else none) ∧
    (0 ∉ wordlist → copied wordlist = wordlist) ∧
    ∀ stdout, (∃ c, (program wordlist domain resolve report).Reachable c ∧ AllExited c ∧
        c.shared.stdout = stdout) ↔
      ∃ blocks, lines blocks = stdout ∧
        ∀ i, begun blocks i = blocksOf domain resolve i 0 (fileLines (copied wordlist)) := by
  refine ⟨fun c hc hexited => (report_eq hc hexited).2, copied_eq_self, fun stdout => ⟨?_, ?_⟩⟩
  · rintro ⟨c, hc, hexited, rfl⟩
    refine ⟨c.shared.blocks, (report_eq hc hexited).1.symm, fun i => ?_⟩
    have hblocks := (progress_of_reachable hc).blocks i
    rw [points_of_running (hexited i)] at hblocks
    exact (List.append_nil _).symm.trans hblocks
  · rintro ⟨blocks, rfl, hblocks⟩
    have hleads : (program wordlist domain resolve report).Leads
        (fun c => AllExited c ∧ c.shared.stdout = lines blocks)
        (program wordlist domain resolve report).init := by
      refine leads_each (R := fun s => s.stdout = []) (q := fun i => ⟨i, .loop (copied wordlist) 0⟩)
        ?_ rfl ?_
      · exact fun s statuses i hs h => leads_copy fun position => h _ hs
      · intro s hs
        have hall := leads_blocks wordlist report s (fun _ => (copied wordlist, 0))
          fun i => (hblocks i).symm
        rwa [hs] at hall
    obtain ⟨c, hc, hexited, hstdout⟩ := hleads.reachable .init
    exact ⟨c, hc, hexited, hstdout⟩

end PthreadBenchmark.DnsDiscovery
