import PthreadBenchmark.NodeStack.Memory
import PthreadBenchmark.Shared.PthreadRuns

/-! # The lines are those of a stack

What the threads print are the lines of a stack onto which each producer puts its numbers one by
one, and each such trace is printed by some run. -/

namespace PthreadBenchmark.NodeStack

open Pthread

variable {consumers producers : ℕ} {malloc : Malloc (Node ℕ)} {s : Shared consumers producers}
  {ps : Tid consumers producers → Point consumers producers} {l : List (ℕ × ℕ)}
  {e : Event consumers producers} {printed : List (Event consumers producers)}
  {threads : Tid consumers producers → Status (Point consumers producers) Mutex Cond}
  {c : Config (Tid consumers producers) (Shared consumers producers) (Point consumers producers)
    Mutex Cond}

/-! ## All lines are such lines -/

theorem Sound.isTrace (h : Sound s ps l) : IsTrace s.printed where
  stack := by
    by_cases hmid : ∃ i, Midway (ps i)
    · obtain ⟨i, hi⟩ := hmid
      have hfits := h.fits i
      cases hp : ps i with
      | consume id point =>
          rw [hp] at hfits hi
          cases point with
          | print p =>
              obtain ⟨a, x, next, -, -, hreplay⟩ := hfits
              rw [hreplay]
              rfl
          | _ => exact hi.elim
      | produce id point =>
          rw [hp] at hfits hi
          cases point with
          | print p i =>
              obtain ⟨rest, -, hreplay⟩ := hfits
              rw [hreplay]
              rfl
          | _ => exact hi.elim
    · rw [h.stack (not_exists.mp hmid)]
      rfl
  numbers id := by rw [h.numbers id, List.length_range]

theorem IsTrace.of_append (h : IsTrace (printed ++ [e])) : IsTrace printed where
  stack := by
    have hstack := h.stack
    rw [replay_append] at hstack
    exact Option.isSome_of_isSome_bind hstack
  numbers id := by
    have hnumbers := h.numbers id
    rw [numbers_append, List.length_append, List.range_add] at hnumbers
    exact (List.append_inj hnumbers (by rw [List.length_range])).1

/-! ## Each trace is printed -/

/-- All threads are between two rounds. -/
structure Ready (c : Config (Tid consumers producers) (Shared consumers producers)
    (Point consumers producers) Mutex Cond) : Prop where
  free : c.owner = fun _ => none
  consume : ∀ id, c.threads (.inl id) = .running (.consume id .lock) ∨
    c.threads (.inl id) = .woken .mutex (.consume id .test)
  produce : ∀ id, ∃ i, c.threads (.inr id) = .running (.produce id (.lock i))

theorem Ready.not_asleep (h : Ready c) (i : Tid consumers producers) :
    ¬ AsleepOn .cond (c.threads i) := by
  cases i with
  | inl id =>
      rcases h.consume id with hi | hi
      · rw [hi]
        exact fun hasleep => hasleep
      · rw [hi]
        exact fun hasleep => hasleep
  | inr id =>
      obtain ⟨i, hi⟩ := h.produce id
      rw [hi]
      exact fun hasleep => hasleep

theorem Ready.not_midway (h : Ready c) (i : Tid consumers producers) : ¬ Midway (points c i) := by
  cases i with
  | inl id =>
      rcases h.consume id with hi | hi
      · rw [points_of_running hi]
        exact fun hmid => hmid
      · rw [points, hi]
        exact fun hmid => hmid
  | inr id =>
      obtain ⟨i, hi⟩ := h.produce id
      rw [points_of_running hi]
      exact fun hmid => hmid

theorem Ready.update_consume {id : Fin consumers}
    {t : Status (Point consumers producers) Mutex Cond} (h : Ready c)
    (ht : t = .running (.consume id .lock) ∨ t = .woken .mutex (.consume id .test)) :
    Ready ⟨fun _ => none, s, Function.update c.threads (.inl id) t⟩ where
  free := rfl
  consume id' := by
    by_cases hid : id' = id
    · subst hid
      simp only [Function.update_self]
      exact ht
    · have hne : (Sum.inl id' : Tid consumers producers) ≠ .inl id :=
        fun heq => hid (Sum.inl.inj heq)
      simp only [Function.update_of_ne hne]
      exact h.consume id'
  produce id' := by
    simp only [Function.update_of_ne Sum.inr_ne_inl]
    exact h.produce id'

theorem Ready.update_produce {id : Fin producers} {i : ℕ} (h : Ready c) :
    Ready (turn (fun _ => none) s c.threads (.inr id) (.produce id (.lock i))) where
  free := rfl
  consume id' := by
    simp only [turn, Function.update_of_ne Sum.inl_ne_inr]
    exact h.consume id'
  produce id' := by
    by_cases hid : id' = id
    · subst hid
      exact ⟨i, by simp only [turn, Function.update_self]⟩
    · have hne : (Sum.inr id' : Tid consumers producers) ≠ .inr id :=
        fun heq => hid (Sum.inr.inj heq)
      simp only [turn, Function.update_of_ne hne]
      exact h.produce id'

section Runs

variable {G : Config (Tid consumers producers) (Shared consumers producers)
  (Point consumers producers) Mutex Cond → Prop}

abbrev free : Mutex → Option (Tid consumers producers) := fun _ => none

abbrev taken (i : Tid consumers producers) : Mutex → Option (Tid consumers producers) :=
  Function.update free .mutex (some i)

/-- A round of a producer while nobody sleeps. -/
theorem leads_produce {id : Fin producers} {i : ℕ}
    (hawake : ∀ j, j ≠ .inr id → ¬ AsleepOn .cond (threads j))
    (h : ∀ heap head, (program malloc consumers producers).Leads G
      (turn free ⟨heap, head, s.printed ++ [.produced id i]⟩ threads (.inr id)
        (.produce id (.lock (i + 1))))) :
    (program malloc consumers producers).Leads G
      (turn free s threads (.inr id) (.produce id (.lock i))) := by
  refine leads_lock rfl rfl (leads_run rfl ?_)
  refine leads_run (code_store (Heap.write_self ..) rfl) ?_
  refine leads_run (code_store (Heap.write_self ..) rfl) ?_
  refine leads_run rfl (leads_run (code_printProduced (Heap.write_self ..)) ?_)
  refine leads_signal rfl (fun j => ?_) (leads_unlock rfl (Function.update_self ..) ?_)
  · by_cases hj : j = .inr id
    · rw [hj, turn_threads_self]
      exact fun hasleep => hasleep
    · rw [turn_threads_of_ne hj]
      exact hawake j hj
  · rw [free_again rfl]
    exact h _ _

/-- A consumer takes the first node. -/
theorem leads_consume {id : Fin consumers} {a x : ℕ} {next : Option ℕ} (hhead : s.head = some a)
    (hcell : s.heap.cells a = some ⟨x, next⟩)
    (h : ∀ heap head, (program malloc consumers producers).Leads G
      (turn free ⟨heap, head, s.printed ++ [.consumed id x]⟩ threads (.inl id)
        (.consume id .lock))) :
    (program malloc consumers producers).Leads G
      (turn (taken (.inl id)) s threads (.inl id) (.consume id .test)) := by
  have htest : code malloc s (.consume id .test) = .run s (.consume id .load) := by
    rw [code_test, if_neg (by rw [hhead]; exact Option.some_ne_none a)]
  have hnode : node? s s.head = some ⟨x, next⟩ := by rw [hhead]; exact hcell
  refine leads_run htest (leads_run rfl (leads_run (code_advance hnode) ?_))
  refine leads_run (code_printConsumed hnode) (leads_unlock rfl (Function.update_self ..) ?_)
  rw [free_again rfl, hhead]
  exact leads_run (code_free hcell) (h _ _)

/-- A consumer finds no node. -/
theorem leads_consumeWait {id : Fin consumers} (hhead : s.head = none)
    (h : (program malloc consumers producers).Leads G
      ⟨free, { s with printed := s.printed ++ [.consumeWait id] },
        Function.update threads (.inl id) (.woken .mutex (.consume id .test))⟩) :
    (program malloc consumers producers).Leads G
      (turn (taken (.inl id)) s threads (.inl id) (.consume id .test)) := by
  have htest : code malloc s (.consume id .test) = .run s (.consume id .printWait) := by
    rw [code_test, if_pos hhead]
  refine leads_run htest (leads_run rfl (leads_wait rfl (Function.update_self ..) ?_))
  rwa [free_again rfl]

theorem Ready.leads_test (hready : Ready c) (id : Fin consumers)
    (h : (program malloc consumers producers).Leads G
      (turn (taken (.inl id)) c.shared c.threads (.inl id) (.consume id .test))) :
    (program malloc consumers producers).Leads G c := by
  have hfree := hready.free
  rcases hready.consume id with hi | hi
  · rw [← turn_self hi, hfree]
    exact leads_lock rfl rfl h
  · refine leads_relock hi (by rw [hfree]) ?_
    rwa [hfree]

end Runs

/-- The next line of a trace is printed by a round of its thread. -/
theorem Ready.leads (hready : Ready c) (hc : (program malloc consumers producers).Reachable c)
    (htrace : IsTrace (c.shared.printed ++ [e])) :
    (program malloc consumers producers).Leads
      (fun c' => Ready c' ∧ c'.shared.printed = c.shared.printed ++ [e]) c := by
  obtain ⟨-, l, hsound⟩ := sound_of_reachable hc
  have hreplay := hsound.stack hready.not_midway
  have hstack := htrace.stack
  rw [replay_append, hreplay, Option.bind_some] at hstack
  cases e with
  | produced id num =>
      obtain ⟨i, hi⟩ := hready.produce id
      have hnum : num = i := by
        have hnumbers := htrace.numbers id
        have hdone := hsound.numbers id
        rw [points_of_running hi] at hdone
        rw [numbers_append, hdone] at hnumbers
        simpa [number?, done, List.range_succ] using hnumbers
      subst hnum
      rw [← turn_self hi, hready.free]
      refine leads_produce (fun j _ => hready.not_asleep j) fun heap head => .here ⟨?_, rfl⟩
      exact hready.update_produce
  | consumeWait id =>
      have hl : l = [] := by
        cases l with
        | nil => rfl
        | cons cell l => simp [apply] at hstack
      have hhead : c.shared.head = none := by
        have hchain := hsound.divided.chain
        rwa [hl] at hchain
      refine hready.leads_test id (leads_consumeWait hhead (.here ⟨?_, rfl⟩))
      exact hready.update_consume (.inr rfl)
  | consumed id num =>
      cases l with
      | nil => simp [apply] at hstack
      | cons cell rest =>
          obtain ⟨a, x⟩ := cell
          obtain ⟨hhead, next, hcell, -⟩ := hsound.divided.chain
          have hx : x = num := by
            by_contra hne
            simp [apply, hne] at hstack
          subst hx
          refine hready.leads_test id (leads_consume hhead hcell fun heap head =>
            .here ⟨?_, rfl⟩)
          exact hready.update_consume (.inl rfl)

theorem ready_init : Ready (program malloc consumers producers).init where
  free := rfl
  consume _ := .inl rfl
  produce _ := ⟨0, rfl⟩

variable (malloc) in
theorem exists_ready (h : IsTrace printed) : ∃ c,
    (program malloc consumers producers).Reachable c ∧ Ready c ∧ c.shared.printed = printed := by
  induction printed using List.reverseRecOn with
  | nil => exact ⟨_, .init, ready_init, rfl⟩
  | append_singleton printed e ih =>
      obtain ⟨c, hc, hready, rfl⟩ := ih h.of_append
      exact (hready.leads hc h).reachable hc

/-! ## Results -/

/-- The lines that are printed in some state are the traces of a stack onto which each producer
puts its numbers one by one. -/
theorem trace_iff (malloc : Malloc (Node ℕ)) (consumers producers : ℕ)
    (printed : List (Event consumers producers)) :
    (∃ c, (program malloc consumers producers).Reachable c ∧ c.shared.printed = printed) ↔
      IsTrace printed := by
  constructor
  · rintro ⟨c, hc, rfl⟩
    obtain ⟨-, l, hsound⟩ := sound_of_reachable hc
    exact hsound.isTrace
  · intro htrace
    obtain ⟨c, hc, -, hprinted⟩ := exists_ready malloc htrace
    exact ⟨c, hc, hprinted⟩

end PthreadBenchmark.NodeStack
