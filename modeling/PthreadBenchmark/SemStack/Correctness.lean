import PthreadBenchmark.SemStack.Model

/-! # The list is a stack, and the semaphore counts it -/

namespace PthreadBenchmark.SemStack

open Pthread

variable {m n : ℕ} {l : Lista} {heap : Heap (Node ℤ)} {cells : List (ℕ × ℤ)} {a prev : Option ℕ}
  {x : ℕ} {v : ℤ}

/-! ## The operations on the list -/

/-- The list consists of these cells. -/
structure Represents (l : Lista) (cells : List (ℕ × ℤ)) : Prop where
  chain : Chain l.heap l.lista none cells
  nodup : (cells.map Prod.fst).Nodup

theorem represents_empty : Represents ⟨.empty, none⟩ [] := ⟨rfl, List.nodup_nil⟩

/-- The walk ends at the last cell. -/
theorem walk_spec {pre : List (ℕ × ℤ)} {head : ℕ} (fuel : ℕ) (hfuel : pre.length < fuel)
    (hc : Chain heap (some head) none (pre ++ [(x, v)])) (prev : Option ℕ) :
    walk heap fuel prev head = some ((pre.getLast?.map Prod.fst).or prev, x) := by
  induction pre generalizing head prev fuel with
  | nil =>
      obtain ⟨hhead, next, hcell, hrest⟩ := hc
      obtain rfl : head = x := Option.some.inj hhead
      obtain rfl : next = none := hrest
      cases fuel with
      | zero => exact absurd hfuel (Nat.not_lt_zero _)
      | succ fuel => simp [walk, hcell]
  | cons c pre ih =>
      obtain ⟨b, y⟩ := c
      obtain ⟨hhead, next, hcell, hrest⟩ := hc
      obtain rfl : head = b := Option.some.inj hhead
      cases fuel with
      | zero => exact absurd hfuel (Nat.not_lt_zero _)
      | succ fuel =>
          have hnext : ∃ next', next = some next' := by
            cases pre with
            | nil => exact ⟨_, hrest.1⟩
            | cons d pre => exact ⟨_, hrest.1⟩
          obtain ⟨next', rfl⟩ := hnext
          have hwalk := ih fuel (Nat.lt_of_succ_lt_succ hfuel) hrest (some head)
          simp only [walk, hcell, Option.bind_some, hwalk]
          cases hlast : pre.getLast? with
          | none => simp [List.getLast?_eq_none_iff.mp hlast]
          | some d => simp [List.getLast?_cons, hlast]

theorem Represents.pushF (h : Represents l cells) (malloc : Malloc (Node ℤ)) (value : ℤ) :
    ∃ l' newElement, pushF malloc value l = some l' ∧
      Represents l' (cells ++ [(newElement, value)]) := by
  have hall : Chain l.heap l.lista none (cells ++ []) := by
    rw [List.append_nil]
    exact h.chain
  have hkeys : ((cells ++ []).map Prod.fst).Nodup := by
    rw [List.append_nil]
    exact h.nodup
  obtain ⟨hfresh, h', p', hrelink, hchain⟩ := hall.insert hkeys (malloc.unused l.heap) value
  rw [List.append_nil] at hfresh
  have hnodup : ((cells ++ [(malloc.address l.heap, value)]).map Prod.fst).Nodup := by
    rw [List.map_append]
    exact List.Nodup.append h.nodup (List.nodup_singleton _) (by simpa using hfresh)
  have hlength := h.chain.length_le h.nodup
  rcases List.eq_nil_or_concat' cells with rfl | ⟨pre, ⟨x, v⟩, rfl⟩
  · have hlista : l.lista = none := h.chain
    obtain ⟨rfl, rfl⟩ := Prod.mk.inj (Option.some.inj hrelink)
    exact ⟨⟨_, some (malloc.address l.heap)⟩, _, by simp [SemStack.pushF, hlista]; rfl, hchain,
      hnodup⟩
  · obtain ⟨head, hlista⟩ : ∃ head, l.lista = some head := by
      cases pre with
      | nil => exact ⟨_, h.chain.1⟩
      | cons c pre => exact ⟨_, h.chain.1⟩
    have hchain' : Chain (l.heap.write (malloc.address l.heap) ⟨value, none⟩) (some head) none
        (pre ++ [(x, v)]) := by
      rw [← hlista]
      refine h.chain.congr fun c hc => Heap.write_of_ne _ ?_ _
      intro heq
      exact hfresh (heq ▸ List.mem_map_of_mem hc)
    have hbound : pre.length <
        (l.heap.write (malloc.address l.heap) ⟨value, none⟩).bound + 1 := by
      rw [List.length_append, List.length_singleton] at hlength
      simp only [Heap.write]
      omega
    have hwalk := walk_spec _ hbound hchain' none
    simp only [List.getLast?_concat, Option.map_some, PthreadBenchmark.relink] at hrelink
    obtain ⟨n, hcell, heq⟩ := Option.map_eq_some_iff.mp hrelink
    obtain ⟨rfl, rfl⟩ := Prod.mk.inj heq
    refine ⟨⟨_, l.lista⟩, malloc.address l.heap, ?_, hchain, hnodup⟩
    change (l.heap.write (malloc.address l.heap) ⟨value, none⟩).cells x = some n at hcell
    simp only [SemStack.pushF, hlista, hwalk, Option.bind_some, hcell, Option.map_some]
    rfl

theorem Represents.popF {pre : List (ℕ × ℤ)} (h : Represents l (pre ++ [(x, v)])) :
    ∃ l', popF l = some (v, l') ∧ Represents l' pre := by
  have hlength := h.chain.length_le h.nodup
  have hnodup := h.nodup
  rw [List.length_append, List.length_singleton] at hlength
  rw [List.map_append, List.nodup_append] at hnodup
  obtain ⟨head, hlista⟩ : ∃ head, l.lista = some head := by
    cases pre with
    | nil => exact ⟨_, h.chain.1⟩
    | cons c pre => exact ⟨_, h.chain.1⟩
  have hwalk := walk_spec (l.heap.bound + 1) (by omega) (hlista ▸ h.chain) none
  obtain ⟨r, hpre, rfl, next, hcell, -⟩ := chain_append.mp h.chain
  have hfree : ∀ c ∈ pre, (l.heap.free x).cells c.1 = l.heap.cells c.1 := by
    intro c hc
    apply Heap.free_of_ne
    exact hnodup.2.2 c.1 (List.mem_map_of_mem hc) x (by simp)
  rcases List.eq_nil_or_concat' pre with rfl | ⟨pre, ⟨y, w⟩, rfl⟩
  · refine ⟨⟨l.heap.free x, none⟩, ?_, rfl, List.nodup_nil⟩
    simp [SemStack.popF, hlista, hwalk, hcell]
  · -- the last link of the shorter list is cut after the cell behind it has been freed
    obtain ⟨h', p', hrelink, hchain, -⟩ := (hpre.congr hfree).relink hnodup.1 none
    simp only [List.getLast?_concat, Option.map_some, PthreadBenchmark.relink] at hrelink
    obtain ⟨n, hcell', heq⟩ := Option.map_eq_some_iff.mp hrelink
    obtain ⟨rfl, rfl⟩ := Prod.mk.inj heq
    refine ⟨⟨_, l.lista⟩, ?_, hchain, hnodup.1⟩
    simp only [List.getLast?_concat, Option.map_some, Option.or_none] at hwalk
    simp only [SemStack.popF, hlista, hwalk, Option.bind_some, hcell, hcell', Option.map_some]
    rfl

/-! ## The abstract stack -/

/-- The stack with its top at the end, behind a sequence of pushes and pops; `none` where a pop
did not return the top. -/
def replay : List ℤ → List Event → Option (List ℤ)
  | stack, [] => some stack
  | stack, .push value :: log => replay (stack ++ [value]) log
  | stack, .pop value :: log =>
    if stack.getLast? = some value then replay stack.dropLast log else none

theorem replay_append (stack : List ℤ) (log log' : List Event) :
    replay stack (log ++ log') = (replay stack log).bind fun stack => replay stack log' := by
  induction log generalizing stack with
  | nil => rfl
  | cons e log ih =>
      cases e with
      | push value => exact ih _
      | pop value =>
          simp only [List.cons_append, replay]
          split
          · exact ih _
          · rfl

def Event.pushed : Event → Option ℤ
  | .push value => some value
  | .pop _ => none

def Event.popped : Event → Option ℤ
  | .pop value => some value
  | .push _ => none

/-- What has been pushed has been popped or is on the stack. -/
theorem perm_of_replay {stack stack' : List ℤ} {log : List Event}
    (h : replay stack log = some stack') :
    (stack ++ log.filterMap Event.pushed).Perm (log.filterMap Event.popped ++ stack') := by
  induction log generalizing stack with
  | nil =>
      obtain rfl : stack = stack' := Option.some.inj h
      simp
  | cons e log ih =>
      cases e with
      | push value => simpa [List.filterMap_cons, Event.pushed, Event.popped] using ih h
      | pop value =>
          simp only [replay] at h
          split at h
          · next hlast =>
              have hstack : stack = stack.dropLast ++ [value] :=
                (List.dropLast_append_getLast? value hlast).symm
              have hperm := ih h
              rw [hstack]
              simp only [List.filterMap_cons, Event.pushed, Event.popped, List.append_assoc,
                List.cons_append]
              exact List.perm_middle.trans (hperm.cons value)
          · cases h

/-! ## Threads -/

/-- Poppers that have passed `sem_wait` and not yet popped. -/
def passedWait : Point n → ℕ
  | .popLock | .popBody => 1
  | _ => 0

/-- Pushers that have appended and not yet posted. -/
def appended : Point n → ℕ
  | .pushUnlock _ _ | .pushPost _ _ => 1
  | _ => 0

/-- The values in the hands of the pushers are not negative, and no operation has failed. -/
def Point.Fine : Point n → Prop
  | .pushBody _ _ val => 0 ≤ val
  | .fault => False
  | _ => True

/-- The list is the stack of the log, without a negative value, and counted by the
semaphore and the threads in between. -/
structure Stacked (s : Shared) (ps : Tid m n → Point n) (cells : List (ℕ × ℤ)) : Prop where
  represents : Represents s.list cells
  length : cells.length = s.sem + weight passedWait ps + weight appended ps
  replay : replay [] s.log = some (cells.map Prod.snd)
  nonneg : ∀ value ∈ cells.map Prod.snd, 0 ≤ value
  fine : ∀ i, (ps i).Fine

variable {s : Shared} {ps : Tid m n → Point n} {i : Tid m n} {q : Point n}

theorem stacked_start : Stacked ⟨⟨.empty, none⟩, 0, []⟩ (start : Tid m n → Point n) [] where
  represents := represents_empty
  length := by
    have hpassed : weight passedWait (start : Tid m n → Point n) = 0 :=
      (weight_eq_zero_iff ..).mpr fun i => by cases i <;> rfl
    have happended : weight appended (start : Tid m n → Point n) = 0 :=
      (weight_eq_zero_iff ..).mpr fun i => by cases i <;> rfl
    rw [hpassed, happended]
    rfl
  replay := rfl
  nonneg := by simp
  fine i := by cases i <;> trivial

/-- A step of a thread that leaves the list alone. -/
theorem Stacked.move (h : Stacked s ps cells) {sem : ℕ} (hq : q.Fine)
    (hcount : sem + passedWait q + appended q =
      s.sem + passedWait (ps i) + appended (ps i)) :
    Stacked { s with sem := sem } (Function.update ps i q) cells where
  represents := h.represents
  length := by
    have hpassed := weight_update passedWait ps i q
    have happended := weight_update appended ps i q
    have hlength := h.length
    simp only
    omega
  replay := h.replay
  nonneg := h.nonneg
  fine := (Function.forall_update_iff ps fun _ p => p.Fine).mpr ⟨hq, fun j _ => h.fine j⟩

/-- At `pop_f` the list is not empty. -/
theorem Stacked.ne_nil (h : Stacked s ps cells) (hi : ps i = .popBody) :
    ∃ pre x v, cells = pre ++ [(x, v)] := by
  have hle := le_weight passedWait ps i
  have hlength := h.length
  rw [hi] at hle
  simp only [passedWait] at hle
  rcases List.eq_nil_or_concat' cells with rfl | ⟨pre, ⟨x, v⟩, rfl⟩
  · rw [List.length_nil] at hlength
    omega
  · exact ⟨pre, x, v, rfl⟩

theorem Stacked.pop {pre : List (ℕ × ℤ)} (h : Stacked s ps (pre ++ [(x, v)]))
    (hi : ps i = .popBody) :
    ∃ list, popF s.list = some (v, list) ∧
      Stacked { s with list := list, log := s.log ++ [.pop v] }
        (Function.update ps i .popUnlock) pre := by
  obtain ⟨list, hpop, hrep⟩ := h.represents.popF
  refine ⟨list, hpop, hrep, ?_, ?_, ?_, ?_⟩
  · have hpassed := weight_update passedWait ps i .popUnlock
    have happended := weight_update appended ps i .popUnlock
    have hlength := h.length
    rw [hi] at hpassed happended
    rw [List.length_append, List.length_singleton] at hlength
    simp only [passedWait, appended] at hpassed happended ⊢
    omega
  · rw [replay_append, h.replay]
    simp [SemStack.replay]
  · intro value hvalue
    exact h.nonneg value (by simp [hvalue])
  · exact (Function.forall_update_iff ps fun _ p => p.Fine).mpr ⟨trivial, fun j _ => h.fine j⟩

theorem Stacked.push (h : Stacked s ps cells) (malloc : Malloc (Node ℤ)) {id : Fin n} {k : ℕ}
    {val : ℤ} (hi : ps i = .pushBody id k val) :
    ∃ list newElement, pushF malloc val s.list = some list ∧
      Stacked { s with list := list, log := s.log ++ [.push val] }
        (Function.update ps i (.pushUnlock id k)) (cells ++ [(newElement, val)]) := by
  obtain ⟨list, newElement, hpush, hrep⟩ := h.represents.pushF malloc val
  have hval := h.fine i
  rw [hi] at hval
  refine ⟨list, newElement, hpush, hrep, ?_, ?_, ?_, ?_⟩
  · have hpassed := weight_update passedWait ps i (.pushUnlock id k)
    have happended := weight_update appended ps i (.pushUnlock id k)
    have hlength := h.length
    rw [hi] at hpassed happended
    rw [List.length_append, List.length_singleton]
    simp only [passedWait, appended] at hpassed happended ⊢
    omega
  · rw [replay_append, h.replay]
    simp [SemStack.replay]
  · intro value hvalue
    rw [List.map_append, List.mem_append] at hvalue
    rcases hvalue with hvalue | hvalue
    · exact h.nonneg value hvalue
    · obtain rfl : value = val := by simpa using hvalue
      exact hval
  · exact (Function.forall_update_iff ps fun _ p => p.Fine).mpr ⟨trivial, fun j _ => h.fine j⟩

variable {malloc : Malloc (Node ℤ)} {rand : Fin n → ℕ → ℕ}
  {c : Config (Tid m n) Shared (Point n) Mutex Empty}

theorem stacked_of_reachable (h : (program m malloc rand).Reachable c) :
    ∃ cells, Stacked c.shared (points c) cells := by
  apply points_invariant (P := fun s ps => ∃ cells, Stacked s ps cells) h ⟨[], stacked_start⟩
  intro s ps i q hstacked hq
  obtain ⟨cells, hstacked⟩ := hstacked
  cases hp : ps i with
  | popWait =>
      rw [hp] at hq
      rcases Op.await_cases hq with ⟨hready, rfl, hafter⟩ | ⟨rfl, hafter⟩
      · refine ⟨cells, ?_⟩
        simp only [code, hafter]
        apply hstacked.move (q := .popLock) trivial
        simp only [hp, passedWait, appended]
        omega
      · refine ⟨cells, ?_⟩
        simp only [code, hafter]
        apply hstacked.move (q := .popWait) trivial
        rw [hp]
  | popBody =>
      obtain ⟨pre, x, v, rfl⟩ := hstacked.ne_nil hp
      obtain ⟨list, hpop, hstacked'⟩ := hstacked.pop hp
      rw [hp] at hq
      simp only [code, hpop] at hq ⊢
      cases hq
      exact ⟨pre, hstacked'⟩
  | pushBody id k val =>
      obtain ⟨list, newElement, hpush, hstacked'⟩ := hstacked.push malloc hp
      rw [hp] at hq
      simp only [code, hpush] at hq ⊢
      cases hq
      exact ⟨_, hstacked'⟩
  | pushLock id k =>
      rw [hp] at hq
      cases hq
      exact ⟨cells, hstacked.move (Int.natCast_nonneg _) (by rw [hp]; rfl)⟩
  | pushPost id k =>
      rw [hp] at hq
      cases hq
      exact ⟨cells, hstacked.move trivial (by rw [hp]; rfl)⟩
  | popLock | popUnlock | pushUnlock =>
      rw [hp] at hq
      cases hq
      exact ⟨cells, hstacked.move trivial (by rw [hp]; rfl)⟩
  | fault =>
      have hfine := hstacked.fine i
      rw [hp] at hfine
      exact hfine.elim

/-! ## Result -/

/-- For any number of threads, any values and any interleaving: the list has as many
elements as the semaphore and the threads in between say, `pop_f` is called on a list that
is not empty and returns its last value, which is not -1, no operation fails, and the list is the
stack behind all pushes and pops, so that what has been pushed has been popped once
or is in the list. -/
theorem stack_correct (m n : ℕ) (malloc : Malloc (Node ℤ)) (rand : Fin n → ℕ → ℕ)
    (c : Config (Tid m n) Shared (Point n) Mutex Empty)
    (h : (program m malloc rand).Reachable c) :
    ∃ cells, Represents c.shared.list cells ∧
      cells.length = c.shared.sem + weight passedWait (points c) + weight appended (points c) ∧
      (∀ i, points c i = .popBody → c.shared.list.lista ≠ none ∧
        ∃ pre x v list, cells = pre ++ [(x, v)] ∧ popF c.shared.list = some (v, list) ∧
          v ≠ -1 ∧ Represents list pre) ∧
      (∀ i, points c i ≠ .fault) ∧
      replay [] c.shared.log = some (cells.map Prod.snd) ∧
      (c.shared.log.filterMap Event.pushed).Perm
        (c.shared.log.filterMap Event.popped ++ cells.map Prod.snd) := by
  obtain ⟨cells, hstacked⟩ := stacked_of_reachable h
  refine ⟨cells, hstacked.represents, hstacked.length, fun i hi => ?_, fun i hi => ?_,
    hstacked.replay, perm_of_replay hstacked.replay⟩
  · obtain ⟨pre, x, v, rfl⟩ := hstacked.ne_nil hi
    obtain ⟨list, hpop, hrep⟩ := hstacked.represents.popF
    have hnonneg := hstacked.nonneg v (by simp)
    refine ⟨?_, pre, x, v, list, rfl, hpop, by omega, hrep⟩
    intro hnone
    have hchain := hstacked.represents.chain
    rw [hnone] at hchain
    cases pre with
    | nil => cases hchain.1
    | cons c pre => cases hchain.1
  · have hfine := hstacked.fine i
    rw [hi] at hfine
    exact hfine

/-- Two pushes, after which the second value is popped. -/
def pushPushPop (i j : Fin 1) : Option (Config (Tid 1 1) Shared (Point 1) Mutex Empty) :=
  (program 1 (bumpMalloc _) fun _ k => 7 + k).exec (program 1 (bumpMalloc _) fun _ k => 7 + k).init
    (List.replicate 8 (.run (.inr i) none) ++ List.replicate 4 (.run (.inl j) none))

theorem stack_correct_two : ∃ c, pushPushPop 0 0 = some c ∧
    c.shared.log = [.push 7, .push 8, .pop 8] ∧
    ∃ cells, Represents c.shared.list cells ∧ cells.length = 1 := by
  have hrun : (pushPushPop 0 0).isSome = true := by decide
  obtain ⟨cells, hrep, hlength, -⟩ := stack_correct 1 1 _ _ _
    (System.Reachable.init.exec (Option.some_get hrun).symm)
  exact ⟨(pushPushPop 0 0).get hrun, (Option.some_get hrun).symm, rfl, cells, hrep, hlength⟩

end PthreadBenchmark.SemStack
