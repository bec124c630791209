import PthreadBenchmark.LinkedList.Threads.Model
import PthreadBenchmark.Shared.SortedLinks
import Mathlib.Data.Fin.VecNotation

/-! # Threads that insert without a lock

As long as no thread deletes, the list stays an ascending list and keeps the values that it has had
before the threads. A value that a thread inserts may be lost again. -/

namespace PthreadBenchmark.LinkedList.Threads

open Pthread

variable {ι : Type*} {malloc : Malloc (Node ℤ)} {junk : Node ℤ} {limits : Operation → ℕ}
  {rand : ℕ → ℕ} {s s' : State} {t t' : Thread} {op : Operation} {value : ℤ} {p q : CallPoint}
  {P P' : Set ℕ} {W V V' : Set ℤ} {prev curr : Option ℕ} {a : ℕ} {x : WithBot ℤ}

/-! ## What a thread has drawn -/

/-- The thread has counted its calls, and is in a call that it has drawn. -/
structure Recorded (limits : Operation → ℕ) (rand : ℕ → ℕ) (t : Thread) : Prop where
  same : t.rand = rand
  counts : ∀ op, t.counts op = (drawn limits rand t.draws).countP fun c => c.1 = op
  called : ∀ op value p, t.point = .call op value p → (op, value) ∈ drawn limits rand t.draws

theorem drawn_succ (limits : Operation → ℕ) (rand : ℕ → ℕ) (k : ℕ) :
    drawn limits rand (k + 1) =
      if (drawn limits rand k).countP (fun c => c.1 = operation (draw rand k)) <
          limits (operation (draw rand k)) then
        drawn limits rand k ++ [(operation (draw rand k), draw rand k)]
      else drawn limits rand k := rfl

theorem drawn_subset_succ (limits : Operation → ℕ) (rand : ℕ → ℕ) (k : ℕ) :
    drawn limits rand k ⊆ drawn limits rand (k + 1) := by
  rw [drawn_succ]
  split
  · exact List.subset_append_left ..
  · exact List.Subset.refl _

theorem drawn_subset {k l : ℕ} (hkl : k ≤ l) : drawn limits rand k ⊆ drawn limits rand l := by
  induction hkl with
  | refl => exact List.Subset.refl _
  | step _ ih => exact List.Subset.trans ih (drawn_subset_succ ..)

/-- A thread makes no calls beyond its limits. -/
theorem limits_pos_of_mem {k : ℕ} (h : (op, value) ∈ drawn limits rand k) : 0 < limits op := by
  induction k with
  | zero => cases h
  | succ k ih =>
      rw [drawn_succ] at h
      split at h
      next hless =>
        rcases List.mem_append.mp h with h | h
        · exact ih h
        · cases List.mem_singleton.mp h
          exact Nat.zero_lt_of_lt hless
      · exact ih h

/-- The number that is drawn decides on the operation. -/
theorem eq_operation_of_mem {k : ℕ} (h : (op, value) ∈ drawn limits rand k) :
    op = operation value := by
  induction k with
  | zero => cases h
  | succ k ih =>
      rw [drawn_succ] at h
      split at h
      · rcases List.mem_append.mp h with h | h
        · exact ih h
        · cases List.mem_singleton.mp h
          rfl
      · exact ih h

variable (malloc junk limits s) in
theorem threadOperation_of_call (hp : t.point = .call op value p) (hret : ∀ r, p ≠ .returned r) :
    threadOperation (ι := ι) malloc junk limits s t =
      (call malloc junk op value s p).map (fun i => i) (fun s => s)
        fun q => { t with point := .call op value q } := by
  obtain ⟨rand, draws, counts, point⟩ := t
  obtain rfl : point = .call op value p := hp
  cases p with
  | returned r => exact absurd rfl (hret r)
  | _ => rfl

/-- A step of a thread is one of its call, or it goes on in its loop. -/
theorem next_cases (h : (threadOperation (ι := ι) malloc junk limits s t).next? = some t') :
    (∃ op value p q, t.point = .call op value p ∧
      (call (ι := ι) malloc junk op value s p).next? = some q ∧
      t' = { t with point := .call op value q } ∧
      (threadOperation (ι := ι) malloc junk limits s t).after s =
        (call (ι := ι) malloc junk op value s p).after s) ∨
    ((∃ op value r, t.point = .call op value (.returned r)) ∧ t' = { t with point := .loop } ∧
      (threadOperation (ι := ι) malloc junk limits s t).after s = s) ∨
    (t.point = .loop ∧
      t' = (if t.busy limits then t.round limits else { t with point := .exited }) ∧
      (threadOperation (ι := ι) malloc junk limits s t).after s = s) := by
  cases hp : t.point with
  | exited =>
      rw [threadOperation, hp] at h
      cases h
  | loop =>
      rw [threadOperation, hp] at h ⊢
      cases h
      exact .inr (.inr ⟨rfl, rfl, rfl⟩)
  | call op value p =>
      by_cases hret : ∃ r, p = .returned r
      · obtain ⟨r, rfl⟩ := hret
        rw [threadOperation, hp] at h ⊢
        cases h
        exact .inr (.inl ⟨⟨op, value, r, rfl⟩, rfl, rfl⟩)
      · left
        have hop := threadOperation_of_call (ι := ι) malloc junk limits s hp
          fun r hr => hret ⟨r, hr⟩
        rw [hop, Op.next?_map, Option.map_eq_some_iff] at h
        obtain ⟨q, hq, rfl⟩ := h
        exact ⟨op, value, p, q, rfl, hq, rfl, (congrArg _ hop).trans (Op.after_map rfl)⟩

theorem Recorded.round (h : Recorded limits rand t) : Recorded limits rand (t.round limits) := by
  obtain ⟨values, draws, counts, point⟩ := t
  obtain ⟨rfl, hcounts, hcalled⟩ := h
  have hdrawn := drawn_succ limits values draws
  dsimp only at hcounts hcalled hdrawn
  simp only [Thread.round, hcounts]
  split
  next hless =>
    rw [if_pos hless] at hdrawn
    refine ⟨rfl, fun op => ?_, fun op value p hp => ?_⟩
    · simp only [hdrawn, List.countP_append, List.countP_singleton, ← hcounts]
      by_cases hop : op = operation (draw values draws)
      · subst hop
        simp
      · simp [Function.update_of_ne hop, Ne.symm hop]
    · cases hp
      rw [hdrawn]
      exact List.mem_append_right _ (List.mem_singleton_self _)
  next hless =>
    rw [if_neg hless] at hdrawn
    refine ⟨rfl, fun op => ?_, fun op value p hp => ?_⟩
    · rw [hdrawn]
      exact hcounts op
    · rw [hdrawn]
      exact hcalled op value p hp

theorem Recorded.next (h : Recorded limits rand t)
    (hq : (threadOperation (ι := ι) malloc junk limits s t).next? = some t') :
    Recorded limits rand t' := by
  rcases next_cases hq with ⟨op, value, p, q, hp, -, rfl, -⟩ | ⟨-, rfl, -⟩ | ⟨-, rfl, -⟩
  · refine ⟨h.same, h.counts, fun op' value' p' hp' => ?_⟩
    cases hp'
    exact h.called op value p hp
  · exact ⟨h.same, h.counts, fun op' value' p' hp' => by cases hp'⟩
  · split
    · exact h.round
    · exact ⟨h.same, h.counts, fun op' value' p' hp' => by cases hp'⟩

/-! ## The nodes of the threads -/

/-- The node that the call has allocated and not linked in. -/
def CallPoint.temp? : CallPoint → Option ℕ
  | .data _ _ temp | .next _ _ temp | .link _ temp => some temp
  | _ => none

def Thread.temp? (t : Thread) : Option ℕ :=
  match t.point with
  | .call _ _ p => p.temp?
  | _ => none

/-- What a call has learned of the list. `W` are the values that never leave it, and `V` those that
it may have. -/
def Fits (P : Set ℕ) (W V : Set ℤ) (s : State) (op : Operation) (value : ℤ) : CallPoint → Prop
  | .load => True
  | .test prev curr => Between s.heap P W value prev curr
  | .advance a => a ∈ P ∧ ∃ y, s.heap.data? a = some y ∧ y < value
  | .found prev curr => Between s.heap P W value prev curr ∧
      ∀ b, curr = some b → ∃ y, s.heap.data? b = some y ∧ value ≤ y
  | .malloc prev curr => op = .insert ∧ Gap s.heap P W value prev curr
  | .data prev curr temp => op = .insert ∧ Gap s.heap P W value prev curr ∧
      ∃ node, s.heap.cells temp = some node
  | .next prev curr temp => op = .insert ∧ Gap s.heap P W value prev curr ∧
      ∃ node, s.heap.cells temp = some node ∧ node.data = value
  | .link prev temp => op = .insert ∧
      ∃ curr, Gap s.heap P W value prev curr ∧ s.heap.cells temp = some ⟨value, curr⟩
  | .returned r =>
    match op with
    | .member => (value ∈ W → r = 1) ∧ (r ≠ 0 → value ∈ V)
    | .insert => value ∈ W → r = 0
    | .delete => False
  | .loadNext _ _ | .unlink _ _ _ | .free _ | .crashed => False

/-- What a call has learned stays true while the other threads insert. -/
theorem Fits.keep (h : Fits P W V s op value p) (hk : Keeps s.heap P s'.heap P') (hV : V ⊆ V')
    (htemp : ∀ a, p.temp? = some a → s'.heap.cells a = s.heap.cells a) :
    Fits P' W V' s' op value p := by
  cases p with
  | load => trivial
  | test prev curr => exact Between.keep h hk
  | advance a =>
      obtain ⟨ha, y, hy, hlt⟩ := h
      exact ⟨hk.subset ha, y, (hk.data a ha).trans hy, hlt⟩
  | found prev curr =>
      obtain ⟨hbetween, hbehind⟩ := h
      refine ⟨hbetween.keep hk, ?_⟩
      rintro b rfl
      obtain ⟨y, hy, hle⟩ := hbehind b rfl
      exact ⟨y, (hk.data b hbetween.mem).trans hy, hle⟩
  | malloc prev curr => exact ⟨h.1, h.2.keep hk⟩
  | data prev curr temp =>
      obtain ⟨hop, hgap, node, hnode⟩ := h
      exact ⟨hop, hgap.keep hk, node, (htemp temp rfl).trans hnode⟩
  | next prev curr temp =>
      obtain ⟨hop, hgap, node, hnode, hdata⟩ := h
      exact ⟨hop, hgap.keep hk, node, (htemp temp rfl).trans hnode, hdata⟩
  | link prev temp =>
      obtain ⟨hop, curr, hgap, hnode⟩ := h
      exact ⟨hop, curr, hgap.keep hk, (htemp temp rfl).trans hnode⟩
  | returned r =>
      cases op with
      | member => exact ⟨h.1, fun hr => hV (h.2 hr)⟩
      | insert => exact h
      | delete => exact h
  | loadNext | unlink | free | crashed => exact h

theorem Fits.allocated (h : Fits P W V s op value p) (hp : p.temp? = some a) :
    s.heap.cells a ≠ none := by
  cases p with
  | data prev curr temp =>
      cases hp
      obtain ⟨-, -, node, hnode⟩ := h
      simp [hnode]
  | next prev curr temp =>
      cases hp
      obtain ⟨-, -, node, hnode, -⟩ := h
      simp [hnode]
  | link prev temp =>
      cases hp
      obtain ⟨-, curr, -, hnode⟩ := h
      simp [hnode]
  | _ => cases hp

/-! ## A step of a call -/

/-- The list of the linked nodes, whose values are of `V`. -/
structure Linked (P : Set ℕ) (W V : Set ℤ) (s : State) : Prop where
  ascending : Ascending s.heap P W s.head
  values : ∀ a ∈ P, ∀ y, s.heap.data? a = some y → y ∈ V

/-- What a step of a call does to the list and to the nodes of the other threads. -/
structure Effect (P : Set ℕ) (W V : Set ℤ) (s : State) (p : CallPoint) (s' : State) (q : CallPoint)
    (P' : Set ℕ) : Prop where
  keeps : Keeps s.heap P s'.heap P'
  linked : Linked P' W V s'
  others : ∀ a, a ∉ P → s.heap.cells a ≠ none → p.temp? ≠ some a →
    a ∉ P' ∧ s'.heap.cells a = s.heap.cells a
  temp : ∀ a, q.temp? = some a → a ∉ P' ∧ (p.temp? = some a ∨ s.heap.cells a = none)

/-- A step that reads. -/
theorem Linked.reads (h : Linked P W V s) (hq : q.temp? = none) : Effect P W V s p s q P where
  keeps := .of_eq fun _ _ => rfl
  linked := h
  others := fun a ha _ _ => ⟨ha, rfl⟩
  temp := fun a ha => by rw [hq] at ha; cases ha

/-- A step that writes a node that is not linked in. -/
theorem Linked.writes {temp : ℕ} (h : Linked P W V s) (htemp : temp ∉ P)
    (hp : p.temp? = some temp ∨ s.heap.cells temp = none) (hq : q.temp? = some temp)
    (node : Node ℤ) : Effect P W V s p { s with heap := s.heap.write temp node } q P := by
  have hframe : ∀ a ∈ P, (s.heap.write temp node).cells a = s.heap.cells a := by
    intro a ha
    refine Heap.write_of_ne _ ?_ _
    rintro rfl
    exact htemp ha
  have hkeeps := Keeps.of_eq hframe
  refine ⟨hkeeps, ⟨h.ascending.of_eq hframe, fun a ha y hy => ?_⟩,
    fun a ha hcell hne => ⟨ha, ?_⟩, fun a ha => ?_⟩
  · exact h.values a ha y ((hkeeps.data a ha).symm.trans hy)
  · refine Heap.write_of_ne _ ?_ _
    rintro rfl
    rcases hp with hp | hp
    · exact hne hp
    · exact hcell hp
  · rw [hq] at ha
    cases ha
    exact ⟨htemp, hp⟩

theorem store_of_relink {target : Option ℕ} {r : Heap (Node ℤ) × Option ℕ}
    (h : relink s.heap s.head prev target = some r) :
    store (ι := ι) s prev target q = .run ⟨r.1, r.2⟩ q := by
  cases prev with
  | none =>
      cases h
      rfl
  | some a =>
      obtain ⟨node, hnode, rfl⟩ := Option.map_eq_some_iff.mp h
      simp only [store, write, hnode]

/-- The step that links a node in. -/
theorem Linked.links {temp : ℕ} (h : Linked P W V s) (hvalue : value ∈ V)
    (hgap : Gap s.heap P W value prev curr) (htemp : s.heap.cells temp = some ⟨value, curr⟩) :
    ∃ s', store (ι := ι) s prev (some temp) (.returned 1) = .run s' (.returned 1) ∧
      Effect P W V s (.link prev temp) s' (.returned 1) (Insert.insert temp P) := by
  obtain ⟨heap, head, hrelink, hascending, hdata, hframe⟩ := h.ascending.relink hgap htemp
  refine ⟨⟨heap, head⟩, store_of_relink hrelink, ⟨Set.subset_insert _ _, fun b _ => hdata b⟩,
    ⟨hascending, fun a ha y hy => ?_⟩, fun a ha _ hne => ⟨?_, ?_⟩, fun a ha => by cases ha⟩
  · rw [hdata] at hy
    rcases Set.mem_insert_iff.mp ha with rfl | ha
    · rw [Heap.data?_of_cells htemp] at hy
      cases hy
      exact hvalue
    · exact h.values a ha y hy
  · rw [Set.mem_insert_iff, not_or]
    exact ⟨fun heq => hne (congrArg some heq.symm), ha⟩
  · refine hframe a fun hprev => ha ?_
    obtain ⟨x, hx, -, -⟩ := hgap.before
    rw [hprev] at hx
    exact hx.1

theorem read_of_cells {node : Node ℤ} (hnode : s.heap.cells a = some node)
    (f : Node ℤ → CallPoint) : read (ι := ι) s a f = .run s (f node) := by
  rw [read, hnode]

theorem write_of_cells {node : Node ℤ} (hnode : s.heap.cells a = some node)
    (f : Node ℤ → Node ℤ) :
    write (ι := ι) s a f q = .run { s with heap := s.heap.write a (f node) } q := by
  rw [write, hnode]

/-- The node in front of which the walk is. -/
theorem Linked.node (h : Linked P W V s) (hbetween : Between s.heap P W value prev (some a)) :
    a ∈ P ∧ ∃ node, s.heap.cells a = some node ∧ s.heap.data? a = some node.data := by
  obtain ⟨node, hnode, -⟩ := h.ascending.nodes a hbetween.mem
  exact ⟨hbetween.mem, node, hnode, Heap.data?_of_cells hnode⟩

theorem Linked.found (h : Linked P W V s) (hfits : Fits P W V s op value (.found prev curr))
    (hdelete : op ≠ .delete)
    (hq : (call (ι := ι) malloc junk op value s (.found prev curr)).next? = some q) :
    (call (ι := ι) malloc junk op value s (.found prev curr)).after s = s ∧ q.temp? = none ∧
      Fits P W V s op value q := by
  obtain ⟨hbetween, hbehind⟩ := hfits
  cases curr with
  | none =>
      cases hq
      refine ⟨rfl, by cases op <;> rfl, ?_⟩
      cases op with
      | member =>
          refine ⟨fun hW => ?_, fun hne => absurd rfl hne⟩
          obtain ⟨b, y, hb, -⟩ := hbetween.stops hW
          cases hb
      | insert => exact ⟨rfl, hbetween, fun b hb => by cases hb⟩
      | delete => exact absurd rfl hdelete
  | some a =>
      obtain ⟨ha, node, hnode, hdata⟩ := h.node hbetween
      have hop : call (ι := ι) malloc junk op value s (.found prev (some a)) =
          .run s (op.branch value prev a node) := read_of_cells hnode _
      rw [hop] at hq ⊢
      cases hq
      have hle : value ≤ node.data := by
        obtain ⟨y, hy, hle⟩ := hbehind a rfl
        rw [hdata] at hy
        cases hy
        exact hle
      refine ⟨rfl, by cases op <;> simp only [Operation.branch] <;> split <;> rfl, ?_⟩
      cases op with
      | delete => exact absurd rfl hdelete
      | member =>
          simp only [Operation.branch]
          split
          next hlt =>
            refine ⟨fun hW => ?_, fun hne => absurd rfl hne⟩
            obtain ⟨b, y, hb, hy, hyv⟩ := hbetween.stops hW
            cases hb
            rw [hdata] at hy
            cases hy
            omega
          next hnlt =>
            refine ⟨fun _ => rfl, fun _ => ?_⟩
            obtain rfl : node.data = value := by omega
            exact h.values a ha _ hdata
      | insert =>
          simp only [Operation.branch]
          split
          next hlt =>
            refine ⟨rfl, hbetween, fun b hb => ?_⟩
            cases hb
            exact ⟨node.data, hdata, hlt⟩
          next => exact fun _ => rfl

/-- A step of a call that deletes nothing. -/
theorem Linked.step (h : Linked P W V s) (hfits : Fits P W V s op value p) (hdelete : op ≠ .delete)
    (hvalue : op = .insert → value ∈ V) (htemp : ∀ a, p.temp? = some a → a ∉ P)
    (hq : (call (ι := ι) malloc junk op value s p).next? = some q) :
    ∃ P', Effect P W V s p ((call (ι := ι) malloc junk op value s p).after s) q P' ∧
      Fits P' W V ((call (ι := ι) malloc junk op value s p).after s) op value q := by
  cases p with
  | load =>
      cases hq
      exact ⟨P, h.reads rfl, ⊥, rfl, WithBot.bot_lt_coe _, h.ascending.head⟩
  | test prev curr =>
      cases curr with
      | none =>
          cases hq
          exact ⟨P, h.reads rfl, hfits, fun b hb => by cases hb⟩
      | some a =>
          obtain ⟨ha, node, hnode, hdata⟩ := h.node hfits
          have hop := read_of_cells (ι := ι) hnode fun node =>
            if node.data < value then .advance a else .found prev (some a)
          simp only [call, hop] at hq ⊢
          cases hq
          refine ⟨P, h.reads (by split <;> rfl), ?_⟩
          split
          next hlt => exact ⟨ha, node.data, hdata, hlt⟩
          next hnlt =>
            refine ⟨hfits, fun b hb => ?_⟩
            cases hb
            exact ⟨node.data, hdata, not_lt.mp hnlt⟩
  | advance a =>
      obtain ⟨ha, y, hy, hlt⟩ := hfits
      obtain ⟨node, hnode, ho⟩ := h.ascending.nodes a ha
      have hdata := Heap.data?_of_cells hnode
      obtain rfl : node.data = y := Option.some.inj (hdata.symm.trans hy)
      simp only [call, read_of_cells hnode] at hq ⊢
      cases hq
      exact ⟨P, h.reads rfl, node.data, ⟨ha, node.data, hdata, rfl⟩, WithBot.coe_lt_coe.mpr hlt, ho⟩
  | found prev curr =>
      obtain ⟨hafter, hnone, hfits⟩ := h.found hfits hdelete hq
      rw [hafter]
      exact ⟨P, h.reads hnone, hfits⟩
  | malloc prev curr =>
      cases hq
      have hunused := malloc.unused s.heap
      have hfresh : malloc.address s.heap ∉ P := by
        intro hmem
        obtain ⟨node, hnode, -⟩ := h.ascending.nodes _ hmem
        rw [hunused] at hnode
        cases hnode
      have heffect := h.writes (p := .malloc prev curr)
        (q := .data prev curr (malloc.address s.heap)) hfresh (.inr hunused) rfl junk
      exact ⟨P, heffect, hfits.1, hfits.2.keep heffect.keeps, junk, Heap.write_self ..⟩
  | data prev curr temp =>
      obtain ⟨hop, hgap, node, hnode⟩ := hfits
      simp only [call, write_of_cells hnode] at hq ⊢
      cases hq
      have heffect := h.writes (p := .data prev curr temp) (q := .next prev curr temp)
        (htemp temp rfl) (.inl rfl) rfl { node with data := value }
      exact ⟨P, heffect, hop, hgap.keep heffect.keeps, _, Heap.write_self .., rfl⟩
  | next prev curr temp =>
      obtain ⟨hop, hgap, node, hnode, hdata⟩ := hfits
      simp only [call, write_of_cells hnode] at hq ⊢
      cases hq
      have heffect := h.writes (p := .next prev curr temp) (q := .link prev temp)
        (htemp temp rfl) (.inl rfl) rfl { node with next := curr }
      refine ⟨P, heffect, hop, curr, hgap.keep heffect.keeps, ?_⟩
      rw [← hdata]
      exact Heap.write_self ..
  | link prev temp =>
      obtain ⟨rfl, curr, hgap, hnode⟩ := hfits
      obtain ⟨s', hstore, heffect⟩ := h.links (ι := ι) (hvalue rfl) hgap hnode
      simp only [call, hstore] at hq ⊢
      cases hq
      exact ⟨_, heffect, fun hW => absurd hW hgap.notMem⟩
  | returned r => cases hq
  | loadNext | unlink | free | crashed => exact hfits.elim

/-! ## All threads -/

section Shape

variable {rands : ι → ℕ → ℕ} {ts : ι → Thread} {i : ι}

/-- The values that the list may have: those of `W`, and those with which a thread has called
`Insert`. -/
def candidates (limits : Operation → ℕ) (W : Set ℤ) (ts : ι → Thread) : Set ℤ :=
  W ∪ {v | ∃ i, (.insert, v) ∈ drawn limits (ts i).rand (ts i).draws}

structure Shape (P : Set ℕ) (W V : Set ℤ) (s : State) (ts : ι → Thread) : Prop where
  linked : Linked P W V s
  fits : ∀ i op value p, (ts i).point = .call op value p → Fits P W V s op value p
  fresh : ∀ i a, (ts i).temp? = some a → a ∉ P
  apart : ∀ i j a, (ts i).temp? = some a → (ts j).temp? = some a → i = j

theorem Thread.temp?_of_call (hp : t.point = .call op value p) : t.temp? = p.temp? := by
  rw [Thread.temp?, hp]

theorem Shape.allocated (h : Shape P W V s ts) (hi : (ts i).temp? = some a) :
    s.heap.cells a ≠ none := by
  cases hp : (ts i).point with
  | call op value p =>
      rw [Thread.temp?_of_call hp] at hi
      exact (h.fits i op value p hp).allocated hi
  | loop | exited => simp [Thread.temp?, hp] at hi

variable [DecidableEq ι]

/-- A thread goes on in its loop. -/
theorem Shape.idle (h : Shape P W V s ts) (hV : V ⊆ V') (htemp : t.temp? = none)
    (hcall : ∀ op value p, t.point = .call op value p → p = .load) :
    Shape P W V' s (Function.update ts i t) := by
  have hold : ∀ {j a}, (Function.update ts i t j).temp? = some a → (ts j).temp? = some a := by
    intro j a ha
    by_cases hj : j = i
    · subst hj
      rw [Function.update_self, htemp] at ha
      cases ha
    · rwa [Function.update_of_ne hj] at ha
  refine ⟨⟨h.linked.ascending, fun a ha y hy => hV (h.linked.values a ha y hy)⟩, ?_,
    fun j a ha => h.fresh j a (hold ha), fun j k a hj hk => h.apart j k a (hold hj) (hold hk)⟩
  intro j op value p hp
  by_cases hj : j = i
  · subst hj
    rw [Function.update_self] at hp
    rw [hcall op value p hp]
    trivial
  · rw [Function.update_of_ne hj] at hp
    exact (h.fits j op value p hp).keep (.of_eq fun _ _ => rfl) hV fun _ _ => rfl

/-- A thread makes a step of its call. -/
theorem Shape.call (h : Shape P W V s ts) (hp : (ts i).point = .call op value p)
    (heffect : Effect P W V s p s' q P') (hfits : Fits P' W V s' op value q) :
    Shape P' W V s' (Function.update ts i { ts i with point := .call op value q }) := by
  have hself := Thread.temp?_of_call hp
  have hothers : ∀ {j a}, j ≠ i → (ts j).temp? = some a →
      a ∉ P' ∧ s'.heap.cells a = s.heap.cells a := by
    intro j a hj ha
    refine heffect.others a (h.fresh j a ha) (h.allocated ha) fun heq => ?_
    rw [← hself] at heq
    exact hj (h.apart j i a ha heq)
  have hmine : ∀ {j a}, j ≠ i → q.temp? = some a → (ts j).temp? ≠ some a := by
    intro j a hj ha hja
    rcases (heffect.temp a ha).2 with hpa | hnone
    · rw [← hself] at hpa
      exact hj (h.apart j i a hja hpa)
    · exact h.allocated hja hnone
  have hq : Thread.temp? { ts i with point := .call op value q } = q.temp? := rfl
  refine ⟨heffect.linked, ?_, ?_, ?_⟩
  · intro j op' value' p' hp'
    by_cases hj : j = i
    · subst hj
      rw [Function.update_self] at hp'
      cases hp'
      exact hfits
    · rw [Function.update_of_ne hj] at hp'
      refine (h.fits j op' value' p' hp').keep heffect.keeps subset_rfl fun a ha => ?_
      rw [← Thread.temp?_of_call hp'] at ha
      exact (hothers hj ha).2
  · intro j a ha
    by_cases hj : j = i
    · subst hj
      rw [Function.update_self, hq] at ha
      exact (heffect.temp a ha).1
    · rw [Function.update_of_ne hj] at ha
      exact (hothers hj ha).1
  · intro j k a hja hka
    by_cases hj : j = i
    · subst hj
      rw [Function.update_self, hq] at hja
      by_contra hk
      rw [Function.update_of_ne (Ne.symm hk)] at hka
      exact hmine (Ne.symm hk) hja hka
    · rw [Function.update_of_ne hj] at hja
      by_cases hk : k = i
      · subst hk
        rw [Function.update_self, hq] at hka
        exact absurd hja (hmine hj hka)
      · rw [Function.update_of_ne hk] at hka
        exact h.apart j k a hja hka

variable (ts) in
theorem candidates_subset_update (limits : Operation → ℕ) (W : Set ℤ) (hrand : t.rand = (ts i).rand)
    (hdraws : (ts i).draws ≤ t.draws) :
    candidates limits W ts ⊆ candidates limits W (Function.update ts i t) := by
  rintro v (hv | ⟨j, hj⟩)
  · exact .inl hv
  · refine .inr ⟨j, ?_⟩
    by_cases hji : j = i
    · subst hji
      rw [Function.update_self, hrand]
      exact drawn_subset hdraws hj
    · rwa [Function.update_of_ne hji]

theorem recorded_update (h : ∀ i, Recorded limits (rands i) (ts i))
    (ht : Recorded limits (rands i) t) (j : ι) :
    Recorded limits (rands j) (Function.update ts i t j) := by
  apply (Function.forall_update_iff ts fun i t => Recorded limits (rands i) t).mpr
  exact ⟨ht, fun j _ => h j⟩

theorem candidates_update (limits : Operation → ℕ) (W : Set ℤ) (point : Point) :
    candidates limits W (Function.update ts i { ts i with point := point }) =
      candidates limits W ts := by
  refine Set.Subset.antisymm ?_ (candidates_subset_update ts limits W rfl le_rfl)
  have h := candidates_subset_update (Function.update ts i { ts i with point := point })
    (i := i) (t := ts i) limits W (by rw [Function.update_self]) (by rw [Function.update_self])
  rwa [Function.update_idem, Function.update_eq_self] at h

theorem Thread.draws_le_round (limits : Operation → ℕ) (t : Thread) :
    t.draws ≤ (t.round limits).draws ∧ (t.round limits).rand = t.rand := by
  simp only [Thread.round]
  split <;> exact ⟨Nat.le_succ _, rfl⟩

variable (limits) in
theorem Thread.round_point (hloop : t.point = .loop) :
    (t.round limits).point = .loop ∨ ∃ op value, (t.round limits).point = .call op value .load := by
  simp only [Thread.round]
  split
  · exact .inr ⟨_, _, rfl⟩
  · exact .inl hloop

/-- What holds while the threads insert. -/
def Inserting (limits : Operation → ℕ) (rands : ι → ℕ → ℕ) (W : Set ℤ) (s : State)
    (ts : ι → Thread) : Prop :=
  (∀ i, Recorded limits (rands i) (ts i)) ∧ ∃ P, Shape P W (candidates limits W ts) s ts

theorem Inserting.step (hlimits : limits .delete = 0) (h : Inserting limits rands W s ts)
    (hq : (threadOperation (ι := ι) malloc junk limits s (ts i)).next? = some t) :
    Inserting limits rands W ((threadOperation (ι := ι) malloc junk limits s (ts i)).after s)
      (Function.update ts i t) := by
  obtain ⟨hrecorded, P, hshape⟩ := h
  refine ⟨recorded_update hrecorded ((hrecorded i).next hq), ?_⟩
  rcases next_cases hq with ⟨op, value, p, q, hp, hcall, rfl, hafter⟩ | ⟨-, rfl, hafter⟩ |
    ⟨hloop, rfl, hafter⟩
  · have hcalled := (hrecorded i).called op value p hp
    have hvalue : op = .insert → value ∈ candidates limits W ts := by
      rintro rfl
      exact .inr ⟨i, by rwa [(hrecorded i).same]⟩
    have hdelete : op ≠ .delete := by
      rintro rfl
      exact absurd (limits_pos_of_mem hcalled) (by omega)
    have hfresh : ∀ a, p.temp? = some a → a ∉ P := by
      intro a ha
      exact hshape.fresh i a ((Thread.temp?_of_call hp).trans ha)
    obtain ⟨P', heffect, hfits⟩ :=
      hshape.linked.step (hshape.fits i op value p hp) hdelete hvalue hfresh hcall
    rw [hafter, candidates_update]
    exact ⟨P', hshape.call hp heffect hfits⟩
  · rw [hafter, candidates_update]
    exact ⟨P, hshape.idle subset_rfl rfl fun op value p hp => by cases hp⟩
  · rw [hafter]
    refine ⟨P, ?_⟩
    split
    · obtain ⟨hdraws, hrand⟩ := Thread.draws_le_round limits (ts i)
      have hV := candidates_subset_update ts (i := i) limits W hrand hdraws
      rcases Thread.round_point limits hloop with hpoint | ⟨op, value, hpoint⟩
      · refine hshape.idle hV (by rw [Thread.temp?, hpoint]) fun op' value' p' hp' => ?_
        rw [hpoint] at hp'
        cases hp'
      · refine hshape.idle hV (by rw [Thread.temp?, hpoint]; rfl) fun op' value' p' hp' => ?_
        rw [hpoint] at hp'
        cases hp'
        rfl
    · rw [candidates_update]
      exact hshape.idle subset_rfl rfl fun op value p hp => by cases hp

end Shape

/-! ## Results -/

theorem inserting_of_reachable {threads : ℕ} {totals : Operation → ℕ}
    {rands : Fin threads → ℕ → ℕ} {cells : List (ℕ × ℤ)}
    {c : Config (Fin threads) State Thread Empty Empty} (hlist : Represents s cells)
    (htotals : totals .delete < threads)
    (h : (program malloc junk totals rands s).Reachable c) :
    Inserting (fun op => totals op / threads) rands (values cells) c.shared (points c) := by
  refine points_invariant h ⟨fun i => ⟨rfl, fun _ => rfl, fun _ _ _ hp => by cases hp⟩, ?_⟩
    fun s ts i t hs ht => hs.step (Nat.div_eq_of_lt htotals) ht
  have hascending := hlist.chain.ascending hlist.sorted
  have hvalues : (values cells : Set ℤ) = {w | w ∈ cells.map Prod.snd} := by
    ext w
    simp [values]
  rw [← hvalues] at hascending
  have hnone : ∀ i, (⟨rands i, 0, fun _ => 0, .loop⟩ : Thread).temp? = none := fun _ => rfl
  refine ⟨_, ⟨hascending, fun a ha y hy => .inl ?_⟩, fun _ _ _ _ hp => Point.noConfusion hp,
    fun i a ha => absurd ((hnone i).symm.trans ha) (by simp),
    fun i _ a ha => absurd ((hnone i).symm.trans ha) (by simp)⟩
  obtain ⟨d, hd, rfl⟩ := List.mem_map.mp ha
  obtain ⟨next, hcell⟩ := hlist.chain.allocated hd
  rw [Heap.data?_of_cells hcell] at hy
  cases hy
  exact List.mem_toFinset.mpr (List.mem_map_of_mem hd)

/-- A thread has drawn the value and called `Insert` with it. -/
def Inserted {threads : ℕ} (totals : Operation → ℕ) (rands : Fin threads → ℕ → ℕ)
    (c : Config (Fin threads) State Thread Empty Empty) (v : ℤ) : Prop :=
  ∃ i, (.insert, v) ∈ drawn (fun op => totals op / threads) (rands i) (points c i).draws

/-- What a call may return for the values `W` that never leave the list. No thread looks for a value
that some thread inserts. -/
def Answers (W : Set ℤ) (value : ℤ) (r : ℕ) : Operation → Prop
  | .member => (value ∈ W → r = 1) ∧ (r ≠ 0 → value ∈ W)
  | .insert => value ∈ W → r = 0
  | .delete => False

/-- While no thread deletes, no call reads or writes through a bad pointer, the list is an ascending
list that has all its values from before the threads and no value that nobody has inserted, and
the calls return what agrees with that. -/
theorem inserts_keep_list {threads : ℕ} (malloc : Malloc (Node ℤ)) (junk : Node ℤ)
    (totals : Operation → ℕ) (rands : Fin threads → ℕ → ℕ) {cells : List (ℕ × ℤ)}
    {c : Config (Fin threads) State Thread Empty Empty} (hlist : Represents s cells)
    (htotals : totals .delete < threads)
    (h : (program malloc junk totals rands s).Reachable c) :
    (∀ i op value, (points c i).point ≠ .call op value .crashed) ∧
      (∃ cells', Represents c.shared cells' ∧ values cells ⊆ values cells' ∧
        ∀ v ∈ values cells', v ∈ values cells ∨ Inserted totals rands c v) ∧
      ∀ i op value r, (points c i).point = .call op value (.returned r) →
        Answers (values cells) value r op := by
  obtain ⟨hrecorded, P, hshape⟩ := inserting_of_reachable hlist htotals h
  have hcandidates : ∀ v ∈ candidates (fun op => totals op / threads) (values cells) (points c),
      v ∈ values cells ∨ Inserted totals rands c v := by
    rintro v (hv | ⟨i, hi⟩)
    · exact .inl hv
    · exact .inr ⟨i, by rwa [(hrecorded i).same] at hi⟩
  refine ⟨fun i op value hi => hshape.fits i op value _ hi, ?_, fun i op value r hi => ?_⟩
  · obtain ⟨cells', hchain, hP, hsorted, hW⟩ :=
      hshape.linked.ascending.chain_of_onward hshape.linked.ascending.head
    refine ⟨cells', ⟨hchain, hchain.nodup_of_sorted hsorted, hsorted⟩, fun w hw => ?_,
      fun v hv => ?_⟩
    · exact List.mem_toFinset.mpr (hW w hw (WithBot.bot_lt_coe w))
    · obtain ⟨d, hd, rfl⟩ := List.mem_map.mp (List.mem_toFinset.mp hv)
      obtain ⟨next, hcell⟩ := hchain.allocated hd
      exact hcandidates _
        (hshape.linked.values d.1 (hP d hd).1 _ (Heap.data?_of_cells hcell))
  · have hfits := hshape.fits i op value _ hi
    cases op with
    | member =>
        refine ⟨hfits.1, fun hr => (hcandidates value (hfits.2 hr)).resolve_right ?_⟩
        rintro ⟨j, hj⟩
        have hmember := eq_operation_of_mem ((hrecorded i).called .member value _ hi)
        rw [← eq_operation_of_mem hj] at hmember
        cases hmember
    | insert => exact hfits
    | delete => exact hfits.elim

/-- The first of two threads inserts 1 into the list of 5. -/
theorem inserts_keep_list_one_five : ∃ c cells,
    (program (bumpMalloc _) ⟨0, none⟩ (fun op => if op = .delete then 0 else 2)
      ![fun _ => 1, fun _ => 0] (oneNode (bumpMalloc _) 5)).Reachable c ∧
    (points c 0).point = .call .insert 1 (.returned 1) ∧ Represents c.shared cells ∧
    5 ∈ values cells := by
  have hrun : ((program (bumpMalloc _) ⟨0, none⟩ (fun op => if op = .delete then 0 else 2)
      ![fun _ => 1, fun _ => 0] (oneNode (bumpMalloc _) 5)).exec (program (bumpMalloc _) ⟨0, none⟩
        (fun op => if op = .delete then 0 else 2) ![fun _ => 1, fun _ => 0]
          (oneNode (bumpMalloc _) 5)).init (List.replicate 8 (.run 0 none))).any (fun c =>
            decide ((points c 0).point = .call .insert 1 (.returned 1))) = true := by
    decide
  obtain ⟨c, hexec, hpoint⟩ := (Option.any_eq_true _ _).mp hrun
  have hc := System.Reachable.init.exec hexec
  obtain ⟨-, ⟨cells, hcells, hsubset, -⟩, -⟩ :=
    inserts_keep_list _ _ _ _ (represents_oneNode _ _) (by decide) hc
  exact ⟨c, cells, hc, of_decide_eq_true hpoint, hcells, hsubset (by decide)⟩

end PthreadBenchmark.LinkedList.Threads
