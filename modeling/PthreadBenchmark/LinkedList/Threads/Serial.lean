import PthreadBenchmark.LinkedList.Threads.Runs
import PthreadBenchmark.Shared.PthreadUnlocked

/-! # Calls that do not overlap

While no two calls overlap, which is what `list_mutex` would be for, the list is the finite set that
all calls have left, one after the other, and each call returns what it returns on that set. -/

namespace PthreadBenchmark.LinkedList.Threads

open Pthread

variable {ι : Type*} {malloc : Malloc (Node ℤ)} {junk : Node ℤ} {limits : Operation → ℕ}
  {s s' : State} {op : Operation} {value : ℤ} {p q : CallPoint} {prev curr : Option ℕ}
  {cells pre post pre' post' : List (ℕ × ℤ)} {S : Finset ℤ}

/-! ## One call on its own -/

def toCall : Operation → ℤ → Call
  | .member, value => .member value
  | .insert, value => .insert value
  | .delete, value => .delete value

/-- The walk is between the nodes `pre` and `post`. -/
structure Walked (S : Finset ℤ) (value : ℤ) (s : State) (prev curr : Option ℕ)
    (pre post : List (ℕ × ℤ)) : Prop where
  list : Represents s (pre ++ post)
  values : values (pre ++ post) = S
  below : ∀ c ∈ pre, c.2 < value
  prev : prev = pre.getLast?.map Prod.fst
  curr : curr = post.head?.map Prod.fst

/-- Once `prev` links to `temp`, the list has the value. -/
def Linkable (S : Finset ℤ) (value : ℤ) (heap : Heap (Node ℤ)) (head prev : Option ℕ) (temp : ℕ) :
    Prop :=
  value ∉ S ∧ ∃ r cells, relink heap head prev (some temp) = some r ∧ Represents ⟨r.1, r.2⟩ cells ∧
    values cells = Insert.insert value S

/-- Once `prev` links to `next` and the node is freed, the list has lost the value. -/
def Unlinkable (S : Finset ℤ) (value : ℤ) (s : State) (prev : Option ℕ) (curr : ℕ)
    (next : Option ℕ) : Prop :=
  value ∈ S ∧ s.heap.cells curr ≠ none ∧ ∃ r cells, relink s.heap s.head prev next = some r ∧
    Represents ⟨r.1.free curr, r.2⟩ cells ∧ values cells = S.erase value

/-- Where a call is that began with the set `S` and is not disturbed. -/
def Alone (malloc : Malloc (Node ℤ)) (S : Finset ℤ) (op : Operation) (value : ℤ) (s : State) :
    CallPoint → Prop
  | .load => ∃ cells, Represents s cells ∧ values cells = S
  | .test prev curr => ∃ pre post, Walked S value s prev curr pre post
  | .advance a => ∃ pre y post, Represents s (pre ++ (a, y) :: post) ∧
      values (pre ++ (a, y) :: post) = S ∧ (∀ c ∈ pre, c.2 < value) ∧ y < value
  | .found prev curr => ∃ cells, Represents s cells ∧ values cells = S ∧
      walkFrom value s = some (prev, curr)
  | .malloc prev curr => op = .insert ∧ Linkable S value
      (s.heap.write (malloc.address s.heap) ⟨value, curr⟩) s.head prev (malloc.address s.heap)
  | .data prev curr temp => op = .insert ∧ (∃ node, s.heap.cells temp = some node) ∧
      Linkable S value (s.heap.write temp ⟨value, curr⟩) s.head prev temp
  | .next prev curr temp => op = .insert ∧ (∃ next, s.heap.cells temp = some ⟨value, next⟩) ∧
      Linkable S value (s.heap.write temp ⟨value, curr⟩) s.head prev temp
  | .link prev temp => op = .insert ∧ Linkable S value s.heap s.head prev temp
  | .loadNext prev curr => op = .delete ∧ ∃ node, s.heap.cells curr = some node ∧
      Unlinkable S value s prev curr node.next
  | .unlink prev curr next => op = .delete ∧ Unlinkable S value s prev curr next
  | .free curr => op = .delete ∧ value ∈ S ∧ s.heap.cells curr ≠ none ∧ ∃ cells,
      Represents ⟨s.heap.free curr, s.head⟩ cells ∧ values cells = S.erase value
  | .returned r => ∃ cells, Represents s cells ∧ (toCall op value).spec S = (r, values cells)
  | .crashed => False

theorem takeWhile_of_splits (h : Splits value cells pre post) :
    cells.takeWhile (fun c => c.2 < value) = pre := by
  rw [h.eq, List.takeWhile_append_of_pos (by simpa using h.below)]
  cases post with
  | nil => simp
  | cons c post =>
      have hle : value ≤ c.2 := h.above c rfl
      simp [hle.not_gt]

/-- The place of a value in a list is determined by the value. -/
theorem splits_unique (h : Splits value cells pre post) (h' : Splits value cells pre' post') :
    pre = pre' ∧ post = post' := by
  obtain rfl : pre = pre' := (takeWhile_of_splits h).symm.trans (takeWhile_of_splits h')
  exact ⟨rfl, List.append_cancel_left (h.eq.symm.trans h'.eq)⟩

theorem Walked.walkFrom (h : Walked S value s prev curr pre post)
    (habove : ∀ c ∈ post.head?, value ≤ c.2) : walkFrom value s = some (prev, curr) := by
  obtain ⟨pre', post', hsplit, hwalk⟩ := h.list.walkFrom value
  obtain ⟨rfl, rfl⟩ := splits_unique hsplit ⟨rfl, h.below, habove⟩
  rw [hwalk, h.prev, h.curr]

theorem isBeyond_found (hlist : Represents s cells)
    (hwalk : walkFrom value s = some (prev, curr)) :
    isBeyond value s.heap curr = some (decide (value ∉ values cells)) := by
  obtain ⟨pre, post, hsplit, hwalk'⟩ := hlist.walkFrom value
  rw [hwalk] at hwalk'
  cases hwalk'
  obtain ⟨r, -, hpost⟩ := chain_append.mp (hsplit.eq ▸ hlist.chain)
  exact hsplit.isBeyond_eq hlist.sorted hpost

theorem linkable_found (malloc : Malloc (Node ℤ)) (hlist : Represents s cells)
    (hwalk : walkFrom value s = some (prev, curr)) (hmem : value ∉ values cells) :
    Linkable (values cells) value (s.heap.write (malloc.address s.heap) ⟨value, curr⟩) s.head prev
      (malloc.address s.heap) := by
  obtain ⟨s', cells', hinsert, hlist', hvalues⟩ := hlist.insert_of_not_mem malloc hmem
  have hbeyond := isBeyond_found hlist hwalk
  simp only [LinkedList.insert, hwalk, hbeyond, hmem, not_false_eq_true, decide_true,
    Option.bind_some, if_true, Option.map_eq_some_iff] at hinsert
  obtain ⟨r, hrelink, hr⟩ := hinsert
  cases hr
  exact ⟨hmem, r, cells', hrelink, hlist', hvalues⟩

theorem unlinkable_found {a : ℕ} {node : Node ℤ} (hlist : Represents s cells)
    (hwalk : walkFrom value s = some (prev, some a)) (hnode : s.heap.cells a = some node)
    (hmem : value ∈ values cells) :
    node.data = value ∧ Unlinkable (values cells) value s prev a node.next := by
  obtain ⟨s', cells', hdelete, hlist', hvalues⟩ := hlist.delete_of_mem hmem
  simp only [LinkedList.delete, hwalk, hnode, Option.bind_some] at hdelete
  split at hdelete
  next hdata =>
    obtain ⟨r, hrelink, hr⟩ := Option.map_eq_some_iff.mp hdelete
    cases hr
    exact ⟨hdata, hmem, by simp [hnode], r, cells', hrelink, hlist', hvalues⟩
  · cases hdelete

theorem data_ne_found {a : ℕ} {node : Node ℤ} (hlist : Represents s cells)
    (hwalk : walkFrom value s = some (prev, some a)) (hnode : s.heap.cells a = some node)
    (hmem : value ∉ values cells) : node.data ≠ value := by
  intro hdata
  have hdelete := hlist.delete_of_not_mem hmem
  simp only [LinkedList.delete, hwalk, hnode, Option.bind_some, if_pos hdata,
    Option.map_eq_some_iff] at hdelete
  obtain ⟨r, -, hr⟩ := hdelete
  cases hr

/-- The test behind the loop. -/
theorem alone_found (hlist : Represents s cells) (hwalk : walkFrom value s = some (prev, curr))
    (hq : (call (ι := ι) malloc junk op value s (.found prev curr)).next? = some q) :
    (call (ι := ι) malloc junk op value s (.found prev curr)).after s = s ∧
      Alone malloc (values cells) op value s q := by
  have hbeyond := isBeyond_found hlist hwalk
  cases curr with
  | none =>
      cases hq
      have hmem : value ∉ values cells := by simpa [isBeyond] using hbeyond
      refine ⟨rfl, ?_⟩
      cases op with
      | member => exact ⟨cells, hlist, by simp [toCall, Call.spec, hmem]⟩
      | insert => exact ⟨rfl, linkable_found malloc hlist hwalk hmem⟩
      | delete => exact ⟨cells, hlist, by simp [toCall, Call.spec, hmem]⟩
  | some a =>
      obtain ⟨node, hnode, hiff⟩ := Option.map_eq_some_iff.mp hbeyond
      have hiff : value < node.data ↔ value ∉ values cells := decide_eq_decide.mp hiff
      have hop : call (ι := ι) malloc junk op value s (.found prev (some a)) =
          .run s (op.branch value prev a node) := read_of_cells hnode _
      rw [hop] at hq ⊢
      cases hq
      refine ⟨rfl, ?_⟩
      by_cases hmem : value ∈ values cells
      · have hlt : ¬ value < node.data := fun hlt => hiff.mp hlt hmem
        cases op with
        | member =>
            simp only [Operation.branch, gt_iff_lt, if_neg hlt]
            exact ⟨cells, hlist, by simp [toCall, Call.spec, hmem]⟩
        | insert =>
            simp only [Operation.branch, gt_iff_lt, if_neg hlt]
            exact ⟨cells, hlist, by simp [toCall, Call.spec, hmem]⟩
        | delete =>
            obtain ⟨hdata, hunlink⟩ := unlinkable_found hlist hwalk hnode hmem
            simp only [Operation.branch, if_pos hdata]
            exact ⟨rfl, node, hnode, hunlink⟩
      · have hlt := hiff.mpr hmem
        cases op with
        | member =>
            simp only [Operation.branch, gt_iff_lt, if_pos hlt]
            exact ⟨cells, hlist, by simp [toCall, Call.spec, hmem]⟩
        | insert =>
            simp only [Operation.branch, gt_iff_lt, if_pos hlt]
            exact ⟨rfl, linkable_found malloc hlist hwalk hmem⟩
        | delete =>
            simp only [Operation.branch, if_neg (data_ne_found hlist hwalk hnode hmem)]
            exact ⟨cells, hlist, by simp [toCall, Call.spec, hmem]⟩

theorem relink_cells_ne_none {heap : Heap (Node ℤ)} {head target : Option ℕ} {a : ℕ}
    {r : Heap (Node ℤ) × Option ℕ} (h : relink heap head prev target = some r)
    (ha : heap.cells a ≠ none) : r.1.cells a ≠ none := by
  cases prev with
  | none =>
      cases h
      exact ha
  | some b =>
      obtain ⟨node, -, rfl⟩ := Option.map_eq_some_iff.mp h
      by_cases hab : a = b
      · subst hab
        simp
      · rwa [Heap.write_of_ne _ hab]

/-- A step of a call that is not disturbed. -/
theorem Alone.step (h : Alone malloc S op value s p)
    (hq : (call (ι := ι) malloc junk op value s p).next? = some q) :
    Alone malloc S op value ((call (ι := ι) malloc junk op value s p).after s) q := by
  cases p with
  | load =>
      cases hq
      obtain ⟨cells, hlist, hvalues⟩ := h
      exact ⟨[], cells, hlist, hvalues, by simp, rfl, hlist.chain.head_eq⟩
  | test prev curr =>
      obtain ⟨pre, post, hwalked⟩ := h
      cases post with
      | nil =>
          obtain rfl : curr = none := hwalked.curr
          cases hq
          exact ⟨pre ++ [], hwalked.list, hwalked.values,
            hwalked.walkFrom fun c hc => by cases hc⟩
      | cons c post =>
          obtain ⟨a, y⟩ := c
          obtain rfl : curr = some a := hwalked.curr
          obtain ⟨r, -, -, next, hcell, -⟩ := chain_append.mp hwalked.list.chain
          have hop := read_of_cells (ι := ι) hcell fun node =>
            if node.data < value then .advance a else .found prev (some a)
          simp only [call, hop] at hq ⊢
          cases hq
          split
          next hlt => exact ⟨pre, y, post, hwalked.list, hwalked.values, hwalked.below, hlt⟩
          next hnlt =>
            refine ⟨_, hwalked.list, hwalked.values, hwalked.walkFrom fun c hc => ?_⟩
            cases hc
            exact not_lt.mp hnlt
  | advance a =>
      obtain ⟨pre, y, post, hlist, hvalues, hbelow, hlt⟩ := h
      obtain ⟨r, -, -, next, hcell, hpost⟩ := chain_append.mp hlist.chain
      simp only [call, read_of_cells hcell] at hq ⊢
      cases hq
      rw [List.append_cons] at hlist hvalues
      refine ⟨pre ++ [(a, y)], post, hlist, hvalues, fun c hc => ?_, ?_, hpost.head_eq⟩
      · rcases List.mem_append.mp hc with hc | hc
        · exact hbelow c hc
        · rw [List.mem_singleton.mp hc]
          exact hlt
      · simp
  | found prev curr =>
      obtain ⟨cells, hlist, rfl, hwalk⟩ := h
      obtain ⟨hafter, halone⟩ := alone_found hlist hwalk hq
      rw [hafter]
      exact halone
  | malloc prev curr =>
      cases hq
      refine ⟨h.1, ⟨junk, Heap.write_self ..⟩, ?_⟩
      simpa only [call, Op.after, write_write] using h.2
  | data prev curr temp =>
      obtain ⟨hop, ⟨node, hnode⟩, hlink⟩ := h
      simp only [call, write_of_cells hnode] at hq ⊢
      cases hq
      refine ⟨hop, ⟨node.next, Heap.write_self ..⟩, ?_⟩
      simpa only [Op.after, write_write] using hlink
  | next prev curr temp =>
      obtain ⟨hop, ⟨next, hnode⟩, hlink⟩ := h
      simp only [call, write_of_cells hnode] at hq ⊢
      cases hq
      exact ⟨hop, hlink⟩
  | link prev temp =>
      obtain ⟨rfl, hmem, r, cells, hrelink, hlist, hvalues⟩ := h
      simp only [call, store_of_relink hrelink] at hq ⊢
      cases hq
      exact ⟨cells, hlist, by simp [toCall, Call.spec, hmem, hvalues]⟩
  | loadNext prev curr =>
      obtain ⟨hop, node, hnode, hunlink⟩ := h
      simp only [call, read_of_cells hnode] at hq ⊢
      cases hq
      exact ⟨hop, hunlink⟩
  | unlink prev curr next =>
      obtain ⟨hop, hmem, hcell, r, cells, hrelink, hlist, hvalues⟩ := h
      simp only [call, store_of_relink hrelink] at hq ⊢
      cases hq
      exact ⟨hop, hmem, relink_cells_ne_none hrelink hcell, cells, hlist, hvalues⟩
  | free curr =>
      obtain ⟨rfl, hmem, hcell, cells, hlist, hvalues⟩ := h
      obtain ⟨node, hnode⟩ := Option.ne_none_iff_exists'.mp hcell
      simp only [call, hnode] at hq ⊢
      cases hq
      exact ⟨cells, hlist, by simp [toCall, Call.spec, hmem, hvalues]⟩
  | returned r | crashed => cases hq

/-! ## All threads -/

/-- The thread is in a call that has not returned. -/
def Thread.inCall (t : Thread) : Bool :=
  match t.point with
  | .call _ _ (.returned _) => false
  | .call _ _ _ => true
  | _ => false

abbrev Thread.InCall (t : Thread) : Prop := t.inCall = true

section Serial

variable {rands : ι → ℕ → ℕ} {ts : ι → Thread} {t : Thread} {i j : ι} {S₀ : Finset ℤ}
  {cs : List (ι × Operation × ℤ)}

/-- The set behind the calls. -/
def behind (S₀ : Finset ℤ) (cs : List (ι × Operation × ℤ)) : Finset ℤ :=
  (runSpec S₀ (cs.map fun c => toCall c.2.1 c.2.2)).2

/-- The calls of one thread among those of all threads. -/
def callsOf [DecidableEq ι] (i : ι) (cs : List (ι × Operation × ℤ)) : List (Operation × ℤ) :=
  (cs.filter fun c => c.1 = i).map Prod.snd

/-- The result is that of the last call of the thread. -/
def Answered (S₀ : Finset ℤ) (cs : List (ι × Operation × ℤ)) (i : ι) (op : Operation) (value : ℤ)
    (r : ℕ) : Prop :=
  ∃ pre post, cs = pre ++ (i, op, value) :: post ∧ (∀ c ∈ post, c.1 ≠ i) ∧
    r = ((toCall op value).spec (behind S₀ pre)).1

theorem runSpec_append (cs ds : List Call) (S : Finset ℤ) :
    (runSpec S (cs ++ ds)).2 = (runSpec (runSpec S cs).2 ds).2 := by
  induction cs generalizing S with
  | nil => rfl
  | cons c cs ih => exact ih (c.spec S).2

theorem behind_concat (c : ι × Operation × ℤ) :
    behind S₀ (cs ++ [c]) = ((toCall c.2.1 c.2.2).spec (behind S₀ cs)).2 := by
  rw [behind, List.map_append, runSpec_append]
  rfl

/-- No call is going on. -/
def Resting (S₀ : Finset ℤ) (s : State) (ts : ι → Thread) (cs : List (ι × Operation × ℤ)) : Prop :=
  (∀ i, ¬ (ts i).InCall) ∧ ∃ cells, Represents s cells ∧ values cells = behind S₀ cs

/-- The last call is going on. -/
def Busy (malloc : Malloc (Node ℤ)) (S₀ : Finset ℤ) (s : State) (ts : ι → Thread)
    (cs : List (ι × Operation × ℤ)) : Prop :=
  ∃ prior i op value p, cs = prior ++ [(i, op, value)] ∧ (ts i).point = .call op value p ∧
    (ts i).InCall ∧ (∀ j, j ≠ i → ¬ (ts j).InCall) ∧ Alone malloc (behind S₀ prior) op value s p

theorem Answered.concat {r : ℕ} (h : Answered S₀ cs i op value r) (hne : j ≠ i)
    (c : Operation × ℤ) : Answered S₀ (cs ++ [(j, c)]) i op value r := by
  obtain ⟨pre, post, rfl, hpost, hr⟩ := h
  refine ⟨pre, post ++ [(j, c)], by simp, fun d hd => ?_, hr⟩
  rcases List.mem_append.mp hd with hd | hd
  · exact hpost d hd
  · rw [List.mem_singleton.mp hd]
    exact hne

theorem inCall_of_next (hp : t.point = .call op value p)
    (hq : (call (ι := ι) malloc junk op value s p).next? = some q) : t.InCall := by
  rw [Thread.InCall, Thread.inCall, hp]
  cases p with
  | returned r => cases hq
  | _ => rfl

variable [DecidableEq ι]

/-- The calls have been made in the order `cs`. -/
structure Serial (malloc : Malloc (Node ℤ)) (limits : Operation → ℕ) (rands : ι → ℕ → ℕ)
    (S₀ : Finset ℤ) (s : State) (ts : ι → Thread) (cs : List (ι × Operation × ℤ)) : Prop where
  recorded : ∀ i, Recorded limits (rands i) (ts i)
  order : ∀ i, callsOf i cs = drawn limits (rands i) (ts i).draws
  state : Resting S₀ s ts cs ∨ Busy malloc S₀ s ts cs
  answers : ∀ i op value r, (ts i).point = .call op value (.returned r) →
    Answered S₀ cs i op value r

theorem callsOf_concat_self (c : Operation × ℤ) :
    callsOf i (cs ++ [(i, c)]) = callsOf i cs ++ [c] := by
  simp [callsOf]

theorem callsOf_concat_of_ne (hne : j ≠ i) (c : Operation × ℤ) :
    callsOf i (cs ++ [(j, c)]) = callsOf i cs := by
  simp [callsOf, hne]

/-- While another thread rests, so does the list. -/
theorem Serial.resting (h : Serial malloc limits rands S₀ s ts cs)
    (hothers : ∀ j, j ≠ i → ¬ (ts j).InCall) (hi : ¬ (ts i).InCall) : Resting S₀ s ts cs := by
  rcases h.state with hrest | ⟨prior, j, op, value, p, -, -, hj, -⟩
  · exact hrest
  · by_cases hji : j = i
    · exact absurd (hji ▸ hj) hi
    · exact absurd hj (hothers j hji)

theorem not_inCall_update (hothers : ∀ j, j ≠ i → ¬ (ts j).InCall) (ht : ¬ t.InCall) (j : ι) :
    ¬ (Function.update ts i t j).InCall := by
  by_cases hj : j = i
  · subst hj
    rwa [Function.update_self]
  · rw [Function.update_of_ne hj]
    exact hothers j hj

/-- A thread goes on in its loop without a call. -/
theorem Serial.idle (h : Serial malloc limits rands S₀ s ts cs)
    (hothers : ∀ j, j ≠ i → ¬ (ts j).InCall) (hi : ¬ (ts i).InCall)
    (hrecorded : Recorded limits (rands i) t)
    (hdrawn : drawn limits (rands i) t.draws = drawn limits (rands i) (ts i).draws)
    (hpoint : t.point = .loop ∨ t.point = .exited) :
    Serial malloc limits rands S₀ s (Function.update ts i t) cs := by
  have ht : ¬ t.InCall := by
    rcases hpoint with hpoint | hpoint <;> simp [Thread.inCall, hpoint]
  refine ⟨recorded_update h.recorded hrecorded, fun j => ?_,
    .inl ⟨not_inCall_update hothers ht, (h.resting hothers hi).2⟩, fun j op value r hp => ?_⟩
  · by_cases hj : j = i
    · subst hj
      rw [Function.update_self, hdrawn]
      exact h.order j
    · rw [Function.update_of_ne hj]
      exact h.order j
  · by_cases hj : j = i
    · subst hj
      rw [Function.update_self] at hp
      rcases hpoint with hpoint | hpoint <;> simp [hpoint] at hp
    · rw [Function.update_of_ne hj] at hp
      exact h.answers j op value r hp

/-- A thread begins with a call. -/
theorem Serial.start (h : Serial malloc limits rands S₀ s ts cs)
    (hothers : ∀ j, j ≠ i → ¬ (ts j).InCall) (hi : ¬ (ts i).InCall)
    (hrecorded : Recorded limits (rands i) t)
    (hdrawn : drawn limits (rands i) t.draws =
      drawn limits (rands i) (ts i).draws ++ [(op, value)])
    (hpoint : t.point = .call op value .load) :
    Serial malloc limits rands S₀ s (Function.update ts i t) (cs ++ [(i, op, value)]) := by
  obtain ⟨cells, hlist, hvalues⟩ := (h.resting hothers hi).2
  refine ⟨recorded_update h.recorded hrecorded, fun j => ?_,
    .inr ⟨cs, i, op, value, .load, rfl, ?_, ?_, fun j hj => ?_, cells, hlist, hvalues⟩,
    fun j op' value' r hp => ?_⟩
  · by_cases hj : j = i
    · subst hj
      rw [Function.update_self, hdrawn, callsOf_concat_self, h.order j]
    · rw [Function.update_of_ne hj, callsOf_concat_of_ne (Ne.symm hj), h.order j]
  · rw [Function.update_self, hpoint]
  · rw [Function.update_self, Thread.InCall, Thread.inCall, hpoint]
  · rw [Function.update_of_ne hj]
    exact hothers j hj
  · by_cases hj : j = i
    · subst hj
      rw [Function.update_self, hpoint] at hp
      cases hp
    · rw [Function.update_of_ne hj] at hp
      exact (h.answers j op' value' r hp).concat (Ne.symm hj) (op, value)

/-- A thread makes a step of its call. -/
theorem Serial.call (h : Serial malloc limits rands S₀ s ts cs)
    (hothers : ∀ j, j ≠ i → ¬ (ts j).InCall) (hp : (ts i).point = .call op value p)
    (hrecorded : Recorded limits (rands i) { ts i with point := .call op value q })
    (hq : (call (ι := ι) malloc junk op value s p).next? = some q) :
    Serial malloc limits rands S₀ ((call (ι := ι) malloc junk op value s p).after s)
      (Function.update ts i { ts i with point := .call op value q }) cs := by
  have hi := inCall_of_next hp hq
  rcases h.state with ⟨hrest, -⟩ | ⟨prior, j, op', value', p', rfl, hp', hj, -, halone⟩
  · exact absurd hi (hrest i)
  obtain rfl : j = i := by
    by_contra hne
    exact hothers j hne hj
  rw [hp] at hp'
  cases hp'
  have hnext := halone.step hq
  refine ⟨recorded_update h.recorded hrecorded, fun k => ?_, ?_, fun k op' value' r hk => ?_⟩
  · by_cases hk : k = j
    · subst hk
      rw [Function.update_self]
      exact h.order k
    · rw [Function.update_of_ne hk]
      exact h.order k
  · by_cases hret : ∃ r, q = .returned r
    · obtain ⟨r, rfl⟩ := hret
      obtain ⟨cells, hlist, hspec⟩ := hnext
      refine .inl ⟨not_inCall_update hothers (by simp [Thread.inCall]), cells, hlist, ?_⟩
      rw [behind_concat, hspec]
    · refine .inr ⟨prior, j, op, value, q, rfl, ?_, ?_, fun k hk => ?_, hnext⟩
      · rw [Function.update_self]
      · rw [Function.update_self, Thread.InCall, Thread.inCall]
        cases q with
        | returned r => exact absurd ⟨r, rfl⟩ hret
        | _ => rfl
      · rw [Function.update_of_ne hk]
        exact hothers k hk
  · by_cases hkj : k = j
    · subst hkj
      rw [Function.update_self] at hk
      cases hk
      obtain ⟨cells, -, hspec⟩ := hnext
      exact ⟨prior, [], rfl, by simp, by rw [hspec]⟩
    · rw [Function.update_of_ne hkj] at hk
      exact h.answers k op' value' r hk

theorem Serial.step (h : Serial malloc limits rands S₀ s ts cs)
    (hothers : ∀ j, j ≠ i → ¬ (ts j).InCall)
    (hq : (threadOperation (ι := ι) malloc junk limits s (ts i)).next? = some t) :
    ∃ cs', Serial malloc limits rands S₀
      ((threadOperation (ι := ι) malloc junk limits s (ts i)).after s) (Function.update ts i t)
        cs' := by
  have hrecorded := (h.recorded i).next hq
  rcases next_cases hq with ⟨op, value, p, q, hp, hcall, rfl, hafter⟩ |
    ⟨⟨op, value, r, hp⟩, rfl, hafter⟩ | ⟨hloop, rfl, hafter⟩
  · rw [hafter]
    exact ⟨cs, h.call hothers hp hrecorded hcall⟩
  · have hi : ¬ (ts i).InCall := by simp [Thread.inCall, hp]
    rw [hafter]
    exact ⟨cs, h.idle hothers hi hrecorded rfl (.inl rfl)⟩
  · have hi : ¬ (ts i).InCall := by simp [Thread.inCall, hloop]
    rw [hafter]
    split at hrecorded
    next hbusy =>
      rw [if_pos hbusy]
      have hsucc := drawn_succ limits (rands i) (ts i).draws
      have hcounts := (h.recorded i).counts (operation (draw (rands i) (ts i).draws))
      rw [← hcounts] at hsucc
      have hsame := (h.recorded i).same
      by_cases hless : (ts i).counts (operation (draw (rands i) (ts i).draws)) <
          limits (operation (draw (rands i) (ts i).draws))
      · rw [if_pos hless] at hsucc
        refine ⟨cs ++ [(i, operation (draw (rands i) (ts i).draws), draw (rands i) (ts i).draws)],
          h.start hothers hi hrecorded ?_ ?_⟩
        · simp only [Thread.round, hsame, hless, if_true, hsucc]
        · simp only [Thread.round, hsame, hless, if_true]
      · rw [if_neg hless] at hsucc
        refine ⟨cs, h.idle hothers hi hrecorded ?_ (.inl ?_)⟩
        · simp only [Thread.round, hsame, hless, if_false, hsucc]
        · simp only [Thread.round, hsame, hless, if_false, hloop]
    next hidle =>
      rw [if_neg hidle]
      exact ⟨cs, h.idle hothers hi hrecorded rfl (.inr rfl)⟩

end Serial

/-! ## Results -/

/-- A thread moves only while no other thread is in a call. -/
def Alternates {threads : ℕ} (c : Config (Fin threads) State Thread Empty Empty) :
    Action (Fin threads) → Prop
  | .run i _ => ∀ j, j ≠ i → ¬ (points c j).InCall
  | .spurious _ => True

instance {threads : ℕ} (c : Config (Fin threads) State Thread Empty Empty)
    (a : Action (Fin threads)) : Decidable (Alternates c a) :=
  match a with
  | .run i _ => inferInstanceAs (Decidable (∀ j, j ≠ i → ¬ (points c j).InCall))
  | .spurious _ => isTrue trivial

/-- In a run in which no two calls overlap, also with calls of `Delete`, there is an order of the
calls of all threads, with those of each thread in the order in which it has drawn them, such that
each result is that on the finite set which the calls before have left, and between the calls the
list is ascending and has the set which all of them have left. -/
theorem serial_calls {threads : ℕ} (malloc : Malloc (Node ℤ)) (junk : Node ℤ)
    (totals : Operation → ℕ) (rands : Fin threads → ℕ → ℕ)
    {c : Config (Fin threads) State Thread Empty Empty} (hlist : Represents s cells)
    (h : (program malloc junk totals rands s).ReachableBy Alternates c) :
    ∃ cs : List (Fin threads × Operation × ℤ),
      (∀ i, callsOf i cs =
        drawn (fun op => totals op / threads) (rands i) (points c i).draws) ∧
      (∀ i op value, (points c i).point ≠ .call op value .crashed) ∧
      (∀ i op value r, (points c i).point = .call op value (.returned r) →
        Answered (values cells) cs i op value r) ∧
      ((∀ i, ¬ (points c i).InCall) →
        ∃ cells', Represents c.shared cells' ∧ values cells' = behind (values cells) cs) := by
  have hserial : ∃ cs, Serial malloc (fun op => totals op / threads) rands (values cells) c.shared
      (points c) cs := by
    refine h.invariant (P := fun c => ∃ cs, Serial malloc (fun op => totals op / threads) rands
      (values cells) c.shared (points c) cs)
      ⟨[], ?_, fun _ => rfl, .inl ⟨?_, cells, hlist, rfl⟩, ?_⟩ ?_
    · exact fun i => ⟨rfl, fun _ => rfl, fun _ _ _ hp => Point.noConfusion hp⟩
    · intro i hin
      cases hin
    · intro i op value r hp
      cases hp
    · rintro c (⟨i, w⟩ | i) c' - ⟨cs, hcs⟩ hothers hs
      · obtain ⟨t, ht, hshared, hpoints⟩ := exists_next_of_step hs
        rw [hshared, hpoints]
        exact hcs.step hothers ht
      · cases hi : c.threads i with
        | asleep cond m q => exact isEmptyElim m
        | _ => simp [program, Pthread.program, Pthread.step, hi] at hs
  obtain ⟨cs, hcs⟩ := hserial
  refine ⟨cs, hcs.order, fun i op value hp => ?_, hcs.answers, fun hrest => ?_⟩
  · have hin : (points c i).InCall := by rw [Thread.InCall, Thread.inCall, hp]
    rcases hcs.state with ⟨hrest, -⟩ | ⟨prior, j, op', value', p', -, hp', -, hj, halone⟩
    · exact hrest i hin
    · obtain rfl : i = j := by
        by_contra hne
        exact hj i hne hin
      rw [hp] at hp'
      cases hp'
      exact halone
  · rcases hcs.state with ⟨-, hcells⟩ | ⟨prior, j, op, value, p, -, -, hin, -⟩
    · exact hcells
    · exact absurd hin (hrest j)

/-- One thread deletes 2, which is all of the list, and then another one looks for 3. -/
theorem serial_calls_two_three : ∃ c, ∃ cs : List (Fin 2 × Operation × ℤ),
    (program (bumpMalloc _) ⟨0, none⟩ (fun _ => 2) ![fun _ => 2, fun _ => 3]
      (oneNode (bumpMalloc _) 2)).ReachableBy Alternates c ∧
    (points c 1).point = .call .member 3 (.returned 0) ∧ callsOf 0 cs = [(.delete, 2)] ∧
    Answered {2} cs 1 .member 3 0 := by
  have hrun : (((program (bumpMalloc _) ⟨0, none⟩ (fun _ => 2) ![fun _ => 2, fun _ => 3]
      (oneNode (bumpMalloc _) 2)).guarded Alternates).exec
        (program (bumpMalloc _) ⟨0, none⟩ (fun _ => 2) ![fun _ => 2, fun _ => 3]
          (oneNode (bumpMalloc _) 2)).init
        (List.replicate 7 (.run 0 none) ++ List.replicate 4 (.run 1 none))).any (fun c =>
          decide ((points c 1).point = .call .member 3 (.returned 0) ∧
            (points c 0).draws = 1)) = true := by
    decide
  obtain ⟨c, hexec, hpoint⟩ := (Option.any_eq_true _ _).mp hrun
  obtain ⟨hpoint, hdraws⟩ := of_decide_eq_true hpoint
  have hc := System.ReachableBy.of_exec hexec
  obtain ⟨cs, horder, -, hanswers, -⟩ := serial_calls _ _ _ _ (represents_oneNode _ 2) hc
  refine ⟨c, cs, hc, hpoint, ?_, hanswers 1 _ _ _ hpoint⟩
  rw [horder, hdraws]
  rfl

end PthreadBenchmark.LinkedList.Threads
