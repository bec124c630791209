import PthreadBenchmark.NodeStack.Model
import PthreadBenchmark.Shared.PthreadConditions

/-! # The nodes are never lost and never used after they are freed

At each time a node is in the list, or in the hands of one thread. -/

namespace PthreadBenchmark.NodeStack

open Pthread

variable {consumers producers : ℕ} {malloc : Malloc (Node ℕ)} {s s' : Shared consumers producers}
  {ps : Tid consumers producers → Point consumers producers} {i j : Tid consumers producers}
  {p q : Point consumers producers} {l l' : List (ℕ × ℕ)}
  {c : Config (Tid consumers producers) (Shared consumers producers) (Point consumers producers)
    Mutex Cond}

/-! ## What the points say -/

def insideConsume : ConsumePoint → Mutex → Prop
  | .lock, _ | .free _, _ | .crashed, _ => False
  | _, _ => True

def insideProduce : ProducePoint → Mutex → Prop
  | .lock _, _ | .crashed, _ => False
  | _, _ => True

def inside : Point consumers producers → Mutex → Prop
  | .consume _ point => insideConsume point
  | .produce _ point => insideProduce point

/-- The point behind the wait. -/
def Resting : Point consumers producers → Prop
  | .consume _ point => point = .test
  | .produce _ _ => False

def tid : Point consumers producers → Tid consumers producers
  | .consume id _ => .inl id
  | .produce id _ => .inr id

/-- The node in the hands of the thread. -/
def own : Point consumers producers → Option ℕ
  | .consume _ (.print p) | .consume _ (.unlock p) | .consume _ (.free p) => p
  | .produce _ (.num p _) | .produce _ (.next p _) | .produce _ (.head p _) => some p
  | _ => none

/-- The list has changed and the line has not been printed yet. -/
def Midway : Point consumers producers → Prop
  | .consume _ (.print _) | .produce _ (.print _ _) => True
  | _ => False

/-- How many numbers the producer has printed. -/
def done : Point consumers producers → ℕ
  | .produce _ (.signal i) | .produce _ (.unlock i) => i + 1
  | .produce _ (.lock i) | .produce _ (.malloc i) | .produce _ (.num _ i)
  | .produce _ (.next _ i) | .produce _ (.head _ i) | .produce _ (.print _ i) => i
  | _ => 0

/-- What a thread knows, where `l` is the list. -/
def Fits (s : Shared consumers producers) (l : List (ℕ × ℕ)) : Point consumers producers → Prop
  | .consume _ .printWait | .consume _ .wait => s.head = none
  | .consume _ .load => s.head ≠ none
  | .consume _ (.advance p) => p = s.head ∧ s.head ≠ none
  | .consume _ (.print p) =>
    ∃ a x next, p = some a ∧ s.heap.cells a = some ⟨x, next⟩ ∧
      replay s.printed = some (x :: l.map Prod.snd)
  | .consume _ (.unlock p) | .consume _ (.free p) => p ≠ none
  | .produce _ (.next p i) => ∃ next, s.heap.cells p = some ⟨i, next⟩
  | .produce _ (.head p i) => s.heap.cells p = some ⟨i, s.head⟩
  | .produce _ (.print p i) => ∃ rest, l = (p, i) :: rest ∧
    replay s.printed = some (rest.map Prod.snd)
  | .consume _ .crashed | .produce _ .crashed => False
  | _ => True

/-- The state of the program, where `l` is the list. -/
structure Sound (s : Shared consumers producers)
    (ps : Tid consumers producers → Point consumers producers) (l : List (ℕ × ℕ)) : Prop where
  tid : ∀ i, tid (ps i) = i
  divided : Divided s.heap s.head l fun i => own (ps i)
  fits : ∀ i, Fits s l (ps i)
  stack : (∀ i, ¬ Midway (ps i)) → replay s.printed = some (l.map Prod.snd)
  numbers : ∀ id, numbers id s.printed = List.range (done (ps (.inr id)))

theorem Midway.inside (h : Midway p) : inside p .mutex := by
  cases p with
  | consume id point => cases point <;> first | exact h.elim | trivial
  | produce id point => cases point <;> first | exact h.elim | trivial

theorem Midway.not_resting (h : Midway p) : ¬ Resting p := by
  cases p with
  | consume id point =>
      cases point <;> first | exact h.elim | exact fun hrest => by cases hrest
  | produce id point => exact fun hrest => hrest

/-- Outside of the mutex a thread knows nothing of the list. -/
theorem Fits.of_outside (h : Fits s l p) (hout : inside p .mutex → Resting p) : Fits s' l' p := by
  cases p with
  | consume id point =>
      cases point with
      | lock | test => trivial
      | free p => exact h
      | crashed => exact h
      | _ => cases hout trivial
  | produce id point =>
      cases point with
      | lock i => trivial
      | crashed => exact h
      | _ => exact (hout trivial).elim

/-- What a thread knows stays true where its own node does not change. -/
theorem Fits.frame (h : Fits s l p) (hhead : s'.head = s.head) (hprinted : s'.printed = s.printed)
    (hcells : ∀ a, own p = some a → s'.heap.cells a = s.heap.cells a) : Fits s' l p := by
  cases p with
  | consume id point =>
      cases point with
      | printWait | wait => exact hhead.trans h
      | load => exact fun hnone => h (hhead.symm.trans hnone)
      | advance p =>
          obtain ⟨hp, hne⟩ := h
          exact ⟨hp.trans hhead.symm, fun hnone => hne (hhead.symm.trans hnone)⟩
      | print p =>
          obtain ⟨a, x, next, rfl, hcell, hreplay⟩ := h
          exact ⟨a, x, next, rfl, (hcells a rfl).trans hcell, by rwa [hprinted]⟩
      | unlock p | free p => exact h
      | lock | test => trivial
      | crashed => exact h
  | produce id point =>
      cases point with
      | next p i =>
          obtain ⟨next, hcell⟩ := h
          exact ⟨next, (hcells p rfl).trans hcell⟩
      | head p i =>
          have hcell : s.heap.cells p = some ⟨i, s.head⟩ := h
          rw [← hhead] at hcell
          exact (hcells p rfl).trans hcell
      | print p i =>
          obtain ⟨rest, hl, hreplay⟩ := h
          exact ⟨rest, hl, by rwa [hprinted]⟩
      | crashed => exact h
      | _ => trivial

/-! ## Steps -/

theorem own_update (ps : Tid consumers producers → Point consumers producers)
    (i : Tid consumers producers) (q : Point consumers producers) :
    (fun j => own (Function.update ps i q j)) =
      Function.update (fun j => own (ps j)) i (own q) :=
  Function.comp_update own ps i q

theorem Sound.tid_update (h : Sound s ps l) (hq : NodeStack.tid q = i)
    (j : Tid consumers producers) : NodeStack.tid (Function.update ps i q j) = j := by
  apply (Function.forall_update_iff ps fun j p => NodeStack.tid p = j).mpr
  exact ⟨hq, fun j _ => h.tid j⟩

theorem Sound.numbers_update (h : Sound s ps l) (hdone : done q = done (ps i))
    (id : Fin producers) :
    NodeStack.numbers id s.printed = List.range (done (Function.update ps i q (.inr id))) := by
  by_cases hi : Sum.inr id = i
  · subst hi
    rw [Function.update_self, hdone]
    exact h.numbers id
  · rw [Function.update_of_ne hi]
    exact h.numbers id

/-- A step that neither reads nor writes a node. -/
theorem Sound.move (h : Sound s ps l) (hq : NodeStack.tid q = i) (hown : own q = own (ps i))
    (hmidway : ¬ Midway (ps i)) (hdone : done q = done (ps i)) (hfits : Fits s l q) :
    Sound s (Function.update ps i q) l where
  tid := h.tid_update hq
  divided := by
    rw [own_update, hown, Function.update_eq_self]
    exact h.divided
  fits := by
    apply (Function.forall_update_iff ps fun _ p => Fits s l p).mpr
    exact ⟨hfits, fun j _ => h.fits j⟩
  stack hnone := by
    refine h.stack fun j => ?_
    by_cases hj : j = i
    · rwa [hj]
    · have hother := hnone j
      rwa [Function.update_of_ne hj] at hother
  numbers := h.numbers_update hdone

/-- A step inside of the mutex. -/
theorem Sound.inside_step (h : Sound s ps l) (halone : Alone inside Resting ps i)
    (hin : inside (ps i) .mutex) (hq : NodeStack.tid q = i)
    (hdivided : Divided s'.heap s'.head l' (Function.update (fun j => own (ps j)) i (own q)))
    (hfits : Fits s' l' q)
    (hstack : ¬ Midway q → replay s'.printed = some (l'.map Prod.snd))
    (hnumbers : ∀ id, NodeStack.numbers id s'.printed =
      List.range (done (Function.update ps i q (.inr id)))) :
    Sound s' (Function.update ps i q) l' where
  tid := h.tid_update hq
  divided := by rwa [own_update]
  fits := by
    apply (Function.forall_update_iff ps fun _ p => Fits s' l' p).mpr
    exact ⟨hfits, fun j hj => (h.fits j).of_outside fun hinj => halone j .mutex hj hin hinj⟩
  stack hnone := by
    have hself := hnone i
    rw [Function.update_self] at hself
    exact hstack hself
  numbers := hnumbers

/-- Inside of the mutex the lines are those of the list, if nothing is still to be printed. -/
theorem Sound.replay_eq (h : Sound s ps l) (halone : Alone inside Resting ps i)
    (hin : inside (ps i) .mutex) (hmidway : ¬ Midway (ps i)) :
    replay s.printed = some (l.map Prod.snd) := by
  refine h.stack fun j hj => ?_
  by_cases hji : j = i
  · rw [hji] at hj
    exact hmidway hj
  · exact hj.not_resting (halone j .mutex hji hin hj.inside)

theorem replay_append (printed : List (Event consumers producers)) (e : Event consumers producers) :
    replay (printed ++ [e]) = (replay printed).bind (apply · e) := by
  simp [replay, List.foldlM_append]

theorem apply_consumed (id : Fin consumers) (num : ℕ) (stack : List ℕ) :
    apply (num :: stack) (.consumed id num : Event consumers producers) = some stack :=
  if_pos rfl

theorem numbers_append (id : Fin producers) (printed : List (Event consumers producers))
    (e : Event consumers producers) :
    numbers id (printed ++ [e]) = numbers id printed ++ (number? id e).toList := by
  rw [numbers, List.filterMap_append]
  cases hnumber : number? id e <;> simp [numbers, hnumber]

theorem Sound.numbers_append (h : Sound s ps l) {e : Event consumers producers}
    (hnone : ∀ id, number? id e = none) (hdone : done q = done (ps i)) (id : Fin producers) :
    NodeStack.numbers id (s.printed ++ [e]) =
      List.range (done (Function.update ps i q (.inr id))) := by
  rw [NodeStack.numbers_append, hnone, Option.toList_none, List.append_nil]
  exact h.numbers_update hdone id

theorem Sound.list_eq_nil (h : Sound s ps l) (hhead : s.head = none) : l = [] := by
  have hchain := h.divided.chain
  rw [hhead] at hchain
  cases l with
  | nil => rfl
  | cons cell l => cases hchain.1

theorem Sound.printWait {id : Fin consumers} (h : Sound s ps l)
    (halone : Alone inside Resting ps (.inl id)) (hp : ps (.inl id) = .consume id .printWait) :
    Sound { s with printed := s.printed ++ [.consumeWait id] }
      (Function.update ps (.inl id) (.consume id .wait)) l := by
  have hin : inside (ps (.inl id)) .mutex := by
    rw [hp]
    trivial
  have hhead : s.head = none := by
    have hfits := h.fits (.inl id)
    rwa [hp] at hfits
  have hl : l = [] := h.list_eq_nil hhead
  have hreplay := h.replay_eq halone hin (by rw [hp]; exact fun hmid => hmid)
  refine h.inside_step halone hin rfl ?_ hhead (fun _ => ?_)
    (h.numbers_append (fun _ => rfl) (by rw [hp]; rfl))
  · have hown : own (.consume id .wait : Point consumers producers) = own (ps (.inl id)) := by
      rw [hp]
      rfl
    rw [hown, Function.update_eq_self]
    exact h.divided
  · rw [replay_append, hreplay, hl]
    rfl

/-- The first node of a list that is not empty. -/
theorem Sound.exists_first (h : Sound s ps l) (hne : s.head ≠ none) :
    ∃ a x rest, l = (a, x) :: rest ∧ s.head = some a := by
  cases l with
  | nil => exact absurd h.divided.chain hne
  | cons cell rest => exact ⟨cell.1, cell.2, rest, rfl, h.divided.chain.1⟩

theorem Sound.advance {id : Fin consumers} {p : Option ℕ} (h : Sound s ps l)
    (halone : Alone inside Resting ps (.inl id)) (hp : ps (.inl id) = .consume id (.advance p)) :
    ∃ node l', node? s s.head = some node ∧
      Sound { s with head := node.next }
        (Function.update ps (.inl id) (.consume id (.print p))) l' := by
  have hin : inside (ps (.inl id)) .mutex := by
    rw [hp]
    trivial
  have hfits := h.fits (.inl id)
  rw [hp] at hfits
  obtain ⟨rfl, hne⟩ := hfits
  obtain ⟨a, x, rest, rfl, hhead⟩ := h.exists_first hne
  have hreplay := h.replay_eq halone hin (by rw [hp]; exact fun hmid => hmid)
  obtain ⟨next, hcell, hdivided⟩ := h.divided.unlink (i := .inl id) (by rw [hp]; rfl)
  refine ⟨⟨x, next⟩, rest, by rw [hhead]; exact hcell, ?_⟩
  refine h.inside_step halone hin rfl ?_ ⟨a, x, next, hhead, hcell, hreplay⟩
    (fun hmid => absurd trivial hmid) (h.numbers_update (by rw [hp]; rfl))
  have hown : own (.consume id (.print s.head) : Point consumers producers) = some a := hhead
  rwa [hown]

theorem Sound.printConsumed {id : Fin consumers} {p : Option ℕ} (h : Sound s ps l)
    (halone : Alone inside Resting ps (.inl id)) (hp : ps (.inl id) = .consume id (.print p)) :
    ∃ node, node? s p = some node ∧
      Sound { s with printed := s.printed ++ [.consumed id node.data] }
        (Function.update ps (.inl id) (.consume id (.unlock p))) l := by
  have hin : inside (ps (.inl id)) .mutex := by
    rw [hp]
    trivial
  have hfits := h.fits (.inl id)
  rw [hp] at hfits
  obtain ⟨a, x, next, rfl, hcell, hreplay⟩ := hfits
  refine ⟨⟨x, next⟩, hcell, ?_⟩
  refine h.inside_step halone hin rfl ?_ (Option.some_ne_none a) (fun _ => ?_)
    (h.numbers_append (fun _ => rfl) (by rw [hp]; rfl))
  · have hown : own (.consume id (.unlock (some a)) : Point consumers producers) =
        own (ps (.inl id)) := by
      rw [hp]
      rfl
    rw [hown, Function.update_eq_self]
    exact h.divided
  · rw [replay_append, hreplay, Option.bind_some, apply_consumed]

/-- The free is outside of the mutex, so other threads may be inside. -/
theorem Sound.free {id : Fin consumers} {a : ℕ} (h : Sound s ps l)
    (hp : ps (.inl id) = .consume id (.free (some a))) :
    (∃ node, s.heap.cells a = some node) ∧
      Sound { s with heap := s.heap.free a }
        (Function.update ps (.inl id) (.consume id .lock)) l := by
  have hown : own (ps (.inl id)) = some a := by
    rw [hp]
    rfl
  refine ⟨h.divided.exists_cell (i := .inl id) hown, h.tid_update rfl, ?_, ?_, fun hnone => ?_,
    h.numbers_update (by rw [hp]; rfl)⟩
  · rw [own_update]
    exact h.divided.free (i := .inl id) hown
  · apply (Function.forall_update_iff ps fun _ p => Fits _ l p).mpr
    refine ⟨trivial, fun j hj => (h.fits j).frame rfl rfl fun b hb => ?_⟩
    exact s.heap.free_of_ne (h.divided.ne_of_own (i := .inl id) hown hb (Ne.symm hj))
  · refine h.stack fun j => ?_
    by_cases hj : j = .inl id
    · rw [hj, hp]
      exact fun hmid => hmid
    · have hother := hnone j
      rwa [Function.update_of_ne hj] at hother

theorem Sound.allocate {id : Fin producers} {i : ℕ} (h : Sound s ps l)
    (halone : Alone inside Resting ps (.inr id)) (hp : ps (.inr id) = .produce id (.malloc i)) :
    Sound { s with heap := s.heap.write (malloc.address s.heap) ⟨0, none⟩ }
      (Function.update ps (.inr id) (.produce id (.num (malloc.address s.heap) i))) l := by
  have hin : inside (ps (.inr id)) .mutex := by
    rw [hp]
    trivial
  refine h.inside_step halone hin rfl ?_ trivial
    (fun _ => h.replay_eq halone hin (by rw [hp]; exact fun hmid => hmid))
    (h.numbers_update (by rw [hp]; rfl))
  exact h.divided.malloc (i := .inr id) (by rw [hp]; rfl) (malloc.unused s.heap) _

/-- A thread writes to its own node. -/
theorem Sound.store {id : Fin producers} (point : ProducePoint) (a : ℕ) (v : Node ℕ)
    (h : Sound s ps l) (halone : Alone inside Resting ps (.inr id))
    (hin : inside (ps (.inr id)) .mutex) (hmidway : ¬ Midway (ps (.inr id)))
    (hown : own (ps (.inr id)) = some a)
    (hq : own (.produce id point : Point consumers producers) = some a)
    (hdone : done (.produce id point : Point consumers producers) = done (ps (.inr id)))
    (hfits : Fits { s with heap := s.heap.write a v } l (.produce id point)) :
    Sound { s with heap := s.heap.write a v }
      (Function.update ps (.inr id) (.produce id point)) l := by
  refine h.inside_step halone hin rfl ?_ hfits (fun _ => h.replay_eq halone hin hmidway)
    (h.numbers_update hdone)
  rw [hq, ← hown, Function.update_eq_self]
  exact h.divided.write (i := .inr id) hown v

theorem Sound.head {id : Fin producers} {i a : ℕ} (h : Sound s ps l)
    (halone : Alone inside Resting ps (.inr id)) (hp : ps (.inr id) = .produce id (.head a i)) :
    Sound { s with head := some a } (Function.update ps (.inr id) (.produce id (.print a i)))
      ((a, i) :: l) := by
  have hin : inside (ps (.inr id)) .mutex := by
    rw [hp]
    trivial
  have hcell : s.heap.cells a = some ⟨i, s.head⟩ := by
    have hfits := h.fits (.inr id)
    rwa [hp] at hfits
  have hreplay := h.replay_eq halone hin (by rw [hp]; exact fun hmid => hmid)
  refine h.inside_step halone hin rfl ?_ ⟨l, rfl, hreplay⟩ (fun hmid => absurd trivial hmid)
    (h.numbers_update (by rw [hp]; rfl))
  exact h.divided.link (i := .inr id) (by rw [hp]; rfl) hcell

theorem Sound.printProduced {id : Fin producers} {i a : ℕ} (h : Sound s ps l)
    (halone : Alone inside Resting ps (.inr id)) (hp : ps (.inr id) = .produce id (.print a i)) :
    ∃ next, s.heap.cells a = some ⟨i, next⟩ ∧
      Sound { s with printed := s.printed ++ [.produced id i] }
        (Function.update ps (.inr id) (.produce id (.signal i))) l := by
  have hin : inside (ps (.inr id)) .mutex := by
    rw [hp]
    trivial
  have hfits := h.fits (.inr id)
  rw [hp] at hfits
  obtain ⟨rest, rfl, hreplay⟩ := hfits
  obtain ⟨-, next, hcell, -⟩ := h.divided.chain
  refine ⟨next, hcell, h.inside_step halone hin rfl ?_ trivial (fun _ => ?_) fun id' => ?_⟩
  · have hown : own (.produce id (.signal i) : Point consumers producers) =
        own (ps (.inr id)) := by
      rw [hp]
      rfl
    rw [hown, Function.update_eq_self]
    exact h.divided
  · rw [replay_append, hreplay]
    rfl
  · rw [NodeStack.numbers_append]
    by_cases hid : id' = id
    · subst hid
      have hnumbers := h.numbers id'
      rw [hp] at hnumbers
      rw [hnumbers, Function.update_self]
      simp [number?, done, List.range_succ]
    · have hne : (Sum.inr id' : Tid consumers producers) ≠ .inr id :=
        fun heq => hid (Sum.inr.inj heq)
      rw [h.numbers id', Function.update_of_ne hne]
      simp [number?, Ne.symm hid]

/-! ## All steps -/

/-- The node that the thread is about to use is there. -/
def Valid (s : Shared consumers producers) : Point consumers producers → Prop
  | .consume _ (.advance _) => ∃ node, node? s s.head = some node
  | .consume _ (.print p) => ∃ node, node? s p = some node
  | .consume _ (.free (some p)) => ∃ node, s.heap.cells p = some node
  | .produce _ (.num p _) | .produce _ (.next p _) | .produce _ (.print p _) =>
    ∃ node, s.heap.cells p = some node
  | _ => True

theorem Sound.valid (h : Sound s ps l) (i : Tid consumers producers) : Valid s (ps i) := by
  have hfits := h.fits i
  have hcell : ∀ a, own (ps i) = some a → ∃ node, s.heap.cells a = some node :=
    fun a hown => h.divided.exists_cell hown
  cases hp : ps i with
  | consume id point =>
      rw [hp] at hfits hcell
      cases point with
      | advance p =>
          obtain ⟨-, hne⟩ := hfits
          obtain ⟨a, x, rest, rfl, hhead⟩ := h.exists_first hne
          obtain ⟨-, next, hnode, -⟩ := h.divided.chain
          exact ⟨⟨x, next⟩, by rw [hhead]; exact hnode⟩
      | print p =>
          obtain ⟨a, x, next, rfl, hnode, -⟩ := hfits
          exact ⟨_, hnode⟩
      | free p =>
          cases p with
          | none => trivial
          | some a => exact hcell a rfl
      | _ => trivial
  | produce id point =>
      rw [hp] at hfits hcell
      cases point with
      | num p i => exact hcell p rfl
      | next p i => exact hcell p rfl
      | print p i =>
          obtain ⟨rest, rfl, -⟩ := hfits
          obtain ⟨-, next, hnode, -⟩ := h.divided.chain
          exact ⟨_, hnode⟩
      | _ => trivial

theorem code_store {id : Fin producers} {p : ℕ} {point point' : ProducePoint}
    {f : Node ℕ → Node ℕ} {node : Node ℕ} (hnode : s.heap.cells p = some node)
    (hpoint : produce malloc id s point = store s p f point') :
    code malloc s (.produce id point) =
      .run { s with heap := s.heap.write p (f node) } (.produce id point') := by
  simp only [code, hpoint, store, hnode]
  rfl

theorem code_printProduced {id : Fin producers} {p i : ℕ} {node : Node ℕ}
    (hnode : s.heap.cells p = some node) :
    code malloc s (.produce id (.print p i)) =
      .run { s with printed := s.printed ++ [.produced id node.data] }
        (.produce id (.signal i)) := by
  simp only [code, produce, hnode]
  rfl

theorem code_advance {id : Fin consumers} {p : Option ℕ} {node : Node ℕ}
    (hnode : node? s s.head = some node) :
    code malloc s (.consume id (.advance p)) =
      .run { s with head := node.next } (.consume id (.print p)) := by
  simp only [code, consume, hnode]
  rfl

theorem code_printConsumed {id : Fin consumers} {p : Option ℕ} {node : Node ℕ}
    (hnode : node? s p = some node) :
    code malloc s (.consume id (.print p)) =
      .run { s with printed := s.printed ++ [.consumed id node.data] }
        (.consume id (.unlock p)) := by
  simp only [code, consume, hnode]
  rfl

theorem code_free {id : Fin consumers} {a : ℕ} {node : Node ℕ}
    (hnode : s.heap.cells a = some node) :
    code malloc s (.consume id (.free (some a))) =
      .run { s with heap := s.heap.free a } (.consume id .lock) := by
  simp only [code, consume, hnode]
  rfl

theorem code_test (id : Fin consumers) :
    code malloc s (.consume id .test) =
      .run s (.consume id (if s.head = none then .printWait else .load)) := rfl

theorem tracks (h : Valid s p) : Tracks inside p (code malloc s p) := by
  cases p with
  | consume id point =>
      cases point with
      | lock | unlock => exact fun m => by cases m; simp [inside, insideConsume]
      | wait => exact ⟨trivial, fun m => by cases m; simp [inside, insideConsume]⟩
      | test =>
          rw [code_test]
          split <;> exact fun _ => Iff.rfl
      | printWait | load => exact fun _ => Iff.rfl
      | advance p =>
          obtain ⟨node, hnode⟩ := h
          rw [code_advance hnode]
          exact fun _ => Iff.rfl
      | print p =>
          obtain ⟨node, hnode⟩ := h
          rw [code_printConsumed hnode]
          exact fun _ => Iff.rfl
      | free p =>
          cases p with
          | none => exact fun _ => Iff.rfl
          | some a =>
              obtain ⟨node, hnode⟩ := h
              rw [code_free hnode]
              exact fun _ => Iff.rfl
      | crashed => trivial
  | produce id point =>
      cases point with
      | lock | unlock => exact fun m => by cases m; simp [inside, insideProduce]
      | malloc | head | signal => exact fun _ => Iff.rfl
      | num p i =>
          obtain ⟨node, hnode⟩ := h
          rw [code_store hnode rfl]
          exact fun _ => Iff.rfl
      | next p i =>
          obtain ⟨node, hnode⟩ := h
          rw [code_store hnode rfl]
          exact fun _ => Iff.rfl
      | print p i =>
          obtain ⟨node, hnode⟩ := h
          rw [code_printProduced hnode]
          exact fun _ => Iff.rfl
      | crashed => trivial

theorem resting_of_wait {k : Cond} {m : Mutex}
    (h : code malloc s p = .wait k m q) : Resting q := by
  cases p with
  | consume id point =>
      obtain ⟨point', hwait, rfl⟩ := Op.exists_of_wait_map h
      cases point with
      | wait =>
          cases hwait
          rfl
      | advance p =>
          simp only [consume] at hwait
          split at hwait <;> cases hwait
      | print p =>
          simp only [consume] at hwait
          split at hwait <;> cases hwait
      | free p =>
          cases p with
          | none => cases hwait
          | some a =>
              simp only [consume] at hwait
              split at hwait <;> cases hwait
      | _ => cases hwait
  | produce id point =>
      obtain ⟨point', hwait, rfl⟩ := Op.exists_of_wait_map h
      cases point with
      | num p i | next p i =>
          simp only [produce, store] at hwait
          split at hwait <;> cases hwait
      | print p i =>
          simp only [produce] at hwait
          split at hwait <;> cases hwait
      | _ => cases hwait

theorem Sound.consume_step {id : Fin consumers} {point : ConsumePoint} (h : Sound s ps l)
    (halone : Alone inside Resting ps (.inl id)) (hp : ps (.inl id) = .consume id point)
    (hq : (code malloc s (.consume id point)).next? = some q) :
    ∃ l', Sound ((code malloc s (.consume id point)).after s)
      (Function.update ps (.inl id) q) l' := by
  have hfits := h.fits (.inl id)
  have hmove := h.move (i := .inl id) (q := q)
  rw [hp] at hfits hmove
  cases point with
  | lock | wait =>
      cases hq
      exact ⟨l, hmove rfl rfl (fun hmid => hmid) rfl trivial⟩
  | crashed => cases hq
  | test =>
      rw [code_test] at hq ⊢
      cases hq
      by_cases hhead : s.head = none
      · rw [if_pos hhead] at hmove ⊢
        exact ⟨l, hmove rfl rfl (fun hmid => hmid) rfl hhead⟩
      · rw [if_neg hhead] at hmove ⊢
        exact ⟨l, hmove rfl rfl (fun hmid => hmid) rfl hhead⟩
  | printWait =>
      cases hq
      exact ⟨l, h.printWait halone hp⟩
  | load =>
      cases hq
      exact ⟨l, hmove rfl rfl (fun hmid => hmid) rfl ⟨rfl, hfits⟩⟩
  | advance p =>
      obtain ⟨node, l', hnode, hsound⟩ := h.advance halone hp
      rw [code_advance hnode] at hq ⊢
      cases hq
      exact ⟨l', hsound⟩
  | print p =>
      obtain ⟨node, hnode, hsound⟩ := h.printConsumed halone hp
      rw [code_printConsumed hnode] at hq ⊢
      cases hq
      exact ⟨l, hsound⟩
  | unlock p =>
      cases hq
      exact ⟨l, hmove rfl rfl (fun hmid => hmid) rfl hfits⟩
  | free p =>
      cases p with
      | none => exact absurd rfl hfits
      | some a =>
          obtain ⟨⟨node, hnode⟩, hsound⟩ := h.free hp
          rw [code_free hnode] at hq ⊢
          cases hq
          exact ⟨l, hsound⟩

theorem Sound.produce_step {id : Fin producers} {point : ProducePoint} (h : Sound s ps l)
    (halone : Alone inside Resting ps (.inr id)) (hp : ps (.inr id) = .produce id point)
    (hq : (code malloc s (.produce id point)).next? = some q) :
    ∃ l', Sound ((code malloc s (.produce id point)).after s)
      (Function.update ps (.inr id) q) l' := by
  have hfits := h.fits (.inr id)
  have hmove := h.move (i := .inr id) (q := q)
  have hvalid := h.valid (.inr id)
  have hstore := fun point' a v => h.store point' a v halone
  rw [hp] at hfits hmove hvalid hstore
  cases point with
  | lock i | signal i | unlock i =>
      cases hq
      exact ⟨l, hmove rfl rfl (fun hmid => hmid) rfl trivial⟩
  | crashed => cases hq
  | malloc i =>
      cases hq
      exact ⟨l, h.allocate halone hp⟩
  | num a i =>
      obtain ⟨node, hnode⟩ := hvalid
      rw [code_store hnode rfl] at hq ⊢
      cases hq
      exact ⟨l, hstore _ a _ trivial (fun hmid => hmid) rfl rfl rfl
        ⟨node.next, Heap.write_self ..⟩⟩
  | next a i =>
      obtain ⟨next, hnode⟩ := hfits
      rw [code_store hnode rfl] at hq ⊢
      cases hq
      exact ⟨l, hstore _ a _ trivial (fun hmid => hmid) rfl rfl rfl (Heap.write_self ..)⟩
  | head a i =>
      cases hq
      exact ⟨_, h.head halone hp⟩
  | print a i =>
      obtain ⟨next, hnode, hsound⟩ := h.printProduced halone hp
      rw [code_printProduced hnode] at hq ⊢
      cases hq
      exact ⟨l, hsound⟩

theorem Sound.step (h : Sound s ps l) (halone : Alone inside Resting ps i)
    (hq : (code malloc s (ps i)).next? = some q) :
    ∃ l', Sound ((code malloc s (ps i)).after s) (Function.update ps i q) l' := by
  have htid := h.tid i
  cases hp : ps i with
  | consume id point =>
      rw [hp] at htid hq
      obtain rfl : .inl id = i := htid
      exact h.consume_step halone hp hq
  | produce id point =>
      rw [hp] at htid hq
      obtain rfl : .inr id = i := htid
      exact h.produce_step halone hp hq

theorem not_inside_start (i : Tid consumers producers) (m : Mutex) : ¬ inside (start i) m := by
  cases i <;> exact fun hin => hin

theorem sound_init : Sound (⟨.empty, none, []⟩ : Shared consumers producers) start [] where
  tid i := by cases i <;> rfl
  divided := by
    refine ⟨rfl, List.nodup_nil, fun i a hown => ?_, fun i j a hown => ?_, fun a => ?_⟩
    · cases i <;> cases hown
    · cases i <;> cases hown
    · refine ⟨fun hcell => absurd rfl hcell, ?_⟩
      rintro (hmem | ⟨i, hown⟩)
      · cases hmem
      · cases i <;> cases hown
  fits i := by cases i <;> trivial
  stack _ := rfl
  numbers _ := rfl

theorem sound_of_reachable (h : (program malloc consumers producers).Reachable c) :
    Owned inside c ∧ ∃ l, Sound c.shared (points c) l := by
  refine owned_invariant (P := fun s ps => ∃ l, Sound s ps l) ?_
    (fun _ _ _ _ _ hop => resting_of_wait hop) not_inside_start h ⟨[], sound_init⟩ ?_
  · rintro s ps i ⟨l, hsound⟩
    exact tracks (hsound.valid i)
  · rintro s ps i q ⟨l, hsound⟩ halone hq
    exact hsound.step halone hq

/-! ## Results -/

/-- The thread has used a pointer that does not point to a node. -/
def Crashed : Point consumers producers → Prop
  | .consume _ point => point = .crashed
  | .produce _ point => point = .crashed

theorem Fits.not_crashed (h : Fits s l p) : ¬ Crashed p := by
  cases p with
  | consume id point =>
      rintro ⟨⟩
      exact h
  | produce id point =>
      rintro ⟨⟩
      exact h

/-- No thread ever uses a node that has been freed or never was there. The nodes on the heap are
those of the list, without a cycle, and at most one in the hands of each thread. -/
theorem nodes_divided (h : (program malloc consumers producers).Reachable c) :
    (∀ i, ¬ Crashed (points c i)) ∧
      ∃ l, Divided c.shared.heap c.shared.head l fun i => own (points c i) := by
  obtain ⟨-, l, hsound⟩ := sound_of_reachable h
  exact ⟨fun i => (hsound.fits i).not_crashed, l, hsound.divided⟩

/-- A producer has linked its first node. -/
theorem nodes_divided_first : ∃ c l, (program (bumpMalloc _) 2 2).Reachable c ∧
    c.shared.head = some 0 ∧ Divided c.shared.heap c.shared.head l fun i => own (points c i) := by
  have hrun : ((program (bumpMalloc _) 2 2).exec (program (bumpMalloc _) 2 2).init
      (List.replicate 5 (.run (.inr 0) none))).any
      (fun c => decide (c.shared.head = some 0)) = true := by
    decide
  obtain ⟨c, hexec, hhead⟩ := (Option.any_eq_true _ _).mp hrun
  have hc := System.Reachable.init.exec hexec
  obtain ⟨-, l, hdivided⟩ := nodes_divided hc
  exact ⟨c, l, hc, of_decide_eq_true hhead, hdivided⟩

end PthreadBenchmark.NodeStack
