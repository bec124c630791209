import Mathlib.Data.List.Basic
import Mathlib.Data.List.Nodup
import Mathlib.Data.List.Perm.Subperm
import Mathlib.Data.List.Range
import Mathlib.Logic.Function.Basic

/-! # Linked lists in a heap

Addresses are numbers, and a pointer is an address or NULL. A chain is a part of a singly
linked list, given by its cells with their addresses. -/

namespace PthreadBenchmark

/-- Cells from `bound` on have never been allocated. -/
structure Heap (ν : Type*) where
  cells : ℕ → Option ν
  bound : ℕ
  cells_bound : ∀ a, bound ≤ a → cells a = none

/-- A strategy of `malloc`, which may reuse freed cells. -/
structure Malloc (ν : Type*) where
  address : Heap ν → ℕ
  unused : ∀ h : Heap ν, h.cells (address h) = none

structure Node (α : Type*) where
  data : α
  next : Option ℕ
  deriving DecidableEq, Repr

namespace Heap

variable {ν : Type*}

def empty : Heap ν := ⟨fun _ => none, 0, fun _ _ => rfl⟩

def write (h : Heap ν) (a : ℕ) (v : ν) : Heap ν where
  cells := Function.update h.cells a (some v)
  bound := max h.bound (a + 1)
  cells_bound b hb := by
    rw [Function.update_of_ne (by omega)]
    exact h.cells_bound b (by omega)

def free (h : Heap ν) (a : ℕ) : Heap ν where
  cells := Function.update h.cells a none
  bound := h.bound
  cells_bound b hb := by
    by_cases hba : b = a
    · rw [hba, Function.update_self]
    · rw [Function.update_of_ne hba]
      exact h.cells_bound b hb

@[simp] theorem write_self (h : Heap ν) (a : ℕ) (v : ν) : (h.write a v).cells a = some v :=
  Function.update_self ..

theorem write_of_ne (h : Heap ν) {a b : ℕ} (hne : b ≠ a) (v : ν) :
    (h.write a v).cells b = h.cells b := Function.update_of_ne hne ..

theorem free_of_ne (h : Heap ν) {a b : ℕ} (hne : b ≠ a) : (h.free a).cells b = h.cells b :=
  Function.update_of_ne hne ..

end Heap

/-- The strategy that never reuses a cell. -/
def bumpMalloc (ν : Type*) : Malloc ν := ⟨Heap.bound, fun h => h.cells_bound _ le_rfl⟩

variable {α : Type*} {h h' : Heap (Node α)} {p q r : Option ℕ} {l l₁ l₂ : List (ℕ × α)}

/-- Following `next` from `p` one meets the cells of the list and then `q`. -/
def Chain (h : Heap (Node α)) : Option ℕ → Option ℕ → List (ℕ × α) → Prop
  | p, q, [] => p = q
  | p, q, (a, x) :: l => p = some a ∧ ∃ next, h.cells a = some ⟨x, next⟩ ∧ Chain h next q l

theorem chain_append : Chain h p q (l₁ ++ l₂) ↔ ∃ r, Chain h p r l₁ ∧ Chain h r q l₂ := by
  induction l₁ generalizing p with
  | nil => simp [Chain]
  | cons c l₁ ih =>
      simp only [List.cons_append, Chain, ih]
      constructor
      · rintro ⟨hp, next, hc, r, hl₁, hl₂⟩
        exact ⟨r, ⟨hp, next, hc, hl₁⟩, hl₂⟩
      · rintro ⟨r, ⟨hp, next, hc, hl₁⟩, hl₂⟩
        exact ⟨hp, next, hc, r, hl₁, hl₂⟩

/-- A chain depends on its own cells alone. -/
theorem Chain.congr (hc : Chain h p q l) (heq : ∀ c ∈ l, h'.cells c.1 = h.cells c.1) :
    Chain h' p q l := by
  induction l generalizing p with
  | nil => exact hc
  | cons c l ih =>
      obtain ⟨hp, next, hcell, hrest⟩ := hc
      refine ⟨hp, next, (heq c List.mem_cons_self).trans hcell, ?_⟩
      exact ih hrest fun d hd => heq d (List.mem_cons_of_mem _ hd)

theorem Chain.allocated (hc : Chain h p q l) {c : ℕ × α} (hmem : c ∈ l) :
    ∃ next, h.cells c.1 = some ⟨c.2, next⟩ := by
  induction l generalizing p with
  | nil => cases hmem
  | cons d l ih =>
      obtain ⟨-, next, hcell, hrest⟩ := hc
      rcases List.mem_cons.mp hmem with rfl | hmem
      · exact ⟨next, hcell⟩
      · exact ih hrest hmem

/-- A chain enters at the address of its first cell. -/
theorem Chain.head_eq (hc : Chain h p none l) : p = l.head?.map Prod.fst := by
  cases l with
  | nil => exact hc
  | cons c l => exact hc.1

/-- A chain without a repeated cell has no more cells than were ever allocated. -/
theorem Chain.length_le (hc : Chain h p q l) (hnodup : (l.map Prod.fst).Nodup) :
    l.length ≤ h.bound := by
  have hsub : l.map Prod.fst ⊆ List.range h.bound := by
    intro a ha
    obtain ⟨c, hmem, rfl⟩ := List.mem_map.mp ha
    obtain ⟨next, hcell⟩ := hc.allocated hmem
    rw [List.mem_range]
    by_contra hge
    rw [h.cells_bound _ (by omega)] at hcell
    cases hcell
  simpa using (List.subperm_of_subset hnodup hsub).length_le

/-- A chain to the end runs through each chain from its beginning. -/
theorem Chain.through (hpre : Chain h p q l₁) (hl : Chain h p none l) :
    ∃ rest, l = l₁ ++ rest ∧ Chain h q none rest := by
  induction l₁ generalizing p l with
  | nil =>
      obtain rfl : p = q := hpre
      exact ⟨l, rfl, hl⟩
  | cons c l₁ ih =>
      obtain ⟨a, x⟩ := c
      obtain ⟨rfl, next, hcell, hpre⟩ := hpre
      cases l with
      | nil => cases hl
      | cons d l =>
          obtain ⟨b, y⟩ := d
          obtain ⟨hp, next', hcell', hl⟩ := hl
          cases hp
          rw [hcell] at hcell'
          cases hcell'
          obtain ⟨rest, rfl, hrest⟩ := ih hpre hl
          exact ⟨rest, rfl, hrest⟩

/-- The cells up to where a chain comes to `a` for the first time. -/
theorem Chain.first {a : ℕ} (hc : Chain h p (some a) l) :
    ∃ pre, Chain h p (some a) pre ∧ a ∉ pre.map Prod.fst := by
  induction l generalizing p with
  | nil => exact ⟨[], hc, List.not_mem_nil⟩
  | cons c l ih =>
      obtain ⟨b, x⟩ := c
      obtain ⟨rfl, next, hcell, hrest⟩ := hc
      by_cases hba : a = b
      · exact ⟨[], by rw [hba]; rfl, List.not_mem_nil⟩
      · obtain ⟨pre, hpre, hfresh⟩ := ih hrest
        exact ⟨(b, x) :: pre, ⟨rfl, next, hcell, hpre⟩, by simp [hba, hfresh]⟩

/-! ## Changing one link -/

/-- Lets the cell `prev`, or the head where there is none, point to `target`; fails where
`prev` is not allocated. -/
def relink (h : Heap (Node α)) (head prev target : Option ℕ) :
    Option (Heap (Node α) × Option ℕ) :=
  match prev with
  | none => some (h, target)
  | some a => (h.cells a).map fun n => (h.write a { n with next := target }, head)

/-- Relinking the last cell of a chain redirects the chain and touches no other cell. -/
theorem Chain.relink (hc : Chain h p q l) (hnodup : (l.map Prod.fst).Nodup)
    (target : Option ℕ) :
    ∃ h' p', relink h p (l.getLast?.map Prod.fst) target = some (h', p') ∧
      Chain h' p' target l ∧ ∀ a, a ∉ l.map Prod.fst → h'.cells a = h.cells a := by
  rcases List.eq_nil_or_concat' l with rfl | ⟨l, ⟨a, x⟩, rfl⟩
  · exact ⟨h, target, rfl, rfl, fun _ _ => rfl⟩
  · obtain ⟨r, hl, rfl, next, hcell, -⟩ := chain_append.mp hc
    rw [List.map_append, List.nodup_append] at hnodup
    have hframe : ∀ b, b ≠ a → (h.write a ⟨x, target⟩).cells b = h.cells b :=
      fun b hb => h.write_of_ne hb _
    refine ⟨h.write a ⟨x, target⟩, p, ?_, ?_, ?_⟩
    · simp [PthreadBenchmark.relink, hcell]
    · refine chain_append.mpr ⟨some a, hl.congr fun c hcl => hframe _ ?_, rfl, target,
        h.write_self a _, rfl⟩
      exact hnodup.2.2 c.1 (List.mem_map_of_mem hcl) a (by simp)
    · intro b hb
      exact hframe b fun hba => hb (by simp [hba])

/-- A fresh cell is linked in between two parts of a list. -/
theorem Chain.insert {pre post : List (ℕ × α)} (hc : Chain h p none (pre ++ post))
    (hnodup : ((pre ++ post).map Prod.fst).Nodup) {temp : ℕ} (hunused : h.cells temp = none)
    (x : α) :
    temp ∉ (pre ++ post).map Prod.fst ∧
      ∃ h' p', PthreadBenchmark.relink (h.write temp ⟨x, post.head?.map Prod.fst⟩) p
        (pre.getLast?.map Prod.fst) (some temp) = some (h', p') ∧
        Chain h' p' none (pre ++ (temp, x) :: post) := by
  have hfresh : temp ∉ (pre ++ post).map Prod.fst := by
    intro hmem
    obtain ⟨c, hc', rfl⟩ := List.mem_map.mp hmem
    obtain ⟨next, hcell⟩ := hc.allocated hc'
    rw [hunused] at hcell
    cases hcell
  refine ⟨hfresh, ?_⟩
  obtain ⟨r, hpre, hpost⟩ := chain_append.mp hc
  rw [← hpost.head_eq]
  rw [List.map_append, List.nodup_append] at hnodup
  rw [List.map_append, List.mem_append, not_or] at hfresh
  -- neither the new cell nor the changed link lies in `post`
  have hwrite : ∀ a, a ≠ temp → (h.write temp ⟨x, r⟩).cells a = h.cells a :=
    fun a ha => Heap.write_of_ne _ ha _
  have hpre' : Chain (h.write temp ⟨x, r⟩) p r pre := by
    refine hpre.congr fun c hcp => hwrite c.1 ?_
    intro heq
    subst heq
    exact hfresh.1 (List.mem_map_of_mem hcp)
  obtain ⟨h', p', hrelink, hchain, hframe⟩ := hpre'.relink hnodup.1 (some temp)
  refine ⟨h', p', hrelink, chain_append.mpr ⟨some temp, hchain, rfl, r, ?_, ?_⟩⟩
  · rw [hframe temp hfresh.1, Heap.write_self]
  · refine hpost.congr fun c hcp => ?_
    have hmem := List.mem_map_of_mem (f := Prod.fst) hcp
    rw [hframe c.1 fun hin => hnodup.2.2 c.1 hin c.1 hmem rfl]
    apply hwrite c.1
    intro heq
    subst heq
    exact hfresh.2 hmem

/-- A cell is unlinked and freed. -/
theorem Chain.erase {pre post : List (ℕ × α)} {a : ℕ} {x : α}
    (hc : Chain h p none (pre ++ (a, x) :: post))
    (hnodup : ((pre ++ (a, x) :: post).map Prod.fst).Nodup) :
    ∃ next h' p', h.cells a = some ⟨x, next⟩ ∧
      PthreadBenchmark.relink h p (pre.getLast?.map Prod.fst) next = some (h', p') ∧
      Chain (h'.free a) p' none (pre ++ post) := by
  obtain ⟨r, hpre, -, next, hcell, hpost⟩ := chain_append.mp hc
  rw [List.map_append, List.map_cons, List.nodup_append, List.nodup_cons] at hnodup
  obtain ⟨hnodup₁, ⟨ha, -⟩, hdisjoint⟩ := hnodup
  obtain ⟨h', p', hrelink, hchain, hframe⟩ := hpre.relink hnodup₁ next
  refine ⟨next, h', p', hcell, hrelink, chain_append.mpr ⟨next, ?_, ?_⟩⟩
  · refine hchain.congr fun c hcp => Heap.free_of_ne _ ?_
    exact hdisjoint c.1 (List.mem_map_of_mem hcp) a List.mem_cons_self
  · refine hpost.congr fun c hcp => ?_
    have hmem := List.mem_map_of_mem (f := Prod.fst) hcp
    have hne : c.1 ≠ a := by
      intro heq
      subst heq
      exact ha hmem
    rw [Heap.free_of_ne _ hne]
    exact hframe c.1 fun hin => hdisjoint c.1 hin c.1 (List.mem_cons_of_mem _ hmem) rfl

end PthreadBenchmark
