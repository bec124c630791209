import PthreadBenchmark.LinkedList.Model
import Mathlib.Data.Finset.Insert
import Mathlib.Data.Finset.Erase
import Mathlib.Data.Int.Order.Basic

/-! # The sorted list refines a finite set of integers -/

namespace PthreadBenchmark.LinkedList

variable {s : State} {heap : Heap (Node ℤ)}
  {cells pre post : List (ℕ × ℤ)} {value : ℤ} {p prev : Option ℕ}

/-! ## Representation -/

/-- The list consists of these cells, strictly ascending by data. -/
structure Represents (s : State) (cells : List (ℕ × ℤ)) : Prop where
  chain : Chain s.heap s.head none cells
  nodup : (cells.map Prod.fst).Nodup
  sorted : (cells.map Prod.snd).Pairwise (· < ·)

def values (cells : List (ℕ × ℤ)) : Finset ℤ := (cells.map Prod.snd).toFinset

theorem represents_emptyList : Represents emptyList [] := ⟨rfl, List.nodup_nil, .nil⟩

theorem represents_oneNode (malloc : Malloc (Node ℤ)) (data : ℤ) :
    Represents (oneNode malloc data) [(malloc.address .empty, data)] :=
  ⟨⟨rfl, none, Heap.write_self .., rfl⟩, List.nodup_singleton _, List.pairwise_singleton ..⟩

/-! ## The walk -/

/-- The walk stops between the cells below the value and the others. -/
theorem walk_spec (value : ℤ) (hc : Chain heap p none cells) (fuel : ℕ)
    (hfuel : cells.length < fuel) (prev : Option ℕ) :
    ∃ pre post, cells = pre ++ post ∧ (∀ c ∈ pre, c.2 < value) ∧
      (∀ c ∈ post.head?, value ≤ c.2) ∧
      walk value heap fuel prev p =
        some ((pre.getLast?.map Prod.fst).or prev, post.head?.map Prod.fst) := by
  induction cells generalizing p prev fuel with
  | nil =>
      obtain rfl : p = none := hc
      cases fuel with
      | zero => exact absurd hfuel (Nat.not_lt_zero _)
      | succ fuel => exact ⟨[], [], rfl, by simp, by simp, rfl⟩
  | cons c cells ih =>
      obtain ⟨a, x⟩ := c
      obtain ⟨rfl, next, hcell, hrest⟩ := hc
      cases fuel with
      | zero => exact absurd hfuel (Nat.not_lt_zero _)
      | succ fuel =>
          by_cases hlt : x < value
          · obtain ⟨pre, post, rfl, hpre, hpost, hwalk⟩ :=
              ih hrest fuel (Nat.lt_of_succ_lt_succ hfuel) (some a)
            refine ⟨(a, x) :: pre, post, rfl, ?_, hpost, ?_⟩
            · intro d hd
              rcases List.mem_cons.mp hd with rfl | hd
              · exact hlt
              · exact hpre d hd
            · simp only [walk, hcell, Option.bind_some, hlt, if_true, hwalk]
              cases hlast : pre.getLast? with
              | none => simp [List.getLast?_eq_none_iff.mp hlast]
              | some d => simp [List.getLast?_cons, hlast]
          · refine ⟨[], (a, x) :: cells, rfl, by simp, ?_, ?_⟩
            · intro d hd
              obtain rfl : (a, x) = d := by simpa using hd
              exact not_lt.mp hlt
            · simp [walk, hcell, hlt]

/-- The cells below the value, and the others. -/
structure Splits (value : ℤ) (cells pre post : List (ℕ × ℤ)) : Prop where
  eq : cells = pre ++ post
  below : ∀ c ∈ pre, c.2 < value
  above : ∀ c ∈ post.head?, value ≤ c.2

theorem Represents.walkFrom (h : Represents s cells) (value : ℤ) :
    ∃ pre post, Splits value cells pre post ∧
      walkFrom value s = some (pre.getLast?.map Prod.fst, post.head?.map Prod.fst) := by
  obtain ⟨pre, post, hsplit, hpre, hpost, hwalk⟩ := walk_spec value h.chain (s.heap.bound + 1)
    (Nat.lt_succ_of_le (h.chain.length_le h.nodup)) none
  refine ⟨pre, post, ⟨hsplit, hpre, hpost⟩, ?_⟩
  rw [LinkedList.walkFrom, hwalk, Option.or_none]

/-- In an ascending list the value can only be in the first cell that is not below it. -/
theorem Splits.mem_iff (h : Splits value cells pre post)
    (hsorted : (cells.map Prod.snd).Pairwise (· < ·)) :
    value ∈ values cells ↔ ∃ a rest, post = (a, value) :: rest := by
  rw [values, List.mem_toFinset, h.eq]
  constructor
  · intro hmem
    obtain ⟨c, hc, hval⟩ := List.mem_map.mp hmem
    rcases List.mem_append.mp hc with hc | hc
    · exact absurd (h.below c hc) (by omega)
    · cases post with
      | nil => cases hc
      | cons d rest =>
          have hd := h.above d rfl
          rcases List.mem_cons.mp hc with rfl | hc
          · exact ⟨c.1, rest, by rw [← hval]⟩
          · rw [h.eq, List.map_append, List.map_cons, List.pairwise_append] at hsorted
            have hlt := List.rel_of_pairwise_cons hsorted.2.1 (List.mem_map_of_mem hc)
            exact absurd hlt (by omega)
  · rintro ⟨a, rest, rfl⟩
    simp

theorem Splits.isBeyond_eq (h : Splits value cells pre post)
    (hsorted : (cells.map Prod.snd).Pairwise (· < ·)) (hc : Chain heap p none post) :
    isBeyond value heap (post.head?.map Prod.fst) = some (decide (value ∉ values cells)) := by
  have hmem := h.mem_iff hsorted
  cases post with
  | nil =>
      have hnot : value ∉ values cells := fun hin => by
        obtain ⟨a, rest, heq⟩ := hmem.mp hin
        cases heq
      simp [isBeyond, hnot]
  | cons d rest =>
      obtain ⟨a, x⟩ := d
      obtain ⟨-, next, hcell, -⟩ := hc
      have hle : value ≤ x := h.above (a, x) rfl
      have hiff : value < x ↔ value ∉ values cells := by
        rw [hmem]
        constructor
        · rintro hlt ⟨b, rest', heq⟩
          have hx : x = value := congrArg Prod.snd (List.cons.inj heq).1
          omega
        · intro hnot
          by_contra hge
          obtain rfl : x = value := by omega
          exact hnot ⟨a, rest, rfl⟩
      simp [isBeyond, hcell, hiff]

/-- A missing value fits in behind the smaller ones. -/
theorem Splits.sorted_insert (h : Splits value cells pre post)
    (hsorted : (cells.map Prod.snd).Pairwise (· < ·)) (hmem : value ∉ values cells) (a : ℕ) :
    ((pre ++ (a, value) :: post).map Prod.snd).Pairwise (· < ·) := by
  have hmemiff := h.mem_iff hsorted
  rw [h.eq, List.map_append, List.pairwise_append] at hsorted
  have habove : ∀ v ∈ post.map Prod.snd, value < v := by
    intro v hv
    cases post with
    | nil => cases hv
    | cons d rest =>
        obtain ⟨b, x⟩ := d
        have hle : value ≤ x := h.above (b, x) rfl
        have hne : x ≠ value := by
          intro heq
          subst heq
          exact hmem (hmemiff.mpr ⟨b, rest, rfl⟩)
        rcases List.mem_cons.mp hv with rfl | hv
        · exact lt_of_le_of_ne hle hne.symm
        · exact lt_of_le_of_lt hle (List.rel_of_pairwise_cons hsorted.2.1 hv)
  have hbelow : ∀ v ∈ pre.map Prod.snd, v < value := by
    intro v hv
    obtain ⟨c, hc, rfl⟩ := List.mem_map.mp hv
    exact h.below c hc
  rw [List.map_append, List.map_cons, List.pairwise_append, List.pairwise_cons]
  refine ⟨hsorted.1, ⟨habove, hsorted.2.1⟩, fun u hu v hv => ?_⟩
  rcases List.mem_cons.mp hv with rfl | hv
  · exact hbelow u hu
  · exact hsorted.2.2 u hu v hv

/-! ## The operations -/

theorem Represents.member (h : Represents s cells) (value : ℤ) :
    member value s = some (if value ∈ values cells then 1 else 0) := by
  obtain ⟨pre, post, hsplit, hwalk⟩ := h.walkFrom value
  obtain ⟨r, -, hpost⟩ := chain_append.mp (hsplit.eq ▸ h.chain)
  have hbeyond := hsplit.isBeyond_eq h.sorted hpost
  by_cases hmem : value ∈ values cells <;>
    simp [LinkedList.member, hwalk, hbeyond, hmem]

theorem Represents.insert_of_mem (h : Represents s cells) (malloc : Malloc (Node ℤ))
    (hmem : value ∈ values cells) :
    insert malloc value s = some (0, s) := by
  obtain ⟨pre, post, hsplit, hwalk⟩ := h.walkFrom value
  obtain ⟨r, -, hpost⟩ := chain_append.mp (hsplit.eq ▸ h.chain)
  have hbeyond := hsplit.isBeyond_eq h.sorted hpost
  simp [LinkedList.insert, hwalk, hbeyond, hmem]

/-- A new value gets a new cell between the smaller and the larger ones. -/
theorem Represents.insert_of_not_mem (h : Represents s cells) (malloc : Malloc (Node ℤ))
    (hmem : value ∉ values cells) :
    ∃ s' cells', insert malloc value s = some (1, s') ∧ Represents s' cells' ∧
      values cells' = Insert.insert value (values cells) := by
  obtain ⟨pre, post, hsplit, hwalk⟩ := h.walkFrom value
  obtain ⟨r, -, hpost⟩ := chain_append.mp (hsplit.eq ▸ h.chain)
  have hbeyond := hsplit.isBeyond_eq h.sorted hpost
  have hsorted := hsplit.sorted_insert h.sorted hmem (malloc.address s.heap)
  obtain ⟨rfl, -, -⟩ := hsplit
  obtain ⟨hfresh, h', p', hrelink, hchain⟩ := h.chain.insert h.nodup (malloc.unused s.heap) value
  refine ⟨⟨h', p'⟩, pre ++ (malloc.address s.heap, value) :: post, ?_, ⟨hchain, ?_, hsorted⟩, ?_⟩
  · simp [LinkedList.insert, hwalk, hbeyond, hmem, hrelink]
  · have hnodup := List.nodup_cons.mpr ⟨hfresh, h.nodup⟩
    rw [List.map_append, List.map_cons]
    rw [List.map_append] at hnodup
    exact (List.perm_middle.nodup_iff).mpr hnodup
  · ext v
    simp only [values, List.map_append, List.map_cons, List.mem_toFinset, List.mem_append,
      List.mem_cons, Finset.mem_insert, or_left_comm]

theorem Represents.delete_of_not_mem (h : Represents s cells) (hmem : value ∉ values cells) :
    delete value s = some (0, s) := by
  obtain ⟨pre, post, hsplit, hwalk⟩ := h.walkFrom value
  obtain ⟨r, -, hpost⟩ := chain_append.mp (hsplit.eq ▸ h.chain)
  have hmemiff := hsplit.mem_iff h.sorted
  cases post with
  | nil => simp [LinkedList.delete, hwalk]
  | cons d rest =>
      obtain ⟨a, x⟩ := d
      obtain ⟨-, next, hcell, -⟩ := hpost
      have hne : x ≠ value := by
        intro heq
        subst heq
        exact hmem (hmemiff.mpr ⟨a, rest, rfl⟩)
      simp [LinkedList.delete, hwalk, hcell, hne]

/-- The cell of the value is taken out and freed. -/
theorem Represents.delete_of_mem (h : Represents s cells) (hmem : value ∈ values cells) :
    ∃ s' cells', delete value s = some (1, s') ∧ Represents s' cells' ∧
      values cells' = (values cells).erase value := by
  obtain ⟨pre, post, hsplit, hwalk⟩ := h.walkFrom value
  obtain ⟨a, rest, rfl⟩ := (hsplit.mem_iff h.sorted).mp hmem
  obtain ⟨rfl, -, -⟩ := hsplit
  obtain ⟨next, h', p', hcell, hrelink, hchain⟩ := h.chain.erase h.nodup
  have hsub : (pre ++ rest).Sublist (pre ++ (a, value) :: rest) :=
    (List.sublist_cons_self _ _).append_left pre
  refine ⟨⟨h'.free a, p'⟩, pre ++ rest, ?_, ⟨hchain, h.nodup.sublist (hsub.map _),
    h.sorted.sublist (hsub.map _)⟩, ?_⟩
  · simp [LinkedList.delete, hwalk, hcell, hrelink]
  · have hsorted := h.sorted
    rw [List.map_append, List.map_cons, List.pairwise_append, List.pairwise_cons] at hsorted
    ext v
    simp only [values, List.map_append, List.map_cons, List.mem_toFinset, List.mem_append,
      List.mem_cons, Finset.mem_erase]
    constructor
    · rintro (hv | hv)
      · exact ⟨(hsorted.2.2 v hv value List.mem_cons_self).ne, .inl hv⟩
      · exact ⟨(hsorted.2.1.1 v hv).ne', .inr (.inr hv)⟩
    · rintro ⟨hne, hv | hv | hv⟩
      · exact .inl hv
      · exact absurd hv hne
      · exact .inr hv

/-! ## Sequences of calls -/

/-- What a call returns on a finite set of integers, and the set behind it. -/
def Call.spec (S : Finset ℤ) : Call → ℕ × Finset ℤ
  | .member value => (if value ∈ S then 1 else 0, S)
  | .insert value => (if value ∈ S then 0 else 1, Insert.insert value S)
  | .delete value => (if value ∈ S then 1 else 0, S.erase value)

def runSpec : Finset ℤ → List Call → List ℕ × Finset ℤ
  | S, [] => ([], S)
  | S, c :: cs =>
    let r := c.spec S
    let rest := runSpec r.2 cs
    (r.1 :: rest.1, rest.2)

/-- One call on the list does what it does on the set. -/
theorem Represents.call (h : Represents s cells) (malloc : Malloc (Node ℤ)) (c : Call) :
    ∃ s' cells', c.run malloc s = some ((c.spec (values cells)).1, s') ∧ Represents s' cells' ∧
      values cells' = (c.spec (values cells)).2 := by
  cases c with
  | member value => exact ⟨s, cells, by simp [Call.run, Call.spec, h.member value], h, rfl⟩
  | insert value =>
      by_cases hmem : value ∈ values cells
      · exact ⟨s, cells, by simp [Call.run, Call.spec, h.insert_of_mem malloc hmem, hmem], h,
          by simp [Call.spec, hmem]⟩
      · obtain ⟨s', cells', hrun, hrep, hvalues⟩ := h.insert_of_not_mem malloc hmem
        exact ⟨s', cells', by simp [Call.run, Call.spec, hrun, hmem], hrep, hvalues⟩
  | delete value =>
      by_cases hmem : value ∈ values cells
      · obtain ⟨s', cells', hrun, hrep, hvalues⟩ := h.delete_of_mem hmem
        exact ⟨s', cells', by simp [Call.run, Call.spec, hrun, hmem], hrep, hvalues⟩
      · exact ⟨s, cells, by simp [Call.run, Call.spec, h.delete_of_not_mem hmem, hmem], h,
          by simp [Call.spec, hmem]⟩

theorem Represents.runCalls (h : Represents s cells) (malloc : Malloc (Node ℤ))
    (cs : List Call) :
    ∃ s' cells', runCalls malloc s cs = some ((runSpec (values cells) cs).1, s') ∧
      Represents s' cells' ∧ values cells' = (runSpec (values cells) cs).2 := by
  induction cs generalizing s cells with
  | nil => exact ⟨s, cells, rfl, h, rfl⟩
  | cons c cs ih =>
      obtain ⟨s₁, cells₁, hrun, hrep, hvalues⟩ := h.call malloc c
      obtain ⟨s', cells', hrest, hrep', hvalues'⟩ := ih hrep
      rw [hvalues] at hrest hvalues'
      exact ⟨s', cells', by simp [LinkedList.runCalls, hrun, hrest, runSpec], hrep', hvalues'⟩

/-- For any strategy of `malloc` and any calls on a list that starts empty or with one
node: no call fails, every call returns what it returns on the finite set of the data, and
the list behind the calls is strictly ascending and holds the set behind the calls. -/
theorem list_refines_set (malloc : Malloc (Node ℤ)) (cs : List Call) :
    (∃ s cells, runCalls malloc emptyList cs = some ((runSpec ∅ cs).1, s) ∧
      Represents s cells ∧ values cells = (runSpec ∅ cs).2) ∧
    ∀ data, ∃ s cells, runCalls malloc (oneNode malloc data) cs = some ((runSpec {data} cs).1, s) ∧
      Represents s cells ∧ values cells = (runSpec {data} cs).2 :=
  ⟨represents_emptyList.runCalls malloc cs,
    fun data => (represents_oneNode malloc data).runCalls malloc cs⟩

/-- A value deleted at the head, one refused and one inserted in the middle. -/
example : (runCalls (bumpMalloc _) emptyList
    [.insert 5, .insert 2, .delete 2, .insert 9, .insert 9, .insert 7, .member 7]).map Prod.fst =
      some [1, 1, 1, 1, 0, 1, 1] := by decide

end PthreadBenchmark.LinkedList
