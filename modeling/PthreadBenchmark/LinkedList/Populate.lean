import PthreadBenchmark.LinkedList.Correctness
import Mathlib.Data.Finset.Card
import Mathlib.Algebra.Order.Ring.Int

/-! # `Populate_list`

The first node is not made by `Insert`: what its `next` is in the memory that `malloc` returns, is
never overwritten. The other nodes are inserted one by one, and a value that is in the list already
is drawn again. -/

namespace PthreadBenchmark.LinkedList

variable {s s' : State} {heap : Heap (Node ℤ)} {cells cells' : List (ℕ × ℤ)} {value : ℤ}
  {p prev : Option ℕ} {malloc : Malloc (Node ℤ)} {rand : ℕ → ℕ} {junk : Option ℕ} {n i : ℤ}
  {fuel j : ℕ}

/-- `MAX_NUMBER`. -/
def maxNumber : ℕ := 65535

/-- `rand() % (MAX_NUMBER + 1)`, for what the `j`-th call of `rand` returns. -/
def draw (rand : ℕ → ℕ) (j : ℕ) : ℤ := (rand j % (maxNumber + 1) : ℕ)

/-- `for(int i=0;i<n-1;i++)`, with the number of the next call of `rand`. It fails after `fuel`
rounds, and where a call of `Insert` fails. -/
def populateLoop (malloc : Malloc (Node ℤ)) (rand : ℕ → ℕ) (n : ℤ) :
    ℕ → ℤ → ℕ → State → Option State
  | 0, _, _, _ => none
  | fuel + 1, i, j, s =>
    if i < n - 1 then
      (insert malloc (draw rand j) s).bind fun (result, s') =>
        let i := if result = 0 then i - 1 else i
        populateLoop malloc rand n fuel (i + 1) (j + 1) s'
    else some s

/-- `junk` is what is in the place of `next` in the first node. -/
def populateList (malloc : Malloc (Node ℤ)) (rand : ℕ → ℕ) (n : ℤ) (junk : Option ℕ)
    (heap : Heap (Node ℤ)) (fuel : ℕ) : Option State :=
  let a := malloc.address heap
  populateLoop malloc rand n fuel 0 1 ⟨heap.write a ⟨draw rand 0, junk⟩, some a⟩

/-- All values are between 0 and `MAX_NUMBER`. -/
def InRange (cells : List (ℕ × ℤ)) : Prop := ∀ v ∈ values cells, 0 ≤ v ∧ v ≤ maxNumber

/-- The loop comes to its end with an ascending list of `n` values in the range. -/
def Populated (malloc : Malloc (Node ℤ)) (rand : ℕ → ℕ) (n : ℤ) (junk : Option ℕ)
    (heap : Heap (Node ℤ)) : Prop :=
  ∃ fuel s cells, populateList malloc rand n junk heap fuel = some s ∧ Represents s cells ∧
    cells.length = n ∧ InRange cells

/-- Each value of the range is drawn again and again. -/
def Recurs (rand : ℕ → ℕ) : Prop :=
  ∀ v ≤ maxNumber, ∀ k, ∃ j, k ≤ j ∧ draw rand j = v

/-! ## The list before the loop -/

/-- The cells that the walk has left behind, if it has left any. -/
theorem exists_chain_of_walk {curr prev' : Option ℕ}
    (hwalk : walk value heap fuel prev p = some (prev', curr)) :
    (prev' = prev ∧ curr = p) ∨
      ∃ a x l, prev' = some a ∧ heap.cells a = some ⟨x, curr⟩ ∧ Chain heap p (some a) l := by
  induction fuel generalizing prev p with
  | zero => cases hwalk
  | succ fuel ih =>
      cases p with
      | none =>
          cases hwalk
          exact .inl ⟨rfl, rfl⟩
      | some a =>
          simp only [walk, Option.bind_eq_some_iff] at hwalk
          obtain ⟨node, hcell, hwalk⟩ := hwalk
          split at hwalk
          · right
            rcases ih hwalk with ⟨rfl, rfl⟩ | ⟨b, x, l, hprev, hb, hchain⟩
            · exact ⟨a, node.data, [], rfl, hcell, rfl⟩
            · exact ⟨b, x, (a, node.data) :: l, hprev, hb, rfl, node.next, hcell, hchain⟩
          · cases hwalk
            exact .inl ⟨rfl, rfl⟩

/-- The cell `temp` has been linked in: between the cell `a` and what was behind it. -/
theorem chain_before_link {a temp : ℕ} {x : ℤ} {next : Option ℕ} {l : List (ℕ × ℤ)}
    (hunused : heap.cells temp = none) (hcell : heap.cells a = some ⟨x, next⟩)
    (hl : Chain heap p (some a) l)
    (hc : Chain ((heap.write temp ⟨value, next⟩).write a ⟨x, some temp⟩) p none cells')
    (hnodup : (cells'.map Prod.fst).Nodup) :
    ∃ cells, Chain heap p none cells ∧ (cells.map Prod.fst).Nodup ∧
      cells'.length = cells.length + 1 := by
  have hne : temp ≠ a := by
    rintro rfl
    rw [hunused] at hcell
    cases hcell
  have hframe : ∀ b, b ≠ temp → b ≠ a →
      ((heap.write temp ⟨value, next⟩).write a ⟨x, some temp⟩).cells b = heap.cells b := by
    intro b hbt hba
    rw [Heap.write_of_ne _ hba, Heap.write_of_ne _ hbt]
  obtain ⟨pre, hpre, hfresh⟩ := hl.first
  have hpre' : Chain ((heap.write temp ⟨value, next⟩).write a ⟨x, some temp⟩) p (some a) pre := by
    refine hpre.congr fun c hc => hframe c.1 ?_ ?_
    · intro heq
      obtain ⟨next', hcell'⟩ := hpre.allocated hc
      rw [heq, hunused] at hcell'
      cases hcell'
    · intro heq
      exact hfresh (heq ▸ List.mem_map_of_mem hc)
  have hlink : Chain ((heap.write temp ⟨value, next⟩).write a ⟨x, some temp⟩) (some a) next
      [(a, x), (temp, value)] := by
    refine ⟨rfl, some temp, Heap.write_self .., rfl, next, ?_, rfl⟩
    rw [Heap.write_of_ne _ hne, Heap.write_self]
  obtain ⟨rest', rfl, hrest'⟩ := hpre'.through hc
  obtain ⟨rest, rfl, hrest⟩ := hlink.through hrest'
  have hbehind : temp ∉ rest.map Prod.fst ∧ a ∉ rest.map Prod.fst := by
    simp only [List.map_append, List.nodup_append, List.cons_append, List.nil_append,
      List.map_cons, List.nodup_cons, List.mem_cons, not_or] at hnodup
    exact ⟨hnodup.2.1.2.1, hnodup.2.1.1.2⟩
  have hrest₀ : Chain heap next none rest := by
    refine hrest.congr fun c hc => (hframe c.1 ?_ ?_).symm
    · intro heq
      exact hbehind.1 (heq ▸ List.mem_map_of_mem hc)
    · intro heq
      exact hbehind.2 (heq ▸ List.mem_map_of_mem hc)
  have hsub : (pre ++ (a, x) :: rest).Sublist (pre ++ ([(a, x), (temp, value)] ++ rest)) :=
    ((List.sublist_cons_self _ rest).cons_cons (a, x)).append_left pre
  refine ⟨pre ++ (a, x) :: rest, chain_append.mpr ⟨some a, hpre, rfl, next, hcell, hrest₀⟩,
    hnodup.sublist (hsub.map _), ?_⟩
  simp only [List.length_append, List.length_cons, List.length_nil]
  omega

/-- The cell `temp` has become the first one. -/
theorem chain_before_first {temp : ℕ}
    (hc : Chain (heap.write temp ⟨value, p⟩) (some temp) none cells')
    (hnodup : (cells'.map Prod.fst).Nodup) :
    ∃ cells, Chain heap p none cells ∧ (cells.map Prod.fst).Nodup ∧
      cells'.length = cells.length + 1 := by
  have hfirst : Chain (heap.write temp ⟨value, p⟩) (some temp) p [(temp, value)] :=
    ⟨rfl, p, Heap.write_self .., rfl⟩
  obtain ⟨rest, rfl, hrest⟩ := hfirst.through hc
  rw [List.singleton_append, List.map_cons, List.nodup_cons] at hnodup
  refine ⟨rest, hrest.congr fun c hc => ?_, hnodup.2, rfl⟩
  refine (Heap.write_of_ne _ ?_ _).symm
  intro heq
  have hmem := List.mem_map_of_mem (f := Prod.fst) hc
  rw [heq] at hmem
  exact hnodup.1 hmem

/-- A call of `Insert` leaves the list as it is, or has added a cell to it. -/
theorem insert_cases {r : ℕ} (h : insert malloc value s = some (r, s')) :
    (r = 0 ∧ s' = s) ∨ r = 1 ∧ ∀ cells', Chain s'.heap s'.head none cells' →
      (cells'.map Prod.fst).Nodup → ∃ cells, Chain s.heap s.head none cells ∧
        (cells.map Prod.fst).Nodup ∧ cells'.length = cells.length + 1 := by
  simp only [LinkedList.insert, Option.bind_eq_some_iff] at h
  obtain ⟨⟨prev, curr⟩, hwalk, beyond, -, h⟩ := h
  split at h
  · right
    simp only [Option.map_eq_some_iff, Prod.mk.injEq] at h
    obtain ⟨⟨heap', head'⟩, hrelink, rfl, rfl⟩ := h
    refine ⟨rfl, fun cells' hc hnodup => ?_⟩
    have hunused := malloc.unused s.heap
    rcases exists_chain_of_walk hwalk with ⟨rfl, rfl⟩ | ⟨a, x, l, rfl, hcell, hl⟩
    · cases hrelink
      exact chain_before_first hc hnodup
    · have hne : a ≠ malloc.address s.heap := by
        rintro rfl
        rw [hunused] at hcell
        cases hcell
      simp only [relink, Heap.write_of_ne _ hne, hcell, Option.map_some, Option.some.injEq,
        Prod.mk.injEq] at hrelink
      obtain ⟨rfl, rfl⟩ := hrelink
      exact chain_before_link hunused hcell hl hc hnodup
  · cases h
    exact .inl ⟨rfl, rfl⟩

/-- A list behind the loop comes from one before it. The induction is on the rounds. -/
theorem chain_before_loop (h : populateLoop malloc rand n fuel i j s = some s') (hi : i ≤ n - 1)
    (hc : Chain s'.heap s'.head none cells') (hnodup : (cells'.map Prod.fst).Nodup) :
    ∃ cells, Chain s.heap s.head none cells ∧ (cells.map Prod.fst).Nodup ∧
      (cells'.length : ℤ) = cells.length + (n - 1 - i) := by
  induction fuel generalizing i j s with
  | zero => cases h
  | succ fuel ih =>
      rw [populateLoop] at h
      split at h
      · simp only [Option.bind_eq_some_iff] at h
        obtain ⟨⟨r, t⟩, hinsert, h⟩ := h
        rcases insert_cases hinsert with ⟨rfl, rfl⟩ | ⟨rfl, hbefore⟩
        · simpa using ih h (by simp only [if_true]; omega)
        · obtain ⟨cells₁, hchain₁, hnodup₁, hlength₁⟩ := ih h (by simp only; omega)
          obtain ⟨cells, hchain, hcells, hlength⟩ := hbefore cells₁ hchain₁ hnodup₁
          refine ⟨cells, hchain, hcells, ?_⟩
          simp only [one_ne_zero, if_false] at hlength₁
          omega
      · cases h
        exact ⟨cells', hc, hnodup, by omega⟩

/-- Only a link to NULL makes a list of the first node. -/
theorem junk_of_populated (hn : 1 ≤ n) (h : Populated malloc rand n junk heap) : junk = none := by
  obtain ⟨fuel, s, cells', hloop, hrep, hlength, -⟩ := h
  obtain ⟨cells, hchain, -, hcells⟩ :=
    chain_before_loop hloop (by omega) hrep.chain hrep.nodup
  have hfirst : Chain (heap.write (malloc.address heap) ⟨draw rand 0, junk⟩)
      (some (malloc.address heap)) junk [(malloc.address heap, draw rand 0)] :=
    ⟨rfl, junk, Heap.write_self .., rfl⟩
  obtain ⟨rest, rfl, hrest⟩ := hfirst.through hchain
  have hnil : rest = [] := by
    apply List.length_eq_zero_iff.mp
    rw [List.length_append, List.length_singleton] at hcells
    omega
  rw [hnil] at hrest
  exact hrest

/-! ## The values that are left -/

theorem card_values (hs : Represents s cells) : (values cells).card = cells.length := by
  rw [values, List.toFinset_card_of_nodup (hs.sorted.imp fun h => h.ne), List.length_map]

/-- The values of the range. -/
def range : Finset ℤ := (Finset.range (maxNumber + 1)).image Nat.cast

theorem card_range : range.card = maxNumber + 1 := by
  rw [range, Finset.card_image_of_injective _ Nat.cast_injective, Finset.card_range]

theorem mem_range {v : ℤ} : v ∈ range ↔ ∃ k ≤ maxNumber, (k : ℤ) = v := by
  simp only [range, Finset.mem_image, Finset.mem_range, Nat.lt_succ_iff]

theorem InRange.subset (h : InRange cells) : values cells ⊆ range := by
  intro v hv
  obtain ⟨h0, h1⟩ := h v hv
  exact mem_range.mpr ⟨v.toNat, by omega, Int.toNat_of_nonneg h0⟩

theorem le_of_populated (h : Populated malloc rand n junk heap) : n ≤ maxNumber + 1 := by
  obtain ⟨fuel, s, cells, -, hrep, hlength, hrange⟩ := h
  have hcard := Finset.card_le_card hrange.subset
  rw [card_values hrep, card_range] at hcard
  omega

theorem exists_fresh (hs : Represents s cells) (hlength : cells.length < maxNumber + 1) :
    ∃ v ≤ maxNumber, (v : ℤ) ∉ values cells := by
  have hlt : (values cells).card < range.card := by
    rwa [card_values hs, card_range]
  obtain ⟨v, hv, hfresh⟩ := Finset.exists_mem_notMem_of_card_lt_card hlt
  obtain ⟨k, hk, rfl⟩ := mem_range.mp hv
  exact ⟨k, hk, hfresh⟩

theorem draw_range (rand : ℕ → ℕ) (j : ℕ) : 0 ≤ draw rand j ∧ draw rand j ≤ maxNumber := by
  have hlt : rand j % (maxNumber + 1) < maxNumber + 1 := Nat.mod_lt _ (Nat.succ_pos _)
  rw [draw]
  omega

/-! ## The loop ends -/

/-- From here the loop comes to its end with the list that is wanted. -/
def Ends (malloc : Malloc (Node ℤ)) (rand : ℕ → ℕ) (n i : ℤ) (j : ℕ) (s : State) : Prop :=
  ∃ fuel s' cells', populateLoop malloc rand n fuel i j s = some s' ∧ Represents s' cells' ∧
    cells'.length = n ∧ InRange cells'

theorem Ends.of_insert {r : ℕ} (hi : i < n - 1)
    (hinsert : insert malloc (draw rand j) s = some (r, s'))
    (h : Ends malloc rand n (if r = 0 then i else i + 1) (j + 1) s') :
    Ends malloc rand n i j s := by
  obtain ⟨fuel, t, cells, hloop, hrest⟩ := h
  refine ⟨fuel + 1, t, cells, ?_, hrest⟩
  rw [populateLoop, if_pos hi, hinsert]
  simp only [Option.bind_some]
  split at hloop
  · next hzero => simpa [hzero] using hloop
  · next hone => simpa [hone] using hloop

theorem Ends.of_fresh (hi : i < n - 1) (hs : Represents s cells)
    (hfresh : draw rand j ∉ values cells)
    (h : ∀ s' cells', Represents s' cells' →
      values cells' = Insert.insert (draw rand j) (values cells) →
      cells'.length = cells.length + 1 → Ends malloc rand n (i + 1) (j + 1) s') :
    Ends malloc rand n i j s := by
  obtain ⟨s', cells', hinsert, hrep, hvalues⟩ := hs.insert_of_not_mem malloc hfresh
  have hlength : cells'.length = cells.length + 1 := by
    rw [← card_values hrep, hvalues, Finset.card_insert_of_notMem hfresh, card_values hs]
  exact Ends.of_insert hi hinsert (h s' cells' hrep hvalues hlength)

/-- The induction is on the calls of `rand` up to the next value that is not in the list. -/
theorem ends_of_draw (hi : i < n - 1) (hs : Represents s cells) (e : ℕ)
    (hfresh : draw rand (j + e) ∉ values cells)
    (h : ∀ j' s' cells', Represents s' cells' →
      values cells' = Insert.insert (draw rand j') (values cells) →
      cells'.length = cells.length + 1 → Ends malloc rand n (i + 1) (j' + 1) s') :
    Ends malloc rand n i j s := by
  induction e generalizing j with
  | zero => exact Ends.of_fresh hi hs hfresh (h j)
  | succ e ih =>
      by_cases hmem : draw rand j ∈ values cells
      · apply Ends.of_insert hi (hs.insert_of_mem malloc hmem)
        apply ih
        rwa [Nat.add_right_comm]
      · exact Ends.of_fresh hi hs hmem (h j)

/-- The induction is on the values that are still to be inserted. -/
theorem ends_of_recurs (hrand : Recurs rand) (hn : n ≤ maxNumber + 1) (d : ℕ)
    (hd : i + d = n - 1) (hs : Represents s cells) (hlength : cells.length = i + 1)
    (hrange : InRange cells) : Ends malloc rand n i j s := by
  induction d generalizing i j s cells with
  | zero =>
      have hstop : ¬ i < n - 1 := by omega
      exact ⟨1, s, cells, by rw [populateLoop, if_neg hstop], hs, by omega, hrange⟩
  | succ d ih =>
      obtain ⟨v, hv, hfresh⟩ := exists_fresh hs (by omega)
      obtain ⟨j', hj', hdraw⟩ := hrand v hv j
      obtain ⟨e, rfl⟩ := Nat.exists_eq_add_of_le hj'
      rw [← hdraw] at hfresh
      refine ends_of_draw (by omega) hs e hfresh fun k s' cells' hrep hvalues hlength' => ?_
      refine ih (by omega) hrep (by omega) fun v hv => ?_
      rw [hvalues] at hv
      rcases Finset.mem_insert.mp hv with rfl | hv
      · exact draw_range rand k
      · exact hrange v hv

theorem populated_of_recurs (hn : 1 ≤ n) (hrand : Recurs rand) (hle : n ≤ maxNumber + 1) :
    Populated malloc rand n none heap := by
  have hone : Represents
      ⟨heap.write (malloc.address heap) ⟨draw rand 0, none⟩, some (malloc.address heap)⟩
      [(malloc.address heap, draw rand 0)] :=
    ⟨⟨rfl, none, Heap.write_self .., rfl⟩, List.nodup_singleton _, List.pairwise_singleton ..⟩
  apply ends_of_recurs hrand hle (n - 1).toNat (by omega) hone rfl
  intro v hv
  obtain rfl : v = draw rand 0 := by simpa [values] using hv
  exact draw_range rand 0

/-! ## Result -/

/-- For any strategy of `malloc`, any heap, any `n` from 1 on and any random numbers that come to
each value of the range again and again: the loop comes to its end with an ascending list of exactly
`n` values of the range if and only if what `malloc` has left in the first node is NULL in the place
of its link, and there are as many values. -/
theorem populated_iff (malloc : Malloc (Node ℤ)) (rand : ℕ → ℕ) (n : ℤ) (junk : Option ℕ)
    (heap : Heap (Node ℤ)) (hn : 1 ≤ n) (hrand : Recurs rand) :
    Populated malloc rand n junk heap ↔ junk = none ∧ n ≤ maxNumber + 1 := by
  constructor
  · exact fun h => ⟨junk_of_populated hn h, le_of_populated h⟩
  · rintro ⟨rfl, hle⟩
    exact populated_of_recurs hn hrand hle

/-- Random numbers that count up come to each value. -/
theorem recurs_id : Recurs id := by
  intro v hv k
  refine ⟨(maxNumber + 1) * k + v, ?_, ?_⟩
  · have hle : k ≤ (maxNumber + 1) * k := Nat.le_mul_of_pos_left k (Nat.succ_pos _)
    omega
  · have hlt : v < maxNumber + 1 := Nat.lt_succ_of_le hv
    rw [draw, id, Nat.mul_add_mod, Nat.mod_eq_of_lt hlt]

/-- A list of three. -/
theorem populated_iff_three : Populated (bumpMalloc _) id 3 none .empty :=
  (populated_iff (bumpMalloc _) id 3 none .empty (by decide) recurs_id).mpr
    ⟨rfl, by simp [maxNumber]⟩

/-- There is no end for one value more than there are, and no list behind a link to anywhere. -/
theorem not_populated : Recurs id ∧ ¬ Populated (bumpMalloc _) id 65537 none .empty ∧
    ¬ Populated (bumpMalloc _) id 1 (some 7) .empty := by
  refine ⟨recurs_id, fun h => ?_, fun h => ?_⟩
  · have hle := le_of_populated h
    simp [maxNumber] at hle
  · cases junk_of_populated le_rfl h

end PthreadBenchmark.LinkedList
