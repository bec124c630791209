import PthreadBenchmark.Shared.Heap

/-! # A heap that is divided up

Some cells are linked into one list, others are in the hands of threads, at most one for each
thread. Cells are passed on between the list and the threads, and none is lost. -/

namespace PthreadBenchmark

variable {ι α : Type*} {h : Heap (Node α)} {p head next : Option ℕ} {l : List (ℕ × α)}
  {own : ι → Option ℕ} {i j : ι} {a b : ℕ} {x : α} {v : Node α}

/-- The allocated cells are those of the list and those of the threads, and no cell is in two
places. -/
structure Divided (h : Heap (Node α)) (head : Option ℕ) (l : List (ℕ × α)) (own : ι → Option ℕ) :
    Prop where
  chain : Chain h head none l
  nodup : (l.map Prod.fst).Nodup
  apart : ∀ i a, own i = some a → a ∉ l.map Prod.fst
  distinct : ∀ i j a, own i = some a → own j = some a → i = j
  allocated : ∀ a, h.cells a ≠ none ↔ a ∈ l.map Prod.fst ∨ ∃ i, own i = some a

namespace Divided

theorem exists_cell (hd : Divided h head l own) (hown : own i = some a) :
    ∃ v, h.cells a = some v :=
  Option.ne_none_iff_exists'.mp ((hd.allocated a).mpr (.inr ⟨i, hown⟩))

theorem head_eq (hd : Divided h head l own) : head = l.head?.map Prod.fst :=
  hd.chain.head_eq

theorem ne_of_own (hd : Divided h head l own) (hi : own i = some a) (hj : own j = some b)
    (hij : i ≠ j) : b ≠ a := by
  intro hba
  subst hba
  exact hij (hd.distinct i j b hi hj)

/-- The cells of the list stay as they are where only cells of threads change. -/
theorem chain_frame {h' : Heap (Node α)} (hd : Divided h head l own)
    (hframe : ∀ b, b ≠ a → h'.cells b = h.cells b) (ha : a ∉ l.map Prod.fst) :
    Chain h' head none l := by
  refine hd.chain.congr fun c hc => hframe c.1 ?_
  intro heq
  subst heq
  exact ha (List.mem_map_of_mem hc)

/-- A thread writes to its cell. -/
theorem write (hd : Divided h head l own) (hi : own i = some a) (v : Node α) :
    Divided (h.write a v) head l own := by
  refine ⟨hd.chain_frame (fun b hb => h.write_of_ne hb v) (hd.apart i a hi), hd.nodup, hd.apart,
    hd.distinct, fun b => ?_⟩
  by_cases hba : b = a
  · subst hba
    simp only [h.write_self, ne_eq, reduceCtorEq, not_false_eq_true, true_iff]
    exact .inr ⟨i, hi⟩
  · rw [h.write_of_ne hba]
    exact hd.allocated b

variable [DecidableEq ι]

theorem exists_update_iff {o : Option ℕ} :
    (∃ j, Function.update own i o j = some a) ↔ o = some a ∨ ∃ j, j ≠ i ∧ own j = some a := by
  constructor
  · rintro ⟨j, hj⟩
    by_cases hji : j = i
    · subst hji
      rw [Function.update_self] at hj
      exact .inl hj
    · rw [Function.update_of_ne hji] at hj
      exact .inr ⟨j, hji, hj⟩
  · rintro (ho | ⟨j, hji, hj⟩)
    · exact ⟨i, by rw [Function.update_self, ho]⟩
    · exact ⟨j, by rw [Function.update_of_ne hji, hj]⟩

/-- What is kept of `apart` and `distinct` when only the thread `i` has another cell. -/
theorem apart_update {l' : List (ℕ × α)} (hothers : ∀ j a, j ≠ i → own j = some a →
    a ∉ l'.map Prod.fst) {o : Option ℕ} (ho : ∀ a, o = some a → a ∉ l'.map Prod.fst) (j : ι)
    (a : ℕ) (hj : Function.update own i o j = some a) : a ∉ l'.map Prod.fst := by
  by_cases hji : j = i
  · subst hji
    rw [Function.update_self] at hj
    exact ho a hj
  · rw [Function.update_of_ne hji] at hj
    exact hothers j a hji hj

theorem distinct_update (hd : Divided h head l own) {o : Option ℕ}
    (ho : ∀ j a, j ≠ i → o = some a → own j ≠ some a) (j k : ι) (a : ℕ)
    (hj : Function.update own i o j = some a) (hk : Function.update own i o k = some a) :
    j = k := by
  by_cases hji : j = i <;> by_cases hki : k = i
  · rw [hji, hki]
  · subst hji
    rw [Function.update_self] at hj
    rw [Function.update_of_ne hki] at hk
    exact absurd hk (ho k a hki hj)
  · subst hki
    rw [Function.update_self] at hk
    rw [Function.update_of_ne hji] at hj
    exact absurd hj (ho j a hji hk)
  · rw [Function.update_of_ne hji] at hj
    rw [Function.update_of_ne hki] at hk
    exact hd.distinct j k a hj hk

/-- A thread without a cell gets a new one. -/
theorem malloc (hd : Divided h head l own) (hi : own i = none) (hunused : h.cells a = none)
    (v : Node α) : Divided (h.write a v) head l (Function.update own i (some a)) := by
  have hlist : a ∉ l.map Prod.fst :=
    fun hmem => (hd.allocated a).mpr (.inl hmem) hunused
  have hnone : ∀ j, own j ≠ some a :=
    fun j hj => (hd.allocated a).mpr (.inr ⟨j, hj⟩) hunused
  constructor
  · exact hd.chain_frame (fun b hb => h.write_of_ne hb v) hlist
  · exact hd.nodup
  · refine apart_update (fun j b _ hj => hd.apart j b hj) fun b hb => ?_
    cases hb
    exact hlist
  · refine hd.distinct_update fun j b _ hb => ?_
    cases hb
    exact hnone j
  · intro b
    rw [exists_update_iff]
    by_cases hba : b = a
    · subst hba
      simp
    · have hne : ∀ j, own j = some b → j ≠ i := by
        rintro j hj rfl
        rw [hi] at hj
        cases hj
      rw [h.write_of_ne hba, hd.allocated]
      refine or_congr_right ⟨fun ⟨j, hj⟩ => .inr ⟨j, hne j hj, hj⟩, ?_⟩
      rintro (heq | ⟨j, -, hj⟩)
      · exact absurd (Option.some.inj heq).symm hba
      · exact ⟨j, hj⟩

/-- A thread puts its cell in front of the list. -/
theorem link (hd : Divided h head l own) (hi : own i = some a)
    (hcell : h.cells a = some ⟨x, head⟩) :
    Divided h (some a) ((a, x) :: l) (Function.update own i none) := by
  constructor
  · exact ⟨rfl, head, hcell, hd.chain⟩
  · exact List.nodup_cons.mpr ⟨hd.apart i a hi, hd.nodup⟩
  · refine apart_update (fun j b hji hj => ?_) fun b hb => by cases hb
    rw [List.map_cons, List.mem_cons, not_or]
    exact ⟨hd.ne_of_own hi hj (Ne.symm hji), hd.apart j b hj⟩
  · exact hd.distinct_update fun j b _ hb => by cases hb
  · intro b
    rw [exists_update_iff, hd.allocated b, List.map_cons, List.mem_cons]
    constructor
    · rintro (hmem | ⟨j, hj⟩)
      · exact .inl (.inr hmem)
      · by_cases hji : j = i
        · subst hji
          rw [hi] at hj
          exact .inl (.inl (Option.some.inj hj).symm)
        · exact .inr (.inr ⟨j, hji, hj⟩)
    · rintro ((rfl | hmem) | hb | ⟨j, -, hj⟩)
      · exact .inr ⟨i, hi⟩
      · exact .inl hmem
      · cases hb
      · exact .inr ⟨j, hj⟩

/-- A thread without a cell takes the first one of the list. -/
theorem unlink (hd : Divided h head ((a, x) :: l) own) (hi : own i = none) :
    ∃ next, h.cells a = some ⟨x, next⟩ ∧ Divided h next l (Function.update own i (some a)) := by
  obtain ⟨-, next, hcell, hchain⟩ := hd.chain
  have hnodup := hd.nodup
  rw [List.map_cons, List.nodup_cons] at hnodup
  have happart : ∀ j b, own j = some b → b ≠ a ∧ b ∉ l.map Prod.fst := by
    intro j b hj
    have hb := hd.apart j b hj
    rwa [List.map_cons, List.mem_cons, not_or] at hb
  refine ⟨next, hcell, hchain, hnodup.2, ?_, ?_, fun b => ?_⟩
  · refine apart_update (fun j b _ hj => (happart j b hj).2) fun b hb => ?_
    cases hb
    exact hnodup.1
  · refine hd.distinct_update fun j b _ hb hj => ?_
    cases hb
    exact (happart j a hj).1 rfl
  · rw [exists_update_iff, hd.allocated b, List.map_cons, List.mem_cons]
    constructor
    · rintro ((rfl | hmem) | ⟨j, hj⟩)
      · exact .inr (.inl rfl)
      · exact .inl hmem
      · refine .inr (.inr ⟨j, ?_, hj⟩)
        rintro rfl
        rw [hi] at hj
        cases hj
    · rintro (hmem | hb | ⟨j, -, hj⟩)
      · exact .inl (.inr hmem)
      · cases hb
        exact .inl (.inl rfl)
      · exact .inr ⟨j, hj⟩

/-- A thread frees its cell. -/
theorem free (hd : Divided h head l own) (hi : own i = some a) :
    Divided (h.free a) head l (Function.update own i none) := by
  constructor
  · exact hd.chain_frame (fun b hb => h.free_of_ne hb) (hd.apart i a hi)
  · exact hd.nodup
  · exact apart_update (fun j b _ hj => hd.apart j b hj) fun b hb => by cases hb
  · exact hd.distinct_update fun j b _ hb => by cases hb
  · intro b
    rw [exists_update_iff]
    by_cases hba : b = a
    · subst hba
      have hfreed : (h.free b).cells b = none := Function.update_self ..
      rw [hfreed]
      refine ⟨fun hne => absurd rfl hne, ?_⟩
      rintro (hmem | hb | ⟨j, hji, hj⟩)
      · exact absurd hmem (hd.apart i b hi)
      · cases hb
      · exact absurd (hd.distinct j i b hj hi) hji
    · rw [h.free_of_ne hba, hd.allocated b]
      refine or_congr_right ⟨?_, ?_⟩
      · rintro ⟨j, hj⟩
        refine .inr ⟨j, ?_, hj⟩
        rintro rfl
        rw [hi] at hj
        exact hba (Option.some.inj hj).symm
      · rintro (hb | ⟨j, -, hj⟩)
        · cases hb
        · exact ⟨j, hj⟩

end Divided

end PthreadBenchmark
