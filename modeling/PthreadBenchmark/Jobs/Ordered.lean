import PthreadBenchmark.Jobs.Insert
import Mathlib.Data.Int.Order.Basic

/-! # The job list is ordered by arrival plus duration

The number of smaller jobs, which `insert` counts in the whole list, is a position because
the list is sorted: the smaller jobs are its beginning. -/

namespace PthreadBenchmark.Jobs

variable {υ : Type} {s : JobList υ} {heap : Heap (Node (JobData υ))}
  {cells pre post : List (ℕ × JobData υ)} {x : JobData υ} {p q : Option ℕ}
  {malloc : Malloc (Node (JobData υ))}

/-! ## Representation -/

structure Represents (s : JobList υ) (cells : List (ℕ × JobData υ)) : Prop where
  chain : Chain s.heap s.head none cells
  nodup : (cells.map Prod.fst).Nodup
  sorted : cells.Pairwise fun c d => c.2.due ≤ d.2.due

theorem represents_initialise : Represents (initialise : JobList υ) [] :=
  ⟨rfl, List.nodup_nil, .nil⟩

/-- The jobs below `x`, and the others. -/
structure Splits (x : JobData υ) (cells pre post : List (ℕ × JobData υ)) : Prop where
  eq : cells = pre ++ post
  below : ∀ c ∈ pre, c.2.due < x.due
  above : ∀ c ∈ post, x.due ≤ c.2.due

theorem exists_splits (x : JobData υ) (h : cells.Pairwise fun c d => c.2.due ≤ d.2.due) :
    ∃ pre post, Splits x cells pre post := by
  induction cells with
  | nil => exact ⟨[], [], rfl, by simp, by simp⟩
  | cons c cells ih =>
      by_cases hlt : c.2.due < x.due
      · obtain ⟨pre, post, heq, hbelow, habove⟩ := ih h.tail
        refine ⟨c :: pre, post, by rw [heq, List.cons_append], ?_, habove⟩
        intro d hd
        rcases List.mem_cons.mp hd with rfl | hd
        · exact hlt
        · exact hbelow d hd
      · refine ⟨[], c :: cells, rfl, by simp, ?_⟩
        intro d hd
        rcases List.mem_cons.mp hd with rfl | hd
        · exact not_lt.mp hlt
        · exact (not_lt.mp hlt).trans (List.rel_of_pairwise_cons h hd)

theorem Splits.countP_eq (h : Splits x cells pre post) :
    cells.countP (fun c => decide (c.2.due < x.due)) = pre.length := by
  have hpost : post.countP (fun c => decide (c.2.due < x.due)) = 0 := by
    rw [List.countP_eq_zero]
    intro c hc
    simpa using h.above c hc
  have hpre : pre.countP (fun c => decide (c.2.due < x.due)) = pre.length := by
    rw [List.countP_eq_length]
    intro c hc
    simpa using h.below c hc
  rw [h.eq, List.countP_append, hpre, hpost, Nat.add_zero]

theorem Splits.sorted_insert (h : Splits x cells pre post)
    (hsorted : cells.Pairwise fun c d => c.2.due ≤ d.2.due) (a : ℕ) :
    (pre ++ (a, x) :: post).Pairwise fun c d => c.2.due ≤ d.2.due := by
  rw [h.eq, List.pairwise_append] at hsorted
  obtain ⟨hpre, hpost, hcross⟩ := hsorted
  refine List.pairwise_append.mpr ⟨hpre, List.pairwise_cons.mpr ⟨h.above, hpost⟩, ?_⟩
  intro c hc d hd
  rcases List.mem_cons.mp hd with rfl | hd
  · exact (h.below c hc).le
  · exact hcross c hc d hd

/-- The new job stands before all jobs with its sum. -/
theorem Splits.filter_insert (h : Splits x cells pre post) (a : ℕ) (k : ℤ) :
    (pre ++ (a, x) :: post).filter (fun c => decide (c.2.due = k)) =
      (if x.due = k then [(a, x)] else []) ++ cells.filter (fun c => decide (c.2.due = k)) := by
  rw [h.eq, List.filter_append, List.filter_append, List.filter_cons]
  by_cases hk : x.due = k
  · have hnil : pre.filter (fun c => decide (c.2.due = k)) = [] := by
      rw [List.filter_eq_nil_iff]
      intro c hc
      have hlt := h.below c hc
      simp only [decide_eq_true_eq]
      omega
    simp [hk, hnil]
  · simp [hk]

/-! ## The loops -/

/-- The counting loop meets every cell once. -/
theorem countLoop_spec (test : JobData υ → Bool) (hc : Chain heap p none cells) (fuel : ℕ)
    (hfuel : cells.length < fuel) (c : ℕ) :
    countLoop test heap fuel p c = some (c + cells.countP fun d => test d.2) := by
  induction cells generalizing p fuel c with
  | nil =>
      obtain rfl : p = none := hc
      cases fuel with
      | zero => exact absurd hfuel (Nat.not_lt_zero _)
      | succ fuel => rfl
  | cons d cells ih =>
      obtain ⟨a, y⟩ := d
      obtain ⟨rfl, next, hcell, hrest⟩ := hc
      cases fuel with
      | zero => exact absurd hfuel (Nat.not_lt_zero _)
      | succ fuel =>
          simp only [countLoop, hcell, Option.bind_some,
            ih hrest fuel (Nat.lt_of_succ_lt_succ hfuel), List.countP_cons]
          by_cases htest : test y
          · simp [htest]
            omega
          · simp [htest]

theorem Represents.countFrom (h : Represents s cells) (test : JobData υ → Bool) :
    countFrom test s = some (cells.countP fun d => test d.2) := by
  rw [Jobs.countFrom, countLoop_spec test h.chain _
    (Nat.lt_succ_of_le (h.chain.length_le h.nodup)), Nat.zero_add]

theorem Represents.count (h : Represents s cells) : count s = some cells.length := by
  rw [Jobs.count, h.countFrom, List.countP_true]

theorem Represents.countSmaller (h : Represents s cells) (hs : Splits x cells pre post) :
    countSmaller x s = some pre.length := by
  rw [Jobs.countSmaller, h.countFrom, hs.countP_eq]

/-- As many steps as there are cells assign `left` the last of them. -/
theorem addafterLoop_spec {a : ℕ} {y : JobData υ} (hc : Chain heap p q (pre ++ [(a, y)]))
    (left : Option (Option ℕ)) :
    addafterLoop heap (pre.length + 1) left p = some (some (some a), q) := by
  induction pre generalizing p left with
  | nil =>
      obtain ⟨rfl, next, hcell, rfl⟩ := hc
      simp [addafterLoop, hcell]
  | cons d pre ih =>
      obtain ⟨b, z⟩ := d
      obtain ⟨rfl, next, hcell, hrest⟩ := hc
      rw [List.length_cons, addafterLoop]
      simp only [hcell, Option.bind_some]
      exact ih hrest _

theorem lastLoop_spec {a : ℕ} {y : JobData υ} (hc : Chain heap p none (pre ++ [(a, y)]))
    (fuel : ℕ) (hfuel : pre.length < fuel) : lastLoop heap fuel p = some a := by
  induction pre generalizing p fuel with
  | nil =>
      obtain ⟨rfl, next, hcell, rfl⟩ := hc
      cases fuel with
      | zero => exact absurd hfuel (Nat.not_lt_zero _)
      | succ fuel => simp [lastLoop, hcell]
  | cons d pre ih =>
      obtain ⟨b, z⟩ := d
      obtain ⟨rfl, next, hcell, hrest⟩ := hc
      cases fuel with
      | zero => exact absurd hfuel (Nat.not_lt_zero _)
      | succ fuel =>
          have hloop := ih hrest fuel (Nat.lt_of_succ_lt_succ hfuel)
          cases next with
          | none => cases pre <;> exact absurd hrest.1 nofun
          | some c => simpa [lastLoop, hcell] using hloop

/-! ## One call -/

theorem Represents.insertBranch (h : Represents s cells) (hs : Splits x cells pre post) :
    insertBranch x s =
      some (if pre.length = 0 then .add
        else if post.length = 0 then .append else .addafter (pre.length + 1)) := by
  have hlength : cells.length = pre.length + post.length := by rw [hs.eq, List.length_append]
  rw [Jobs.insertBranch, h.chain.head_eq]
  cases hcells : cells with
  | nil =>
      rw [hcells, List.length_nil] at hlength
      simp [show pre.length = 0 by omega]
  | cons c rest =>
      simp only [List.head?_cons, Option.map_some, h.countSmaller hs, h.count, Option.bind_some]
      by_cases hpre : pre.length = 0
      · simp [hpre]
      · rw [if_neg hpre, if_neg hpre]
        by_cases hpost : post.length = 0
        · rw [if_pos hpost, if_neg (by omega)]
        · rw [if_neg hpost, if_pos (by omega)]

/-- The new node lies outside the list, and the list is the same behind its writes. -/
theorem Represents.fresh (h : Represents s cells) {temp : ℕ} (hunused : s.heap.cells temp = none)
    (n : Node (JobData υ)) : Chain (s.heap.write temp n) s.head none cells := by
  refine h.chain.congr fun c hc => Heap.write_of_ne _ ?_ _
  obtain ⟨next, hcell⟩ := h.chain.allocated hc
  rintro rfl
  rw [hunused] at hcell
  cases hcell

/-- Where `addafter` is reached its loop ends with `left` assigned, and `right` behind it. -/
theorem Represents.addafterLoop (h : Represents s cells) (hs : Splits x cells pre post)
    (hpre : pre.length ≠ 0) :
    ∃ a, pre.getLast?.map Prod.fst = some a ∧
      addafterLoop s.heap pre.length none s.head =
        some (some (some a), post.head?.map Prod.fst) := by
  rcases List.eq_nil_or_concat' pre with rfl | ⟨front, ⟨a, y⟩, rfl⟩
  · exact absurd rfl hpre
  · obtain ⟨r, hfront, hpost⟩ := chain_append.mp (hs.eq ▸ h.chain)
    refine ⟨a, by simp, ?_⟩
    rw [← hpost.head_eq, List.length_append, List.length_singleton]
    exact addafterLoop_spec hfront none

/-- Without memory every branch leaves the program. -/
theorem Represents.insert_denied (h : Represents s cells) (x : JobData υ) :
    insert malloc false x s = .error .exited := by
  obtain ⟨pre, post, hs⟩ := exists_splits x h.sorted
  rw [Jobs.insert, h.insertBranch hs]
  by_cases hpre : pre.length = 0
  · rw [if_pos hpre]
    rfl
  · rw [if_neg hpre]
    by_cases hpost : post.length = 0
    · rw [if_pos hpost]
      rfl
    · obtain ⟨a, -, hloop⟩ := h.addafterLoop hs hpre
      rw [if_neg hpost]
      change Jobs.addafter malloc false x (pre.length + 1) s = _
      rw [Jobs.addafter, Nat.add_sub_cancel, hloop]
      rfl

variable (malloc) in
/-- A call links the new job in behind the smaller ones, whichever branch it takes. -/
theorem Represents.insert (h : Represents s cells) (hs : Splits x cells pre post) :
    ∃ s', insert malloc true x s = .ok s' ∧
      Represents s' (pre ++ (malloc.address s.heap, x) :: post) := by
  have hunused := malloc.unused s.heap
  obtain ⟨hnotin, heap, head, hrelink, hchain⟩ :=
    Chain.insert (hs.eq ▸ h.chain) (hs.eq ▸ h.nodup) hunused x
  have hrep : Represents ⟨heap, head⟩ (pre ++ (malloc.address s.heap, x) :: post) := by
    refine ⟨hchain, ?_, hs.sorted_insert h.sorted _⟩
    have hnodup := hs.eq ▸ h.nodup
    rw [List.map_append, List.map_cons, List.nodup_middle, List.nodup_cons, ← List.map_append]
    exact ⟨hnotin, hnodup⟩
  refine ⟨⟨heap, head⟩, ?_, hrep⟩
  rw [Jobs.insert, h.insertBranch hs]
  by_cases hpre : pre.length = 0
  · obtain rfl := List.length_eq_zero_iff.mp hpre
    have hhead : s.head = post.head?.map Prod.fst := by
      simpa [hs.eq] using h.chain.head_eq
    rw [if_pos hpre]
    rw [← hhead] at hrelink
    cases hrelink
    rfl
  · rw [if_neg hpre]
    by_cases hpost : post.length = 0
    · obtain rfl := List.length_eq_zero_iff.mp hpost
      rcases List.eq_nil_or_concat' pre with rfl | ⟨front, ⟨a, y⟩, rfl⟩
      · exact absurd rfl hpre
      · have hcells : cells = front ++ [(a, y)] := by simpa using hs.eq
        have hwalk := h.fresh hunused ⟨x, none⟩
        have hlength := hwalk.length_le h.nodup
        rw [hcells, List.length_append, List.length_singleton] at hlength
        have hlast := lastLoop_spec (hcells ▸ hwalk) _ (hlength.trans (Nat.le_succ _))
        rw [if_pos hpost]
        change Jobs.append malloc true x s = _
        simp only [List.getLast?_append, List.getLast?_singleton, Option.some_or,
          Option.map_some, List.head?_nil, Option.map_none] at hrelink
        rw [Jobs.append]
        simp only [newNode, if_true, bind, Except.bind, hlast, orFault, hrelink]
        rfl
    · obtain ⟨a, hlast, hloop⟩ := h.addafterLoop hs hpre
      rw [if_neg hpost]
      rw [hlast] at hrelink
      change Jobs.addafter malloc true x (pre.length + 1) s = _
      rw [Jobs.addafter, Nat.add_sub_cancel, hloop]
      simp only [newNode, if_true, bind, Except.bind, orFault, Option.join_some, hrelink]
      rfl

/-! ## All calls -/

/-- The list that these calls have built, in their order. -/
structure Built (done : List (JobData υ)) (s : JobList υ) (cells : List (ℕ × JobData υ)) : Prop
    extends Represents s cells where
  perm : (cells.map Prod.snd).Perm done
  latest : ∀ k, (cells.map Prod.snd).filter (fun y => decide (y.due = k)) =
    (done.filter fun y => decide (y.due = k)).reverse

theorem built_initialise : Built [] (initialise : JobList υ) [] :=
  ⟨represents_initialise, .nil, fun _ => rfl⟩

variable (malloc) in
theorem Built.insert {done : List (JobData υ)} (h : Built done s cells) (x : JobData υ) :
    ∃ s' cells', insert malloc true x s = .ok s' ∧ Built (done ++ [x]) s' cells' := by
  obtain ⟨pre, post, hs⟩ := exists_splits x h.sorted
  obtain ⟨s', hinsert, hrep⟩ := h.toRepresents.insert malloc hs
  refine ⟨s', _, hinsert, hrep, ?_, ?_⟩
  · have hperm := h.perm
    rw [hs.eq, List.map_append] at hperm
    rw [List.map_append, List.map_cons]
    exact List.perm_middle.trans
      ((hperm.cons x).trans (List.perm_append_singleton x done).symm)
  · intro k
    have hlatest := h.latest k
    rw [List.filter_map] at hlatest ⊢
    have hfilter := hs.filter_insert (malloc.address s.heap) k
    simp only [Function.comp_def] at hlatest ⊢
    rw [hfilter, List.map_append, hlatest, List.filter_append, List.reverse_append]
    by_cases hk : x.due = k <;> simp [hk]

variable (malloc) in
/-- All calls return where every `malloc` is granted. -/
theorem Built.returns {done : List (JobData υ)} (h : Built done s cells)
    (calls : List (Bool × JobData υ)) (hgranted : ∀ c ∈ calls, c.1 = true) :
    ∃ s' cells', insertAll malloc calls s = .ok s' ∧
      Built (done ++ calls.map Prod.snd) s' cells' := by
  induction calls generalizing done s cells with
  | nil => exact ⟨s, cells, rfl, by simpa using h⟩
  | cons c calls ih =>
      obtain ⟨granted, x⟩ := c
      obtain rfl : granted = true := hgranted _ List.mem_cons_self
      obtain ⟨s', cells', hinsert, hbuilt⟩ := h.insert malloc x
      obtain ⟨s'', cells'', hrest, hall⟩ :=
        ih hbuilt fun c hc => hgranted c (List.mem_cons_of_mem _ hc)
      refine ⟨s'', cells'', ?_, by simpa using hall⟩
      rw [insertAll, hinsert]
      exact hrest

/-- The first call without memory leaves the program. -/
theorem Built.exits {done : List (JobData υ)} (h : Built done s cells)
    (calls : List (Bool × JobData υ)) (hdenied : ∃ c ∈ calls, c.1 = false) :
    insertAll malloc calls s = .error .exited := by
  induction calls generalizing done s cells with
  | nil =>
      obtain ⟨c, hc, -⟩ := hdenied
      cases hc
  | cons c calls ih =>
      obtain ⟨granted, x⟩ := c
      cases granted with
      | false =>
          rw [insertAll, h.insert_denied]
          rfl
      | true =>
          obtain ⟨s', cells', hinsert, hbuilt⟩ := h.insert malloc x
          rw [insertAll, hinsert]
          refine ih hbuilt ?_
          simpa using hdenied

/-- After any calls of `insert` the program has left for want of memory, or the list holds
the inserted jobs in the order of their sums, the latest first among equal ones. A next call
reaches `addafter` only with a location between two and the count, and there `left` ends
at a node, and `right` too. -/
theorem insertAll_ordered (malloc : Malloc (Node (JobData υ)))
    (calls : List (Bool × JobData υ)) :
    ((∃ c ∈ calls, c.1 = false) ∧ insertAll malloc calls initialise = .error .exited) ∨
      (∀ c ∈ calls, c.1 = true) ∧ ∃ s cells, insertAll malloc calls initialise = .ok s ∧
        Chain s.heap s.head none cells ∧ (cells.map Prod.fst).Nodup ∧
        (cells.map Prod.snd).Perm (calls.map Prod.snd) ∧
        (cells.map Prod.snd).Pairwise (fun y z =>
          y.arrival + y.duration ≤ z.arrival + z.duration) ∧
        (∀ k, (cells.map Prod.snd).filter (fun y => decide (y.arrival + y.duration = k)) =
          ((calls.map Prod.snd).filter
            fun y => decide (y.arrival + y.duration = k)).reverse) ∧
        ∀ x loc, insertBranch x s = some (.addafter loc) →
          2 ≤ loc ∧ (∃ total, count s = some total ∧ loc ≤ total) ∧
            ∃ a b, addafterLoop s.heap (loc - 1) none s.head = some (some (some a), some b) := by
  by_cases hdenied : ∃ c ∈ calls, c.1 = false
  · exact .inl ⟨hdenied, built_initialise.exits calls hdenied⟩
  have hgranted : ∀ c ∈ calls, c.1 = true := by
    intro c hc
    by_contra hc'
    exact hdenied ⟨c, hc, by simpa using hc'⟩
  obtain ⟨s, cells, hall, hbuilt⟩ := built_initialise.returns malloc calls hgranted
  refine .inr ⟨hgranted, s, cells, hall, hbuilt.chain, hbuilt.nodup, hbuilt.perm, ?_,
    hbuilt.latest, ?_⟩
  · exact List.pairwise_map.mpr hbuilt.sorted
  · intro x loc hbranch
    obtain ⟨pre, post, hs⟩ := exists_splits x hbuilt.sorted
    rw [hbuilt.insertBranch hs, Option.some.injEq] at hbranch
    by_cases hpre : pre.length = 0
    · rw [if_pos hpre] at hbranch
      cases hbranch
    by_cases hpost : post.length = 0
    · rw [if_neg hpre, if_pos hpost] at hbranch
      cases hbranch
    rw [if_neg hpre, if_neg hpost] at hbranch
    cases hbranch
    have hlength : cells.length = pre.length + post.length := by rw [hs.eq, List.length_append]
    obtain ⟨a, -, hloop⟩ := hbuilt.addafterLoop hs hpre
    refine ⟨by omega, ⟨_, hbuilt.count, by omega⟩, a, ?_⟩
    cases post with
    | nil => exact absurd rfl hpost
    | cons d post => exact ⟨d.1, hloop⟩

end PthreadBenchmark.Jobs
