import PthreadBenchmark.LinkedList.Threads.Inserts
import PthreadBenchmark.Shared.PthreadRuns

/-! # What goes wrong without a lock

Two threads that insert next to each other overwrite each other's link, and a thread that walks on
while another one deletes reads a node that has been freed. -/

namespace PthreadBenchmark.LinkedList.Threads

open Pthread

variable {threads : ℕ} {malloc : Malloc (Node ℤ)} {junk : Node ℤ} {totals limits : Operation → ℕ}
  {rand : Fin threads → ℕ → ℕ} {s s' s₀ : State} {t : Thread} {op : Operation} {value v w : ℤ}
  {p q : CallPoint} {ps : Fin threads → Thread} {i j : Fin threads} {prev curr : Option ℕ}
  {cells pre post : List (ℕ × ℤ)} {o : Empty → Option (Fin threads)}
  {G : Config (Fin threads) State Thread Empty Empty → Prop}

/-! ## The steps of a call -/

/-- The thread `i` is at this point of its call. -/
def calling (ps : Fin threads → Thread) (i : Fin threads) (op : Operation) (value : ℤ)
    (p : CallPoint) : Fin threads → Thread :=
  Function.update ps i { ps i with point := .call op value p }

@[simp] theorem calling_self :
    calling ps i op value p i = { ps i with point := .call op value p } :=
  Function.update_self ..

theorem calling_of_ne (hne : j ≠ i) : calling ps i op value p j = ps j :=
  Function.update_of_ne hne ..

@[simp] theorem calling_calling :
    calling (calling ps i op value p) i op value q = calling ps i op value q := by
  rw [calling, calling_self, calling, Function.update_idem, calling]

theorem calling_eq_self (hp : (ps i).point = .call op value p) : calling ps i op value p = ps := by
  rw [calling, ← hp, Function.update_eq_self]

/-- One step of the call. -/
theorem leads_call (hop : call (ι := Fin threads) malloc junk op value s p = .run s' q)
    (h : (program malloc junk totals rand s₀).Leads G (placed o s' (calling ps i op value q))) :
    (program malloc junk totals rand s₀).Leads G (placed o s (calling ps i op value p)) := by
  have hret : ∀ r, p ≠ .returned r := by
    rintro r rfl
    cases hop
  have hthread := threadOperation_of_call (ι := Fin threads) malloc junk
    (fun op => totals op / threads) s (t := calling ps i op value p i) (by rw [calling_self]) hret
  rw [hop] at hthread
  refine leads_placed_run i hthread ?_
  rwa [← calling_calling (p := p), calling] at h

/-- The walk passes by the nodes that are below the value. -/
theorem leads_pass {r : Option ℕ} (hc : Chain s.heap curr r pre) (hbelow : ∀ c ∈ pre, c.2 < value)
    (h : (program malloc junk totals rand s₀).Leads G
      (placed o s (calling ps i op value (.test ((pre.getLast?.map Prod.fst).or prev) r)))) :
    (program malloc junk totals rand s₀).Leads G
      (placed o s (calling ps i op value (.test prev curr))) := by
  induction pre generalizing curr prev with
  | nil =>
      obtain rfl : curr = r := hc
      exact h
  | cons c pre ih =>
      obtain ⟨a, x⟩ := c
      obtain ⟨rfl, next, hcell, hrest⟩ := hc
      have hlt : x < value := hbelow (a, x) List.mem_cons_self
      have htest : call (ι := Fin threads) malloc junk op value s (.test prev (some a)) =
          .run s (.advance a) := by
        simp only [call, read_of_cells hcell, hlt, if_true]
      refine leads_call htest (leads_call (read_of_cells hcell _) (ih hrest ?_ ?_))
      · exact fun c hc => hbelow c (List.mem_cons_of_mem _ hc)
      · cases hlast : pre.getLast? with
        | none => simpa [hlast, List.getLast?_eq_none_iff.mp hlast] using h
        | some d => simpa [List.getLast?_cons, hlast] using h

/-- The walk of a call finds the place of the value. -/
theorem leads_find (hlist : Represents s cells) (hsplit : Splits value cells pre post)
    (h : (program malloc junk totals rand s₀).Leads G (placed o s (calling ps i op value
      (.found (pre.getLast?.map Prod.fst) (post.head?.map Prod.fst))))) :
    (program malloc junk totals rand s₀).Leads G (placed o s (calling ps i op value .load)) := by
  obtain ⟨r, hpre, hpost⟩ := chain_append.mp (hsplit.eq ▸ hlist.chain)
  refine leads_call rfl (leads_pass hpre hsplit.below ?_)
  rw [Option.or_none, hpost.head_eq]
  cases post with
  | nil => exact leads_call rfl h
  | cons c post =>
      obtain ⟨a, x⟩ := c
      obtain ⟨-, next, hcell, -⟩ := hpost
      have hle : value ≤ x := hsplit.above (a, x) rfl
      refine leads_call ?_ h
      simp only [List.head?_cons, Option.map_some, call, read_of_cells hcell, hle.not_gt, if_false]

/-- `Insert` finds the place of a new value. -/
theorem leads_place (hlist : Represents s cells) (hsplit : Splits value cells pre post)
    (hnew : value ∉ values cells)
    (h : (program malloc junk totals rand s₀).Leads G (placed o s (calling ps i .insert value
      (.malloc (pre.getLast?.map Prod.fst) (post.head?.map Prod.fst))))) :
    (program malloc junk totals rand s₀).Leads G
      (placed o s (calling ps i .insert value .load)) := by
  obtain ⟨r, -, hpost⟩ := chain_append.mp (hsplit.eq ▸ hlist.chain)
  refine leads_find hlist hsplit ?_
  cases post with
  | nil => exact leads_call rfl h
  | cons c post =>
      obtain ⟨a, x⟩ := c
      obtain ⟨-, next, hcell, -⟩ := hpost
      have hlt : value < x := by
        refine lt_of_le_of_ne (hsplit.above (a, x) rfl) ?_
        rintro rfl
        exact hnew ((hsplit.mem_iff hlist.sorted).mpr ⟨a, post, rfl⟩)
      refine leads_call (read_of_cells hcell _) ?_
      simp only [Operation.branch, gt_iff_lt, hlt, if_true]
      exact h

theorem write_write (h : Heap (Node ℤ)) (a : ℕ) (m n : Node ℤ) :
    (h.write a m).write a n = h.write a n := by
  simp [Heap.write]

/-- A new node is made and linked in. -/
theorem leads_link {r : Heap (Node ℤ) × Option ℕ}
    (hi : (ps i).point = .call .insert value (.malloc prev curr))
    (hrelink : relink (s.heap.write (malloc.address s.heap) ⟨value, curr⟩) s.head prev
      (some (malloc.address s.heap)) = some r)
    (h : (program malloc junk totals rand s₀).Leads G
      (placed o ⟨r.1, r.2⟩ (calling ps i .insert value (.returned 1)))) :
    (program malloc junk totals rand s₀).Leads G (placed o s ps) := by
  rw [← calling_eq_self hi]
  refine leads_call rfl ?_
  refine leads_call (write_of_cells (Heap.write_self ..) _) ?_
  refine leads_call (write_of_cells (Heap.write_self ..) _) ?_
  simp only [write_write]
  exact leads_call (store_of_relink hrelink) h

/-- The node of the value is taken out and freed. -/
theorem leads_delete {a : ℕ} (hlist : Represents s (pre ++ (a, value) :: post))
    (h : ∀ s', s'.heap.cells a = none → (program malloc junk totals rand s₀).Leads G
      (placed o s' (calling ps i .delete value (.returned 1)))) :
    (program malloc junk totals rand s₀).Leads G
      (placed o s (calling ps i .delete value .load)) := by
  have hsorted := hlist.sorted
  rw [List.map_append, List.map_cons, List.pairwise_append] at hsorted
  have hsplit : Splits value (pre ++ (a, value) :: post) pre ((a, value) :: post) := by
    refine ⟨rfl, fun c hc => ?_, fun c hc => ?_⟩
    · exact hsorted.2.2 c.2 (List.mem_map_of_mem hc) value List.mem_cons_self
    · cases hc
      exact le_rfl
  obtain ⟨r, hpre, -, next, hcell, -⟩ := chain_append.mp hlist.chain
  have hnodup := hlist.nodup
  rw [List.map_append, List.map_cons, List.nodup_append] at hnodup
  obtain ⟨heap, head, hrelink, -, hframe⟩ := hpre.relink hnodup.1 next
  have ha : heap.cells a = some ⟨value, next⟩ := by
    rw [hframe a fun hin => hnodup.2.2 a hin a List.mem_cons_self rfl, hcell]
  refine leads_find hlist hsplit (leads_call (read_of_cells hcell _) ?_)
  simp only [Operation.branch, if_true]
  refine leads_call (read_of_cells hcell _) (leads_call (store_of_relink hrelink) ?_)
  have hfree : call (ι := Fin threads) malloc junk .delete value ⟨heap, head⟩ (.free a) =
      .run ⟨heap.free a, head⟩ (.returned 1) := by
    simp only [call, ha]
  exact leads_call hfree (h _ (Function.update_self ..))

/-- A thread begins with its first call. -/
theorem leads_first (hi : ps i = ⟨rand i, 0, fun _ => 0, .loop⟩) (hvalue : draw (rand i) 0 = value)
    (hop : operation value = op) (hlimit : threads ≤ totals op)
    (h : ∀ t, (program malloc junk totals rand s₀).Leads G
      (placed o s (calling (Function.update ps i t) i op value .load))) :
    (program malloc junk totals rand s₀).Leads G (placed o s ps) := by
  have hpos : 0 < totals op / threads := Nat.div_pos hlimit i.pos
  let t := (ps i).round fun op => totals op / threads
  have hround : t.point = .call op value .load := by
    simp only [t, hi, Thread.round, hvalue, hop, hpos, if_true]
  have hstep : threadOperation (ι := Fin threads) malloc junk (fun op => totals op / threads) s
      (ps i) = .run s t := by
    have hbusy : (ps i).busy (fun op => totals op / threads) = true := by
      rw [hi]
      cases op <;> simp [Thread.busy, hpos]
    have hloop : (ps i).point = .loop := by rw [hi]
    simp only [threadOperation, hloop, hbusy, if_true, t]
  refine leads_placed_run i hstep ?_
  have hself : calling (Function.update ps i t) i op value .load = Function.update ps i t :=
    calling_eq_self (by rw [Function.update_self, hround])
  rw [← hself]
  exact h t

/-! ## Results -/

/-- Two threads insert new values between the same neighbours. Both calls of `Insert` return 1, and
one of the values is not in the list. -/
theorem insert_lost (malloc : Malloc (Node ℤ)) (junk : Node ℤ) (totals : Operation → ℕ)
    (rand : Fin threads → ℕ → ℕ) (hlist : Represents s cells) (hij : i ≠ j)
    (hv : draw (rand i) 0 = v) (hw : draw (rand j) 0 = w) (hopv : operation v = .insert)
    (hopw : operation w = .insert) (htotals : threads ≤ totals .insert) (hnewv : v ∉ values cells)
    (hneww : w ∉ values cells) (hgap : ∀ u ∈ values cells, u < v ↔ u < w) :
    ∃ c cells', (program malloc junk totals rand s).Reachable c ∧
      (points c i).point = .call .insert v (.returned 1) ∧
      (points c j).point = .call .insert w (.returned 1) ∧
      Represents c.shared cells' ∧ values cells' = Insert.insert w (values cells) := by
  have hstart : ∀ k, (fun i => (⟨rand i, 0, fun _ => 0, .loop⟩ : Thread)) k =
      ⟨rand k, 0, fun _ => 0, .loop⟩ := fun _ => rfl
  obtain ⟨pre, post, hsplitw, -⟩ := hlist.walkFrom w
  have hmem : ∀ c ∈ cells, c.2 ∈ values cells :=
    fun c hc => List.mem_toFinset.mpr (List.mem_map_of_mem hc)
  have hsplitv : Splits v cells pre post := by
    refine ⟨hsplitw.eq, fun c hc => ?_, fun c hc => ?_⟩
    · refine (hgap c.2 (hmem c ?_)).mpr (hsplitw.below c hc)
      rw [hsplitw.eq]
      exact List.mem_append_left _ hc
    · have hin : c ∈ cells := by
        rw [hsplitw.eq]
        exact List.mem_append_right _ (List.mem_of_mem_head? hc)
      exact not_lt.mp fun hlt => (hsplitw.above c hc).not_gt ((hgap c.2 (hmem c hin)).mp hlt)
  obtain ⟨r, hpre, hpost⟩ := chain_append.mp (hsplitw.eq ▸ hlist.chain)
  have hhead := hpost.head_eq
  have hnodup := hlist.nodup
  rw [hsplitw.eq] at hnodup
  -- the second thread links its node to `r` again, and the node of the first one is lost
  obtain ⟨h₁, p₁, hrelink₁, hpre₁, -, hpost₁⟩ :=
    hpre.splice hpost hnodup (malloc.unused s.heap) v
  obtain ⟨h₂, p₂, hrelink₂, hpre₂, hcell₂, hpost₂⟩ :=
    hpre₁.splice hpost₁ hnodup (malloc.unused h₁) w
  have hchain : Chain h₂ p₂ none (pre ++ (malloc.address h₁, w) :: post) :=
    chain_append.mpr ⟨_, hpre₂, rfl, r, hcell₂, hpost₂⟩
  have hsorted := hsplitw.sorted_insert hlist.sorted hneww (malloc.address h₁)
  have hfinal : Represents ⟨h₂, p₂⟩ (pre ++ (malloc.address h₁, w) :: post) :=
    ⟨hchain, hchain.nodup_of_sorted hsorted, hsorted⟩
  have hvalues : values (pre ++ (malloc.address h₁, w) :: post) =
      Insert.insert w (values cells) := by
    ext u
    simp only [values, hsplitw.eq, List.map_append, List.map_cons, List.mem_toFinset,
      List.mem_append, List.mem_cons, Finset.mem_insert, or_left_comm]
  have hrun : (program malloc junk totals rand s).Leads (fun c =>
      (points c i).point = .call .insert v (.returned 1) ∧
      (points c j).point = .call .insert w (.returned 1) ∧ c.shared = ⟨h₂, p₂⟩)
      (program malloc junk totals rand s).init := by
    refine leads_first (i := i) (hstart i) hv hopv htotals fun t => ?_
    refine leads_place hlist hsplitv hnewv ?_
    refine leads_first (i := j) ?_ hw hopw htotals fun t' => ?_
    · rw [calling_of_ne hij.symm, Function.update_of_ne hij.symm]
    refine leads_place hlist hsplitw hneww ?_
    rw [hhead] at hrelink₁ hrelink₂
    refine leads_link (i := i) ?_ hrelink₁ (leads_link (i := j) ?_ hrelink₂ (.here ⟨?_, ?_, rfl⟩))
    · rw [calling_of_ne hij, Function.update_of_ne hij, calling_self]
    · rw [calling_of_ne hij.symm, calling_self]
    · show (calling _ j .insert w (.returned 1) i).point = _
      rw [calling_of_ne hij, calling_self]
    · show (calling _ j .insert w (.returned 1) j).point = _
      rw [calling_self]
  obtain ⟨c, hc, hpi, hpj, hshared⟩ := hrun.reachable .init
  exact ⟨c, _, hc, hpi, hpj, hshared ▸ hfinal, hvalues⟩

/-- One thread inserts 1 into the list of 7, and another one inserts 4. -/
theorem insert_lost_one_four : ∃ c cells, (program (bumpMalloc _) ⟨0, none⟩ (fun _ => 2)
    ![fun _ => 1, fun _ => 4] (oneNode (bumpMalloc _) 7)).Reachable c ∧
      (points c 0).point = .call .insert 1 (.returned 1) ∧
      (points c 1).point = .call .insert 4 (.returned 1) ∧
      Represents c.shared cells ∧ values cells = {4, 7} :=
  insert_lost _ _ _ _ (represents_oneNode _ 7) (by decide) rfl rfl rfl rfl le_rfl (by decide)
    (by decide) (by decide)

/-- A thread deletes a node while another one, whose value is not below that of the node, is in
front of it. -/
theorem freed_node_read (malloc : Malloc (Node ℤ)) (junk : Node ℤ) (totals : Operation → ℕ)
    (rand : Fin threads → ℕ → ℕ) (hlist : Represents s cells) (hij : i ≠ j)
    (hv : draw (rand i) 0 = v) (hw : draw (rand j) 0 = w) (hopv : operation v = .delete)
    (hopw : operation w = op) (htotalsv : threads ≤ totals .delete) (htotalsw : threads ≤ totals op)
    (hmem : v ∈ values cells) (hle : v ≤ w) :
    ∃ c, (program malloc junk totals rand s).Reachable c ∧
      (points c j).point = .call op w .crashed := by
  have hstart : ∀ k, (fun i => (⟨rand i, 0, fun _ => 0, .loop⟩ : Thread)) k =
      ⟨rand k, 0, fun _ => 0, .loop⟩ := fun _ => rfl
  obtain ⟨a, pre, post, rfl⟩ : ∃ a pre post, cells = pre ++ (a, v) :: post := by
    obtain ⟨⟨a, x⟩, hcell, rfl⟩ := List.mem_map.mp (List.mem_toFinset.mp hmem)
    obtain ⟨pre, post, rfl⟩ := List.append_of_mem hcell
    exact ⟨a, pre, post, rfl⟩
  have hbelow : ∀ c ∈ pre, c.2 < w := by
    have hsorted := hlist.sorted
    rw [List.map_append, List.map_cons, List.pairwise_append] at hsorted
    intro c hc
    exact (hsorted.2.2 c.2 (List.mem_map_of_mem hc) v List.mem_cons_self).trans_le hle
  obtain ⟨r, hpre, rfl, -⟩ := chain_append.mp hlist.chain
  refine System.Leads.reachable (s := (program malloc junk totals rand s).init) ?_ .init
  refine leads_first (i := j) (hstart j) hw hopw htotalsw fun t => ?_
  refine leads_call rfl (leads_pass hpre hbelow ?_)
  refine leads_first (i := i) ?_ hv hopv htotalsv fun t' => ?_
  · rw [calling_of_ne hij, Function.update_of_ne hij]
  refine leads_delete hlist fun s' hs' => ?_
  -- the node is gone, and the other thread is still in front of it
  have hj : ∀ p, (calling (Function.update (calling (Function.update
      (fun i => (⟨rand i, 0, fun _ => 0, .loop⟩ : Thread)) j t) j op w p) i t') i .delete v
        (.returned 1) j).point = .call op w p := by
    intro p
    rw [calling_of_ne hij.symm, Function.update_of_ne hij.symm, calling_self]
  rw [← calling_eq_self (hj _)]
  have hcrash : call (ι := Fin threads) malloc junk op w s'
      (.test ((pre.getLast?.map Prod.fst).or none) (some a)) = .run s' .crashed := by
    simp only [call, read, hs']
  refine leads_call hcrash (.here ?_)
  show (calling _ j op w .crashed j).point = _
  rw [calling_self]

/-- One thread deletes 2, which is all of the list, and another one looks for 3. -/
theorem freed_node_read_two_three : ∃ c, (program (bumpMalloc _) ⟨0, none⟩ (fun _ => 2)
    ![fun _ => 2, fun _ => 3] (oneNode (bumpMalloc _) 2)).Reachable c ∧
      (points c 1).point = .call .member 3 .crashed :=
  freed_node_read (i := 0) _ _ _ _ (represents_oneNode _ 2) (by decide) rfl rfl rfl rfl le_rfl
    le_rfl (by decide) (by decide)

end PthreadBenchmark.LinkedList.Threads
