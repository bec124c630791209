import PthreadBenchmark.Shared.Heap
import Mathlib.Data.Finset.Card
import Mathlib.Order.WithBot

/-! # Ascending links

Where nodes are only ever linked in, a list may lose nodes to threads that overwrite each other's
links, but the links stay ascending, and no link leads past a value that the list has had from the
beginning. -/

namespace PthreadBenchmark

variable {α : Type*}

def Heap.data? (h : Heap (Node α)) (a : ℕ) : Option α := (h.cells a).map Node.data

theorem Heap.data?_of_cells {h : Heap (Node α)} {a : ℕ} {node : Node α}
    (ha : h.cells a = some node) : h.data? a = some node.data := by
  rw [data?, ha]
  rfl

variable [LinearOrder α] {h h' : Heap (Node α)} {P P' : Set ℕ} {W : Set α} {x : WithBot α} {v y : α}
  {head prev curr q : Option ℕ} {a temp : ℕ}

/-- A link from data `x` leads to a linked node with larger data, and past none of the values `W`.
-/
structure Onward (h : Heap (Node α)) (P : Set ℕ) (W : Set α) (x : WithBot α) (q : Option ℕ) :
    Prop where
  above : ∀ b, q = some b → b ∈ P ∧ ∃ y, h.data? b = some y ∧ x < y
  stops : ∀ w ∈ W, x < w → ∃ b y, q = some b ∧ h.data? b = some y ∧ y ≤ w

/-- The nodes `P` have been linked in, and some of them may have been lost again. -/
structure Ascending (h : Heap (Node α)) (P : Set ℕ) (W : Set α) (head : Option ℕ) : Prop where
  head : Onward h P W ⊥ head
  nodes : ∀ a ∈ P, ∃ node, h.cells a = some node ∧ Onward h P W node.data node.next

/-- The data of the node before a link, which is below all data where there is none. -/
def Level (h : Heap (Node α)) (P : Set ℕ) (x : WithBot α) : Option ℕ → Prop
  | none => x = ⊥
  | some a => a ∈ P ∧ ∃ y, h.data? a = some y ∧ x = y

/-- A walk is behind `prev`, whose data is below `v`, and in front of `curr`. -/
def Between (h : Heap (Node α)) (P : Set ℕ) (W : Set α) (v : α) (prev curr : Option ℕ) : Prop :=
  ∃ x, Level h P x prev ∧ x < v ∧ Onward h P W x curr

/-- A new node with data `v` fits in between `prev` and `curr`. -/
structure Gap (h : Heap (Node α)) (P : Set ℕ) (W : Set α) (v : α) (prev curr : Option ℕ) :
    Prop where
  before : Between h P W v prev curr
  behind : ∀ b, curr = some b → ∃ y, h.data? b = some y ∧ v < y

/-! ## What stays while nodes are linked in -/

/-- The linked nodes stay, with their data. -/
structure Keeps (h : Heap (Node α)) (P : Set ℕ) (h' : Heap (Node α)) (P' : Set ℕ) : Prop where
  subset : P ⊆ P'
  data : ∀ a ∈ P, h'.data? a = h.data? a

theorem Onward.keep (ho : Onward h P W x q) (hk : Keeps h P h' P') : Onward h' P' W x q := by
  have hdata : ∀ b, q = some b → h'.data? b = h.data? b := fun b hb => hk.data b (ho.above b hb).1
  constructor
  · intro b hb
    obtain ⟨hP, y, hy, hxy⟩ := ho.above b hb
    exact ⟨hk.subset hP, y, (hdata b hb).trans hy, hxy⟩
  · intro w hw hxw
    obtain ⟨b, y, hb, hy, hyw⟩ := ho.stops w hw hxw
    exact ⟨b, y, hb, (hdata b hb).trans hy, hyw⟩

omit [LinearOrder α] in
theorem Level.keep (hl : Level h P x prev) (hk : Keeps h P h' P') : Level h' P' x prev := by
  cases prev with
  | none => exact hl
  | some a =>
      obtain ⟨hP, y, hy, hxy⟩ := hl
      exact ⟨hk.subset hP, y, (hk.data a hP).trans hy, hxy⟩

theorem Between.keep (hb : Between h P W v prev curr) (hk : Keeps h P h' P') :
    Between h' P' W v prev curr := by
  obtain ⟨x, hx, hxv, ho⟩ := hb
  exact ⟨x, hx.keep hk, hxv, ho.keep hk⟩

theorem Between.mem (hb : Between h P W v prev (some a)) : a ∈ P := by
  obtain ⟨x, -, -, ho⟩ := hb
  exact (ho.above a rfl).1

theorem Gap.keep (hg : Gap h P W v prev curr) (hk : Keeps h P h' P') :
    Gap h' P' W v prev curr := by
  refine ⟨hg.before.keep hk, ?_⟩
  rintro b rfl
  obtain ⟨y, hy, hvy⟩ := hg.behind b rfl
  exact ⟨y, (hk.data b hg.before.mem).trans hy, hvy⟩

omit [LinearOrder α] in
/-- A node that is not linked in yet may be changed. -/
theorem Keeps.of_eq (heq : ∀ a ∈ P, h'.cells a = h.cells a) : Keeps h P h' P :=
  ⟨subset_rfl, fun a ha => by rw [Heap.data?, heq a ha, Heap.data?]⟩

theorem Ascending.of_eq (ha : Ascending h P W head) (heq : ∀ a ∈ P, h'.cells a = h.cells a) :
    Ascending h' P W head := by
  refine ⟨ha.head.keep (.of_eq heq), fun a haP => ?_⟩
  obtain ⟨node, hnode, ho⟩ := ha.nodes a haP
  exact ⟨node, (heq a haP).trans hnode, ho.keep (.of_eq heq)⟩

/-! ## Linking in -/

/-- The link of the new node. -/
theorem Gap.onward (hg : Gap h P W v prev curr) : Onward h P W v curr := by
  obtain ⟨x, -, hxv, ho⟩ := hg.before
  constructor
  · intro b hb
    obtain ⟨y, hy, hvy⟩ := hg.behind b hb
    exact ⟨(ho.above b hb).1, y, hy, WithBot.coe_lt_coe.mpr hvy⟩
  · intro w hw hvw
    exact ho.stops w hw (hxv.trans hvw)

/-- The new node is not behind a value that the link before it has led to. -/
theorem Onward.le {w : α} (ho : Onward h P W x curr)
    (hbehind : ∀ b, curr = some b → ∃ y, h.data? b = some y ∧ v < y) (hw : w ∈ W) (hxw : x < w) :
    v ≤ w := by
  obtain ⟨b, y, hb, hy, hyw⟩ := ho.stops w hw hxw
  obtain ⟨y', hy', hvy'⟩ := hbehind b hb
  rw [hy] at hy'
  cases hy'
  exact (hvy'.trans_le hyw).le

/-- A value that the links do not lead past is not behind the walk. -/
theorem Between.stops (hb : Between h P W v prev curr) (hW : v ∈ W) :
    ∃ b y, curr = some b ∧ h.data? b = some y ∧ y ≤ v := by
  obtain ⟨x, -, hxv, ho⟩ := hb
  exact ho.stops v hW hxv

/-- Such a value does not fit in. -/
theorem Gap.notMem (hg : Gap h P W v prev curr) : v ∉ W := by
  intro hW
  obtain ⟨b, y, hb, hy, hyv⟩ := hg.before.stops hW
  obtain ⟨y', hy', hvy'⟩ := hg.behind b hb
  rw [hy] at hy'
  cases hy'
  exact hyv.not_gt hvy'

omit [LinearOrder α] in
/-- Overwriting a link keeps the data. -/
theorem data?_write_next {node : Node α} (ha : h.cells a = some node) (next : Option ℕ) (b : ℕ) :
    (h.write a { node with next := next }).data? b = h.data? b := by
  by_cases hb : b = a
  · subst hb
    rw [Heap.data?_of_cells (Heap.write_self ..), Heap.data?_of_cells ha]
  · rw [Heap.data?, Heap.write_of_ne _ hb, Heap.data?]

/-- A node is linked in behind `prev`, whatever `prev` links to by now. -/
theorem Ascending.relink (ha : Ascending h P W head)
    (hg : Gap h P W v prev curr) (htemp : h.cells temp = some ⟨v, curr⟩) :
    ∃ h' head', relink h head prev (some temp) = some (h', head') ∧
      Ascending h' (Insert.insert temp P) W head' ∧ (∀ b, h'.data? b = h.data? b) ∧
      ∀ b, prev ≠ some b → h'.cells b = h.cells b := by
  obtain ⟨x, hx, hxv, ho⟩ := hg.before
  have hnew : Onward h (Insert.insert temp P) W x (some temp) := by
    refine ⟨fun b hb => ?_, fun w hw hxw => ?_⟩
    · cases hb
      exact ⟨.inl rfl, v, Heap.data?_of_cells htemp, hxv⟩
    · exact ⟨temp, v, rfl, Heap.data?_of_cells htemp, ho.le hg.behind hw hxw⟩
  have hsubset : P ⊆ Insert.insert temp P := Set.subset_insert _ _
  cases prev with
  | none =>
      obtain rfl : x = ⊥ := hx
      have hk : Keeps h P h (Insert.insert temp P) := ⟨hsubset, fun _ _ => rfl⟩
      refine ⟨h, some temp, rfl, ⟨hnew, fun b hb => ?_⟩, fun _ => rfl, fun _ _ => rfl⟩
      rcases Set.mem_insert_iff.mp hb with rfl | hb
      · exact ⟨_, htemp, hg.onward.keep hk⟩
      · obtain ⟨node, hnode, hon⟩ := ha.nodes b hb
        exact ⟨node, hnode, hon.keep hk⟩
  | some p =>
      obtain ⟨hpP, y, hy, rfl⟩ := hx
      obtain ⟨node, hnode, hpon⟩ := ha.nodes p hpP
      obtain rfl : node.data = y := Option.some.inj ((Heap.data?_of_cells hnode).symm.trans hy)
      have hdata := data?_write_next hnode (some temp)
      have hk : Keeps h P (h.write p { node with next := some temp }) (Insert.insert temp P) :=
        ⟨hsubset, fun b _ => hdata b⟩
      have hall : Keeps h (Insert.insert temp P) (h.write p { node with next := some temp })
          (Insert.insert temp P) := ⟨subset_rfl, fun b _ => hdata b⟩
      have hne : temp ≠ p := by
        rintro rfl
        rw [hnode] at htemp
        cases htemp
        exact lt_irrefl _ hxv
      refine ⟨h.write p { node with next := some temp }, head, ?_,
        ⟨ha.head.keep hk, fun b hb => ?_⟩, hdata, fun b hb => ?_⟩
      · simp [PthreadBenchmark.relink, hnode]
      · by_cases hbp : b = p
        · subst hbp
          exact ⟨_, Heap.write_self .., hnew.keep hall⟩
        · rw [Heap.write_of_ne _ hbp]
          rcases Set.mem_insert_iff.mp hb with rfl | hb
          · exact ⟨_, htemp, hg.onward.keep hk⟩
          · obtain ⟨node', hnode', hon⟩ := ha.nodes b hb
            exact ⟨node', hnode', hon.keep hk⟩
      · exact Heap.write_of_ne _ (fun hbp => hb (congrArg some hbp.symm)) _

omit [LinearOrder α] in
/-- A new cell is linked in between two chains, whatever the first one has led to. -/
theorem Chain.splice {p r : Option ℕ} {pre post : List (ℕ × α)} (hpre : Chain h p r pre)
    (hpost : Chain h q none post) (hnodup : ((pre ++ post).map Prod.fst).Nodup)
    (hunused : h.cells temp = none) (v : α) :
    ∃ h' p', PthreadBenchmark.relink (h.write temp ⟨v, q⟩) p (pre.getLast?.map Prod.fst)
        (some temp) = some (h', p') ∧
      Chain h' p' (some temp) pre ∧ h'.cells temp = some ⟨v, q⟩ ∧ Chain h' q none post := by
  have hfresh : ∀ c ∈ pre ++ post, c.1 ≠ temp := by
    rintro c hc rfl
    rcases List.mem_append.mp hc with hc | hc
    · obtain ⟨next, hcell⟩ := hpre.allocated hc
      rw [hunused] at hcell
      cases hcell
    · obtain ⟨next, hcell⟩ := hpost.allocated hc
      rw [hunused] at hcell
      cases hcell
  have hwrite : ∀ c ∈ pre ++ post, (h.write temp ⟨v, q⟩).cells c.1 = h.cells c.1 :=
    fun c hc => Heap.write_of_ne _ (hfresh c hc) _
  rw [List.map_append, List.nodup_append] at hnodup
  obtain ⟨h', p', hrelink, hchain, hframe⟩ :=
    (hpre.congr fun c hc => hwrite c (List.mem_append_left _ hc)).relink hnodup.1 (some temp)
  refine ⟨h', p', hrelink, hchain, ?_, hpost.congr fun c hc => ?_⟩
  · rw [hframe temp, Heap.write_self]
    intro hmem
    obtain ⟨c, hc, heq⟩ := List.mem_map.mp hmem
    exact hfresh c (List.mem_append_left _ hc) heq
  · have hmem := List.mem_map_of_mem (f := Prod.fst) hc
    rw [hframe c.1 fun hin => hnodup.2.2 c.1 hin c.1 hmem rfl]
    exact hwrite c (List.mem_append_right _ hc)

/-! ## The list -/

/-- The links lead to the end, since the data ascends. -/
theorem Ascending.chain_of_onward (ha : Ascending h P W head) (ho : Onward h P W x q) :
    ∃ cells, Chain h q none cells ∧ (∀ c ∈ cells, c.1 ∈ P ∧ x < c.2) ∧
      (cells.map Prod.snd).Pairwise (· < ·) ∧ ∀ w ∈ W, x < w → w ∈ cells.map Prod.snd := by
  classical
  -- the addresses with larger data become fewer with each link
  let larger (x : WithBot α) : Finset ℕ :=
    (Finset.range h.bound).filter fun b => ∃ y, h.data? b = some y ∧ x < y
  induction hn : (larger x).card using Nat.strong_induction_on generalizing x q with
  | _ n ih =>
      subst hn
      cases q with
      | none =>
          refine ⟨[], rfl, fun c hc => absurd hc List.not_mem_nil, .nil, fun w hw hxw => ?_⟩
          obtain ⟨b, y, hb, -, -⟩ := ho.stops w hw hxw
          cases hb
      | some a =>
          obtain ⟨haP, y, hy, hxy⟩ := ho.above a rfl
          obtain ⟨node, hnode, hon⟩ := ha.nodes a haP
          obtain rfl : node.data = y := Option.some.inj ((Heap.data?_of_cells hnode).symm.trans hy)
          have hbound : a < h.bound := by
            by_contra hle
            rw [h.cells_bound a (not_lt.mp hle)] at hnode
            cases hnode
          have hless : (larger node.data).card < (larger x).card := by
            refine Finset.card_lt_card (Finset.ssubset_iff_of_subset ?_ |>.mpr ⟨a, ?_, ?_⟩)
            · intro b hb
              simp only [larger, Finset.mem_filter] at hb ⊢
              obtain ⟨hrange, z, hz, hyz⟩ := hb
              exact ⟨hrange, z, hz, hxy.trans hyz⟩
            · simp only [larger, Finset.mem_filter, Finset.mem_range]
              exact ⟨hbound, _, hy, hxy⟩
            · simp only [larger, Finset.mem_filter, not_and]
              rintro - ⟨z, hz, hlt⟩
              rw [hy] at hz
              cases hz
              exact lt_irrefl _ hlt
          obtain ⟨cells, hchain, hP, hsorted, hW⟩ := ih _ hless hon rfl
          refine ⟨(a, node.data) :: cells, ⟨rfl, node.next, hnode, hchain⟩, ?_, ?_, ?_⟩
          · rintro c (_ | ⟨_, hc⟩)
            · exact ⟨haP, hxy⟩
            · exact ⟨(hP c hc).1, hxy.trans (hP c hc).2⟩
          · rw [List.map_cons, List.pairwise_cons]
            refine ⟨fun z hz => ?_, hsorted⟩
            obtain ⟨c, hc, rfl⟩ := List.mem_map.mp hz
            exact WithBot.coe_lt_coe.mp (hP c hc).2
          · intro w hw hxw
            obtain ⟨b, z, hb, hz, hzw⟩ := ho.stops w hw hxw
            cases hb
            rw [hy] at hz
            cases hz
            rcases hzw.eq_or_lt with rfl | hlt
            · exact List.mem_cons_self
            · exact List.mem_cons_of_mem _ (hW w hw (WithBot.coe_lt_coe.mpr hlt))

/-- Cells with different data are different cells. -/
theorem Chain.nodup_of_sorted {p : Option ℕ} {cells : List (ℕ × α)} (hc : Chain h p q cells)
    (hsorted : (cells.map Prod.snd).Pairwise (· < ·)) : (cells.map Prod.fst).Nodup := by
  rw [List.pairwise_map] at hsorted
  rw [List.Nodup, List.pairwise_map]
  refine hsorted.imp_of_mem fun {c d} hcmem hdmem hlt heq => ?_
  obtain ⟨next, hcell⟩ := hc.allocated hcmem
  obtain ⟨next', hcell'⟩ := hc.allocated hdmem
  rw [heq, hcell'] at hcell
  exact hlt.ne (congrArg Node.data (Option.some.inj hcell)).symm

/-- The first link of an ascending list. -/
theorem Chain.onward {p : Option ℕ} {cells : List (ℕ × α)} (hc : Chain h p none cells)
    (hsorted : (cells.map Prod.snd).Pairwise (· < ·)) (hP : ∀ c ∈ cells, c.1 ∈ P ∧ x < c.2)
    (hW : ∀ w ∈ W, x < w → w ∈ cells.map Prod.snd) : Onward h P W x p := by
  cases cells with
  | nil =>
      obtain rfl : p = none := hc
      exact ⟨fun b hb => absurd hb (by simp), fun w hw hxw => absurd (hW w hw hxw) (by simp)⟩
  | cons c cells =>
      obtain ⟨a, y⟩ := c
      obtain ⟨rfl, next, hcell, -⟩ := hc
      obtain ⟨haP, hxy⟩ := hP (a, y) List.mem_cons_self
      have hdata : h.data? a = some y := Heap.data?_of_cells hcell
      refine ⟨fun b hb => ?_, fun w hw hxw => ⟨a, y, rfl, hdata, ?_⟩⟩
      · cases hb
        exact ⟨haP, y, hdata, hxy⟩
      · rcases List.mem_cons.mp (hW w hw hxw) with rfl | hmem
        · exact le_rfl
        · exact (List.rel_of_pairwise_cons hsorted hmem).le

/-- The links of an ascending list are ascending. -/
theorem Chain.ascending {cells : List (ℕ × α)} (hc : Chain h head none cells)
    (hsorted : (cells.map Prod.snd).Pairwise (· < ·)) :
    Ascending h {a | a ∈ cells.map Prod.fst} {w | w ∈ cells.map Prod.snd} head := by
  constructor
  · exact hc.onward hsorted (fun c hc => ⟨List.mem_map_of_mem hc, WithBot.bot_lt_coe _⟩)
      fun w hw _ => hw
  · intro a ha
    obtain ⟨⟨b, y⟩, hmem, rfl⟩ := List.mem_map.mp ha
    obtain ⟨pre, post, rfl⟩ := List.append_of_mem hmem
    obtain ⟨r, -, -, next, hcell, hpost⟩ := chain_append.mp hc
    rw [List.map_append, List.map_cons, List.pairwise_append, List.pairwise_cons] at hsorted
    obtain ⟨-, ⟨hbehind, hpostsorted⟩, hbefore⟩ := hsorted
    refine ⟨⟨y, next⟩, hcell, hpost.onward hpostsorted (fun c hc => ⟨?_, ?_⟩) fun w hw hyw => ?_⟩
    · exact List.mem_map_of_mem (List.mem_append_right _ (List.mem_cons_of_mem _ hc))
    · exact WithBot.coe_lt_coe.mpr (hbehind _ (List.mem_map_of_mem hc))
    · have hyw : y < w := WithBot.coe_lt_coe.mp hyw
      rw [Set.mem_ofPred_eq, List.map_append, List.map_cons, List.mem_append, List.mem_cons] at hw
      rcases hw with hw | rfl | hw
      · exact absurd (hbefore w hw y List.mem_cons_self) hyw.asymm
      · exact absurd hyw (lt_irrefl _)
      · exact hw

end PthreadBenchmark
