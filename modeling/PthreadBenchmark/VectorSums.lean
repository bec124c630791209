import PthreadBenchmark.Shared.Pthread
import PthreadBenchmark.Shared.PthreadRules
import PthreadBenchmark.Shared.PthreadRuns
import Mathlib.Algebra.BigOperators.Fin
import Mathlib.Algebra.BigOperators.Intervals
import Mathlib.Algebra.Order.Ring.Int
import Mathlib.Data.Fin.VecNotation

/-! # Threads that add to shared sums

In `tp5_2.c` each thread adds its column of a product to the result, row by row. In `5.c` each
thread adds its part of a dot product to one sum. Neither takes the lock for it, so an addition is a
load and a store. -/

namespace PthreadBenchmark.VectorSums

/-- Points of a thread, with the row it is at and what it has loaded. -/
inductive Point (rows : ℕ) (M : Type) where
  | loop (i : ℕ)
  | load (i : Fin rows)
  | store (i : Fin rows) (value : M)
  | exited
  deriving DecidableEq, Repr

structure Thread (rows columns : ℕ) (M : Type) where
  column : Fin columns
  point : Point rows M
  deriving DecidableEq, Repr

/-- `amount i column` is what the thread of the column adds in the row `i`. -/
def code {ι M : Type} [Add M] {rows columns : ℕ} (amount : Fin rows → Fin columns → M)
    (resultat : Fin rows → M) :
    Thread rows columns M → Op ι (Fin rows → M) (Thread rows columns M) Empty Empty
  | ⟨column, .loop i⟩ =>
    .run resultat ⟨column, if h : i < rows then .load ⟨i, h⟩ else .exited⟩
  | ⟨column, .load i⟩ => .run resultat ⟨column, .store i (resultat i)⟩
  | ⟨column, .store i value⟩ =>
    .run (Function.update resultat i (value + amount i column)) ⟨column, .loop (i + 1)⟩
  | ⟨_, .exited⟩ => .halt

def program {M : Type} [AddCommMonoid M] {rows columns : ℕ}
    (amount : Fin rows → Fin columns → M) :
    System (Config (Fin columns) (Fin rows → M) (Thread rows columns M) Empty Empty)
      (Action (Fin columns)) :=
  Pthread.program (code amount) (fun _ => 0) fun column => ⟨column, .loop 0⟩

/-! ## `tp5_2.c` -/

def matrice : Fin 10 → Fin 4 → ℤ :=
  ![![8, 25, 3, 41],
    ![11, 18, 3, 4],
    ![4, 15, 78, 12],
    ![1, 12, 0, 12],
    ![7, 9, 13, 15],
    ![4, 21, 37, 89],
    ![1, 54, 7, 3],
    ![15, 78, 7, 1],
    ![12, 15, 13, 47],
    ![91, 13, 72, 90]]

def vecteur : Fin 4 → ℤ := ![1, 2, 3, 4]

def computeVector : System (Config (Fin 4) (Fin 10 → ℤ) (Thread 10 4 ℤ) Empty Empty)
    (Action (Fin 4)) :=
  program fun i column => matrice i column * vecteur column

/-! ## `5.c` -/

/-- The loop of `dotprod` over the part of a thread, from `start` to `start + len`. -/
def threadsum (x y : ℕ → ℤ) (start len : ℕ) : ℤ :=
  (List.range' start len).foldl (fun threadsum i => threadsum + x i * y i) 0

/-- `data.sum` is the only row. -/
def dotprod (threads veclen : ℕ) (a b : ℕ → ℤ) :
    System (Config (Fin threads) (Fin 1 → ℤ) (Thread 1 threads ℤ) Empty Empty)
      (Action (Fin threads)) :=
  program fun _ offset => threadsum a b (offset * veclen) veclen

/-! ## What the sums may be at the end

A thread that stores into a row takes back what the others have stored there since its load. What is
left in a row is the sum over some of the threads. -/

open Pthread

variable {M : Type} [AddCommMonoid M] {rows columns : ℕ} {amount : Fin rows → Fin columns → M}
  {resultat : Fin rows → M} {ps : Fin columns → Thread rows columns M}
  {i : Fin columns} {q t : Thread rows columns M} {r : Fin rows}
  {c : Config (Fin columns) (Fin rows → M) (Thread rows columns M) Empty Empty}

/-! ## Sums over some of the threads -/

/-- The thread has stored into the row. -/
def Thread.Stored (t : Thread rows columns M) (r : Fin rows) : Prop :=
  match t.point with
  | .loop i => r < i
  | .load i | .store i _ => r < i
  | .exited => True

/-- The value is the sum over some of the threads that have stored into the row. -/
def Partial (amount : Fin rows → Fin columns → M) (ps : Fin columns → Thread rows columns M)
    (r : Fin rows) (value : M) : Prop :=
  ∃ S : Finset (Fin columns), (∀ i ∈ S, (ps i).Stored r) ∧ value = ∑ i ∈ S, amount r i

/-- As soon as some thread has stored into the row, the value is not the empty sum. -/
def Covered (amount : Fin rows → Fin columns → M) (ps : Fin columns → Thread rows columns M)
    (r : Fin rows) (value : M) : Prop :=
  ∃ S : Finset (Fin columns), ((∃ i, (ps i).Stored r) → S.Nonempty) ∧
    (∀ i ∈ S, (ps i).Stored r) ∧ value = ∑ i ∈ S, amount r i

structure Sound (amount : Fin rows → Fin columns → M) (resultat : Fin rows → M)
    (ps : Fin columns → Thread rows columns M) : Prop where
  column : ∀ i, (ps i).column = i
  covered : ∀ r, Covered amount ps r (resultat r)
  loaded : ∀ i r value, (ps i).point = .store r value → Partial amount ps r value

omit [AddCommMonoid M] in
theorem stored_update {r : Fin rows} (hstored : (ps i).Stored r → q.Stored r) (j : Fin columns)
    (hj : (ps j).Stored r) : (Function.update ps i q j).Stored r := by
  by_cases hji : j = i
  · subst hji
    rw [Function.update_self]
    exact hstored hj
  · rwa [Function.update_of_ne hji]

/-- A step that stores nothing. -/
theorem Sound.move (h : Sound amount resultat ps) (hcolumn : q.column = (ps i).column)
    (hstored : ∀ r, q.Stored r ↔ (ps i).Stored r)
    (hloaded : ∀ r value, q.point = .store r value → Partial amount ps r value) :
    Sound amount resultat (Function.update ps i q) := by
  have hall : ∀ r j, (Function.update ps i q j).Stored r ↔ (ps j).Stored r := by
    intro r
    apply (Function.forall_update_iff ps fun j t => t.Stored r ↔ (ps j).Stored r).mpr
    exact ⟨hstored r, fun _ _ => Iff.rfl⟩
  have hpartial : ∀ r value, Partial amount ps r value →
      Partial amount (Function.update ps i q) r value := by
    rintro r value ⟨S, hS, hsum⟩
    exact ⟨S, fun j hj => (hall r j).mpr (hS j hj), hsum⟩
  constructor
  · apply (Function.forall_update_iff ps fun i t => t.column = i).mpr
    exact ⟨hcolumn.trans (h.column i), fun j _ => h.column j⟩
  · intro r
    obtain ⟨S, hne, hS, hsum⟩ := h.covered r
    exact ⟨S, fun ⟨j, hj⟩ => hne ⟨j, (hall r j).mp hj⟩, fun j hj => (hall r j).mpr (hS j hj), hsum⟩
  · intro j r value hj
    by_cases hji : j = i
    · subst hji
      rw [Function.update_self] at hj
      exact hpartial r value (hloaded r value hj)
    · rw [Function.update_of_ne hji] at hj
      exact hpartial r value (h.loaded j r value hj)

theorem Sound.store {value : M} (h : Sound amount resultat ps) (hp : ps i = ⟨i, .store r value⟩) :
    Sound amount (Function.update resultat r (value + amount r i))
      (Function.update ps i ⟨i, .loop (r + 1)⟩) := by
  have hmono : ∀ r', (ps i).Stored r' →
      (⟨i, .loop (r + 1)⟩ : Thread rows columns M).Stored r' := by
    intro r' hr'
    rw [hp] at hr'
    exact Nat.lt_succ_of_lt hr'
  have hall : ∀ r' j, (ps j).Stored r' →
      (Function.update ps i ⟨i, .loop (r + 1)⟩ j).Stored r' := fun r' => stored_update (hmono r')
  constructor
  · apply (Function.forall_update_iff ps fun i t => t.column = i).mpr
    exact ⟨rfl, fun j _ => h.column j⟩
  · intro r'
    by_cases hr' : r' = r
    · subst hr'
      obtain ⟨S, hS, hsum⟩ := h.loaded i r' value (by rw [hp])
      -- the thread is not among those whose amounts it has loaded
      have hi : i ∉ S := by
        intro hi
        have hlt := hS i hi
        rw [hp] at hlt
        exact lt_irrefl _ hlt
      refine ⟨insert i S, fun _ => Finset.insert_nonempty i S, fun j hj => ?_, ?_⟩
      · rcases Finset.mem_insert.mp hj with rfl | hj
        · rw [Function.update_self]
          exact Nat.lt_succ_self _
        · exact hall r' j (hS j hj)
      · rw [Function.update_self, Finset.sum_insert hi, hsum, add_comm]
    · obtain ⟨S, hne, hS, hsum⟩ := h.covered r'
      refine ⟨S, fun ⟨j, hj⟩ => hne ⟨j, ?_⟩, fun j hj => hall r' j (hS j hj), ?_⟩
      · by_cases hji : j = i
        · subst hji
          rw [Function.update_self] at hj
          rw [hp]
          exact lt_of_le_of_ne (Nat.lt_succ_iff.mp hj) hr'
        · rwa [Function.update_of_ne hji] at hj
      · rw [Function.update_of_ne hr']
        exact hsum
  · intro j r' v hj
    by_cases hji : j = i
    · subst hji
      rw [Function.update_self] at hj
      cases hj
    · rw [Function.update_of_ne hji] at hj
      obtain ⟨S, hS, hsum⟩ := h.loaded j r' v hj
      exact ⟨S, fun k hk => hall r' k (hS k hk), hsum⟩

theorem Sound.step (h : Sound amount resultat ps)
    (hq : (code (ι := Fin columns) amount resultat (ps i)).next? = some q) :
    Sound amount ((code (ι := Fin columns) amount resultat (ps i)).after resultat)
      (Function.update ps i q) := by
  have hcolumn := h.column i
  obtain ⟨column, point, hp⟩ : ∃ column point, ps i = ⟨column, point⟩ := ⟨_, _, rfl⟩
  rw [hp] at hcolumn
  obtain rfl : column = i := hcolumn
  rw [hp] at hq ⊢
  cases point with
  | loop k =>
      cases hq
      by_cases hk : k < rows
      · rw [dif_pos hk]
        exact h.move (by rw [hp]) (fun r => by rw [hp]; rfl) fun r value heq => by cases heq
      · rw [dif_neg hk]
        refine h.move (by rw [hp]) (fun r => ?_) fun r value heq => by cases heq
        rw [hp]
        exact ⟨fun _ => r.isLt.trans_le (not_lt.mp hk), fun _ => trivial⟩
  | load r =>
      cases hq
      refine h.move (by rw [hp]) (fun r => by rw [hp]; rfl) fun r' value heq => ?_
      cases heq
      obtain ⟨S, -, hS, hsum⟩ := h.covered r
      exact ⟨S, hS, hsum⟩
  | store r value =>
      cases hq
      exact h.store hp
  | exited => cases hq

theorem sound_of_reachable (h : (program amount).Reachable c) :
    Sound amount c.shared (points c) := by
  refine points_invariant h ⟨fun _ => rfl, fun r => ⟨∅, ?_, by simp, rfl⟩, ?_⟩
    fun _ _ _ _ hsound hq => hsound.step hq
  · rintro ⟨i, hi⟩
    exact absurd hi (Nat.not_lt_zero _)
  · intro i r value heq
    cases heq

/-- All threads have left their loops. -/
def AllExited (c : Config (Fin columns) (Fin rows → M) (Thread rows columns M) Empty Empty) :
    Prop :=
  ∀ i, c.threads i = .running ⟨i, .exited⟩

theorem exists_sums_of_allExited (hcolumns : 0 < columns) (h : (program amount).Reachable c)
    (hexited : AllExited c) (r : Fin rows) :
    ∃ S : Finset (Fin columns), S.Nonempty ∧ c.shared r = ∑ i ∈ S, amount r i := by
  obtain ⟨S, hne, -, hsum⟩ := (sound_of_reachable h).covered r
  refine ⟨S, hne ⟨⟨0, hcolumns⟩, ?_⟩, hsum⟩
  rw [points_of_running (hexited _)]
  trivial

/-! ## Runs to every such sum -/

section Runs

variable {G : Config (Fin columns) (Fin rows → M) (Thread rows columns M) Empty Empty → Prop}
  {o : Empty → Option (Fin columns)} {p : Fin columns → Point rows M} {k : ℕ} {v : M}

/-- All threads, each with its column. -/
def row (p : Fin columns → Point rows M) : Fin columns → Thread rows columns M :=
  fun column => ⟨column, p column⟩

omit [AddCommMonoid M] in
theorem update_row (p : Fin columns → Point rows M) (i : Fin columns) (q : Point rows M) :
    Function.update (row p) i ⟨i, q⟩ = row (Function.update p i q) := by
  funext j
  by_cases hj : j = i
  · subst hj
    simp only [row, Function.update_self]
  · simp only [row, Function.update_of_ne hj]

theorem leads_point {q : Point rows M} {resultat' : Fin rows → M} (i : Fin columns)
    (hop : code (ι := Fin columns) amount resultat ⟨i, p i⟩ = .run resultat' ⟨i, q⟩)
    (h : (program amount).Leads G (placed o resultat' (row (Function.update p i q)))) :
    (program amount).Leads G (placed o resultat (row p)) := by
  rw [← update_row] at h
  exact leads_placed_run i hop h

theorem leads_load (hp : p i = .loop r)
    (h : (program amount).Leads G
      (placed o resultat (row (Function.update p i (.store r (resultat r)))))) :
    (program amount).Leads G (placed o resultat (row p)) := by
  have hloop : code (ι := Fin columns) amount resultat ⟨i, p i⟩ = .run resultat ⟨i, .load r⟩ := by
    rw [hp, code, dif_pos r.isLt]
  have hload : code (ι := Fin columns) amount resultat ⟨i, Function.update p i (.load r) i⟩ =
      .run resultat ⟨i, .store r (resultat r)⟩ := by
    rw [Function.update_self]
    rfl
  refine leads_point i hloop (leads_point i hload ?_)
  rwa [Function.update_idem]

theorem leads_store (hp : p i = .store r v)
    (h : (program amount).Leads G
      (placed o (Function.update resultat r (v + amount r i))
        (row (Function.update p i (.loop (r + 1)))))) :
    (program amount).Leads G (placed o resultat (row p)) :=
  leads_point i (by rw [hp]; rfl) h

/-- The threads of `l` add their amounts in the row, one after the other. -/
theorem leads_adds {l : Finset (Fin columns)} (hp : ∀ i ∈ l, p i = .loop r)
    (h : (program amount).Leads G
      (placed o (Function.update resultat r (resultat r + ∑ i ∈ l, amount r i))
        (row fun i => if i ∈ l then .loop (r + 1) else p i))) :
    (program amount).Leads G (placed o resultat (row p)) := by
  induction l using Finset.induction_on generalizing p resultat with
  | empty => simpa using h
  | insert a l ha ih =>
      refine leads_load (hp a (Finset.mem_insert_self a l)) (leads_store (i := a)
        (Function.update_self ..) (ih (fun i hi => ?_) ?_))
      · have hia : i ≠ a := by
          rintro rfl
          exact ha hi
        rw [Function.update_idem, Function.update_of_ne hia]
        exact hp i (Finset.mem_insert_of_mem hi)
      · rw [Finset.sum_insert ha] at h
        rw [Function.update_idem, Function.update_idem, Function.update_self, add_assoc]
        convert h using 3
        funext i
        by_cases hia : i = a
        · subst hia
          simp [ha]
        · simp [hia]

/-- In one row the amounts of all threads outside of `S` are taken back. -/
theorem leads_row {S : Finset (Fin columns)} (hS : S.Nonempty)
    (h : (program amount).Leads G
      (placed o (Function.update resultat r (resultat r + ∑ i ∈ S, amount r i))
        (row fun _ => .loop (r + 1)))) :
    (program amount).Leads G (placed o resultat (row fun _ => .loop r)) := by
  obtain ⟨a, ha⟩ := hS
  -- `a` loads, the threads outside of `S` add and `a` stores
  refine leads_load (i := a) rfl ?_
  refine leads_adds (r := r) (l := Sᶜ) (fun i hi => ?_) ?_
  · have hia : i ≠ a := by
      rintro rfl
      exact Finset.mem_compl.mp hi ha
    rw [Function.update_of_ne hia]
  · refine leads_store (i := a) (r := r) (v := resultat r) (by simp [ha]) ?_
    -- the others of `S` add
    refine leads_adds (r := r) (l := S.erase a) (fun i hi => ?_) ?_
    · obtain ⟨hia, hi⟩ := Finset.mem_erase.mp hi
      simp [hia, hi]
    · rw [Function.update_idem, Function.update_idem, Function.update_self, add_assoc,
        Finset.add_sum_erase S _ ha]
      convert h using 3
      funext i
      by_cases hia : i = a
      · subst hia
        simp
      · by_cases hi : i ∈ S
        · simp [hia, hi]
        · simp [hia, hi]

/-- All threads leave their loops. -/
theorem leads_exited {l : Finset (Fin columns)} (hp : ∀ i ∈ l, p i = .loop k) (hk : rows ≤ k)
    (h : (program amount).Leads G
      (placed o resultat (row fun i => if i ∈ l then .exited else p i))) :
    (program amount).Leads G (placed o resultat (row p)) := by
  induction l using Finset.induction_on generalizing p with
  | empty => simpa using h
  | insert a l ha ih =>
      refine leads_point a (q := .exited) ?_ (ih (fun i hi => ?_) ?_)
      · rw [hp a (Finset.mem_insert_self a l), code, dif_neg (not_lt.mpr hk)]
      · have hia : i ≠ a := by
          rintro rfl
          exact ha hi
        rw [Function.update_of_ne hia]
        exact hp i (Finset.mem_insert_of_mem hi)
      · convert h using 3
        funext i
        by_cases hia : i = a
        · subst hia
          simp [ha]
        · simp [hia]

/-- The rows from `k` on, each with its own set of threads. -/
theorem leads_rows {S : Fin rows → Finset (Fin columns)} (hS : ∀ r, (S r).Nonempty) (n : ℕ)
    (hk : k + n = rows) :
    (program amount).Leads
      (fun c => AllExited c ∧ ∀ r : Fin rows,
        c.shared r = if k ≤ r then resultat r + ∑ i ∈ S r, amount r i else resultat r)
      (placed o resultat (row fun _ => .loop k)) := by
  induction n generalizing k resultat with
  | zero =>
      refine leads_exited (l := Finset.univ) (fun i _ => rfl) (by omega) (.here ⟨fun i => ?_, ?_⟩)
      · simp [placed, row]
      · intro r
        rw [if_neg (by omega)]
        rfl
  | succ n ih =>
      let r : Fin rows := ⟨k, by omega⟩
      refine leads_row (r := r) (hS r) ((ih (k := r + 1) (by simp [r]; omega)).imp ?_)
      rintro c ⟨hexited, hshared⟩
      refine ⟨hexited, fun r' => (hshared r').trans ?_⟩
      by_cases hr' : r' = r
      · subst hr'
        simp [r]
      · have hne : (r' : ℕ) ≠ k := fun heq => hr' (Fin.ext heq)
        rw [Function.update_of_ne hr']
        by_cases hle : k ≤ r'
        · rw [if_pos hle, if_pos (by simp [r]; omega)]
        · rw [if_neg hle, if_neg (by simp [r]; omega)]

end Runs

/-! ## Results -/

/-- At the end each row holds the sum over some of the threads, but not over none of them. All
choices are possible, in each row another one. -/
theorem resultat_iff (hcolumns : 0 < columns) (amount : Fin rows → Fin columns → M)
    (v : Fin rows → M) :
    (∃ c, (program amount).Reachable c ∧ AllExited c ∧ c.shared = v) ↔
      ∀ r, ∃ S : Finset (Fin columns), S.Nonempty ∧ v r = ∑ i ∈ S, amount r i := by
  constructor
  · rintro ⟨c, hc, hexited, rfl⟩ r
    exact exists_sums_of_allExited hcolumns hc hexited r
  · intro hv
    choose S hS hsum using hv
    have hleads : (program amount).Leads _
        (placed (fun _ => none) (fun _ => 0) (row fun _ => .loop 0)) :=
      leads_rows hS rows (Nat.zero_add rows)
    obtain ⟨c, hc, hexited, hshared⟩ := hleads.reachable .init
    refine ⟨c, hc, hexited, funext fun r => ?_⟩
    rw [hshared r, if_pos (Nat.zero_le _), zero_add, hsum r]

/-- In `tp5_2.c` only the products of the last column may be left. -/
theorem resultat_iff_computeVector :
    ∃ c, computeVector.Reachable c ∧ AllExited c ∧ c.shared = fun r => matrice r 3 * vecteur 3 :=
  (resultat_iff (by decide) _ _).mpr fun _ => ⟨{3}, by simp, by simp⟩

theorem threadsum_eq (x y : ℕ → ℤ) (start len : ℕ) :
    threadsum x y start len = ∑ k ∈ Finset.Ico start (start + len), x k * y k := by
  induction len with
  | zero => simp [threadsum]
  | succ len ih =>
      rw [threadsum, List.range'_1_concat, List.foldl_append, ← threadsum, ih, ← Nat.add_assoc,
        Finset.sum_Ico_succ_top (Nat.le_add_right start len)]
      rfl

/-- The parts of the threads are disjoint. -/
theorem sum_parts {threads : ℕ} (S : Finset (Fin threads)) (veclen : ℕ) (f : ℕ → ℤ) :
    ∑ i ∈ S, ∑ k ∈ Finset.Ico (i * veclen) (i * veclen + veclen), f k =
      ∑ k ∈ Finset.range (threads * veclen) with (∃ i ∈ S, (i : ℕ) = k / veclen), f k := by
  have hpart : ∀ (i : Fin threads) k,
      k ∈ Finset.Ico (i * veclen) (i * veclen + veclen) → (i : ℕ) = k / veclen := by
    intro i k hk
    obtain ⟨hlow, hhigh⟩ := Finset.mem_Ico.mp hk
    refine (Nat.div_eq_of_lt_le hlow ?_).symm
    rwa [Nat.succ_mul]
  rw [← Finset.sum_biUnion]
  · refine Finset.sum_congr (Finset.ext fun k => ?_) fun _ _ => rfl
    simp only [Finset.mem_biUnion, Finset.mem_filter, Finset.mem_range]
    constructor
    · rintro ⟨i, hi, hk⟩
      have hle : (i + 1) * veclen ≤ threads * veclen := Nat.mul_le_mul_right veclen i.isLt
      rw [Nat.succ_mul] at hle
      exact ⟨(Finset.mem_Ico.mp hk).2.trans_le hle, i, hi, hpart i k hk⟩
    · rintro ⟨hk, i, hi, heq⟩
      have hpos : 0 < veclen := Nat.pos_of_lt_mul_left hk
      refine ⟨i, hi, Finset.mem_Ico.mpr ?_⟩
      rw [heq]
      exact ⟨Nat.div_mul_le_self k veclen, Nat.lt_div_mul_add hpos⟩
  · intro i _ j _ hij
    refine Finset.disjoint_left.mpr fun k hi hj => hij (Fin.ext ?_)
    exact (hpart i k hi).trans (hpart j k hj).symm

/-- At the end the sum of `5.c` is the dot product over the parts of some of the threads, which may
be any of them but not none. -/
theorem dotprod_iff {threads : ℕ} (hthreads : 0 < threads) (veclen : ℕ) (a b : ℕ → ℤ) (v : ℤ) :
    (∃ c, (dotprod threads veclen a b).Reachable c ∧ AllExited c ∧ c.shared 0 = v) ↔
      ∃ S : Finset (Fin threads), S.Nonempty ∧
        v = ∑ k ∈ Finset.range (threads * veclen) with (∃ i ∈ S, (i : ℕ) = k / veclen),
          a k * b k := by
  have hsum : ∀ S : Finset (Fin threads), ∑ i ∈ S, threadsum a b (i * veclen) veclen =
      ∑ k ∈ Finset.range (threads * veclen) with (∃ i ∈ S, (i : ℕ) = k / veclen), a k * b k := by
    intro S
    rw [← sum_parts]
    exact Finset.sum_congr rfl fun i _ => threadsum_eq a b _ _
  constructor
  · rintro ⟨c, hc, hexited, rfl⟩
    obtain ⟨S, hS, hv⟩ := exists_sums_of_allExited hthreads hc hexited 0
    exact ⟨S, hS, hv.trans (hsum S)⟩
  · rintro ⟨S, hS, rfl⟩
    have hleads : (dotprod threads veclen a b).Leads _
        (placed (fun _ => none) (fun _ => 0) (row fun _ => .loop 0)) :=
      leads_rows (fun _ => hS) 1 (Nat.zero_add 1)
    obtain ⟨c, hc, hexited, hshared⟩ := hleads.reachable .init
    refine ⟨c, hc, hexited, ?_⟩
    rw [hshared 0, if_pos (Nat.zero_le _), zero_add, hsum S]

/-- Of two threads with three elements each only the part of the first one may be left. -/
theorem dotprod_iff_two : ∃ c, (dotprod 2 3 (fun k => k) fun _ => 1).Reachable c ∧
    AllExited c ∧ c.shared 0 = 3 :=
  (dotprod_iff (by decide) 3 _ _ 3).mpr ⟨{0}, by decide, by decide⟩

end PthreadBenchmark.VectorSums
