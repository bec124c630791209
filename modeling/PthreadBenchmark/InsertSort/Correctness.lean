import PthreadBenchmark.InsertSort.Model
import PthreadBenchmark.Shared.Insertion
import PthreadBenchmark.Shared.PthreadConditions

/-! # The numbers are sorted as they come

`func` may read a cell before `main` has read the number for it. Where it does not, what it inserts
and what `main` writes never meet. -/

namespace PthreadBenchmark.InsertSort

open Pthread Insertion

variable {size : ℕ} {input content : ℕ → ℤ} {s : Shared} {ps : Thread → Point} {p q : Point}
  {i : Thread} {c : Config Thread Shared Point Mutex Cond}

/-- The numbers that `main` has read. -/
def Point.typed (size : ℕ) : Point → ℕ
  | .mainLoop i => i
  | .mainUnlock i | .mainRelock i => i + 1
  | .mainJoin | .mainReturn => size
  | _ => 0

/-- `func` reads a cell only when `main` has read the number for it. -/
def Typed (size : ℕ) (_ : Shared) (ps : Thread → Point) (i : Thread) : Prop :=
  match ps i with
  | .funcRead k => k < (ps .main).typed size
  | _ => True

instance (size : ℕ) (s : Shared) (ps : Thread → Point) (i : Thread) :
    Decidable (Typed size s ps i) := by
  unfold Typed
  split <;> infer_instance

/-- Both threads have finished. -/
def Finished (ps : Thread → Point) : Prop := ps .main = .mainReturn ∧ ps .func = .funcReturn

instance (ps : Thread → Point) : Decidable (Finished ps) := inferInstanceAs (Decidable (_ ∧ _))

/-- In the end the array is sorted and has the numbers typed in. -/
def Correct (size : ℕ) (input : ℕ → ℤ) (c : Config Thread Shared Point Mutex Cond) : Prop :=
  Finished (points c) → (front size c.shared.a).Pairwise (· ≤ ·) ∧
    (front size c.shared.a).Perm (front size input)

/-! ## The invariant -/

/-- The cells that `func` has taken. -/
def Point.taken (size : ℕ) : Point → ℕ
  | .funcLoop i | .funcRead i => i
  | .funcUnlock i _ | .shiftTest i _ _ | .shiftLoad i _ _ | .shiftStore i _ _ _
  | .place i _ _ => i + 1
  | .funcReturn => size
  | _ => 0

/-- What `func` has made of the cells that it has taken. -/
def Point.Inserts (size : ℕ) (input a : ℕ → ℤ) : Point → Prop
  | .funcStart => True
  | .funcLoop i => Prefix input a i ∧ i ≤ size
  | .funcRead i => Prefix input a i ∧ i < size
  | .funcUnlock i t => Hole input a t i i ∧ i < size
  | .shiftTest i t j => Hole input a t i j ∧ i < size
  | .shiftLoad i t j => (Hole input a t i j ∧ 0 < j ∧ t < a (j - 1)) ∧ i < size
  | .shiftStore i t j v => (Hole input a t i j ∧ 0 < j ∧ t < a (j - 1) ∧ v = a (j - 1)) ∧ i < size
  | .place i t j => (Hole input a t i j ∧ ∀ k, j = k + 1 → a k ≤ t) ∧ i < size
  | .funcReturn => Prefix input a size
  | _ => False

/-- The points of `main`. -/
def Point.Reads (size : ℕ) : Point → Prop
  | .mainLock | .create | .mainJoin | .mainReturn => True
  | .mainLoop i => i ≤ size
  | .mainUnlock i | .mainRelock i => i < size
  | _ => False

structure Sorting (size : ℕ) (input : ℕ → ℤ) (s : Shared) (ps : Thread → Point) : Prop where
  reads : (ps .main).Reads size
  inserts : (ps .func).Inserts size input s.a
  taken_le : (ps .func).taken size ≤ (ps .main).typed size
  typed : ∀ x, (ps .func).taken size ≤ x → x < (ps .main).typed size → s.a x = input x

theorem sorting_start : Sorting size input ⟨false, content⟩ start where
  reads := trivial
  inserts := trivial
  taken_le := le_rfl
  typed x _ hx := absurd hx (Nat.not_lt_zero x)

/-- What `main` writes is out of the reach of `func`. -/
theorem inserts_congr {a a' : ℕ → ℤ} (h : p.Inserts size input a)
    (heq : ∀ x < p.taken size, a' x = a x) : p.Inserts size input a' := by
  have hhole : ∀ {i t j}, Hole input a t i j → p.taken size = i + 1 → Hole input a' t i j := by
    intro i t j hole htaken
    exact hole.congr fun x hx => heq x (htaken ▸ Nat.lt_succ_of_le hx)
  cases p
  case funcStart => trivial
  case funcLoop i | funcRead i => exact ⟨h.1.congr heq, h.2⟩
  case funcReturn => exact Prefix.congr h heq
  case funcUnlock i t | shiftTest i t j => exact ⟨hhole h.1 rfl, h.2⟩
  case shiftLoad i t j =>
    obtain ⟨⟨hole, hpos, hlt⟩, hi⟩ := h
    have hle := hole.le
    refine ⟨⟨hhole hole rfl, hpos, ?_⟩, hi⟩
    rwa [heq (j - 1) (by simp only [Point.taken]; omega)]
  case shiftStore i t j v =>
    obtain ⟨⟨hole, hpos, hlt, hv⟩, hi⟩ := h
    have hle := hole.le
    have hcell := heq (j - 1) (by simp only [Point.taken]; omega)
    exact ⟨⟨hhole hole rfl, hpos, by rwa [hcell], by rwa [hcell]⟩, hi⟩
  case place i t j =>
    obtain ⟨⟨hole, hplace⟩, hi⟩ := h
    have hle := hole.le
    refine ⟨⟨hhole hole rfl, fun k hk => ?_⟩, hi⟩
    rw [heq k (by simp only [Point.taken]; omega)]
    exact hplace k hk
  all_goals exact h.elim

/-! ## Steps -/

theorem Sorting.step_main (h : Sorting size input s ps)
    (hq : (code size input s (ps .main)).next? = some q) :
    Sorting size input ((code size input s (ps .main)).after s) (Function.update ps .main q) := by
  have hreads := h.reads
  have htaken := h.taken_le
  have htyped := h.typed
  have hmove : ∀ k, q.Reads size → q.typed size = (ps .main).typed size →
      Sorting size input { s with created := k } (Function.update ps .main q) := by
    intro k hqreads hqtyped
    exact ⟨hqreads, h.inserts, htaken.trans_eq hqtyped.symm,
      fun x hx hlt => htyped x hx (hlt.trans_eq hqtyped)⟩
  cases hp : ps .main <;> rw [hp] at hq hreads htaken htyped hmove
  case mainLock | mainJoin =>
    cases hq
    exact hmove s.created trivial rfl
  case create =>
    cases hq
    exact hmove true (Nat.zero_le size) rfl
  case mainUnlock k =>
    cases hq
    exact hmove s.created hreads rfl
  case mainRelock k =>
    cases hq
    exact hmove s.created (Nat.succ_le_of_lt hreads) rfl
  case mainLoop k =>
    simp only [code] at hq ⊢
    by_cases hlt : k < size
    · rw [if_pos hlt] at hq ⊢
      cases hq
      simp only [Point.typed] at htaken htyped
      refine ⟨hlt, ?_, Nat.le_succ_of_le htaken, fun x hx hxk => ?_⟩
      · apply inserts_congr h.inserts
        intro x hx
        exact Function.update_of_ne (hx.trans_le htaken).ne _ _
      · by_cases hxeq : x = k
        · subst hxeq
          exact Function.update_self ..
        · simp only [Op.after, Function.update_of_ne hxeq]
          exact htyped x hx (lt_of_le_of_ne (Nat.le_of_lt_succ hxk) hxeq)
    · rw [if_neg hlt] at hq ⊢
      cases hq
      exact hmove s.created trivial (le_antisymm (Nat.le_of_not_lt hlt) hreads)
  case mainReturn => cases hq
  all_goals exact hreads.elim

theorem Sorting.step_func (h : Sorting size input s ps) (hgood : Typed size s ps .func)
    (hq : (code size input s (ps .func)).next? = some q) :
    Sorting size input ((code size input s (ps .func)).after s) (Function.update ps .func q) := by
  have hinserts := h.inserts
  have htaken := h.taken_le
  have htyped := h.typed
  have hmove : q.Inserts size input s.a → q.taken size = (ps .func).taken size →
      Sorting size input s (Function.update ps .func q) := by
    intro hqinserts hqtaken
    exact ⟨h.reads, hqinserts, hqtaken.trans_le htaken,
      fun x hx hlt => htyped x (hqtaken.symm.trans_le hx) hlt⟩
  have hwrite : ∀ j v, j < (ps .func).taken size →
      q.Inserts size input (Function.update s.a j v) → q.taken size = (ps .func).taken size →
      Sorting size input { s with a := Function.update s.a j v } (Function.update ps .func q) := by
    intro j v hj hqinserts hqtaken
    refine ⟨h.reads, hqinserts, hqtaken.trans_le htaken, fun x hx hlt => ?_⟩
    have hle := hqtaken.symm.trans_le hx
    simp only [Function.update_of_ne (hj.trans_le hle).ne']
    exact htyped x hle hlt
  cases hp : ps .func <;> rw [hp] at hq hinserts htaken htyped hmove hwrite
  case funcStart =>
    rcases Op.await_cases hq with ⟨-, rfl, hafter⟩ | ⟨rfl, hafter⟩
    · rw [code, hafter]
      exact hmove ⟨prefix_zero _ _, Nat.zero_le size⟩ rfl
    · rw [code, hafter]
      exact hmove trivial rfl
  case funcLoop k =>
    simp only [code] at hq ⊢
    by_cases hlt : k < size
    · rw [if_pos hlt] at hq ⊢
      cases hq
      exact hmove ⟨hinserts.1, hlt⟩ rfl
    · rw [if_neg hlt] at hq ⊢
      cases hq
      obtain rfl : k = size := le_antisymm hinserts.2 (Nat.le_of_not_lt hlt)
      exact hmove hinserts.1 rfl
  case funcRead k =>
    cases hq
    have hlt : k < (ps .main).typed size := by simpa [Typed, hp] using hgood
    refine ⟨h.reads, ⟨hinserts.1.hole (htyped k le_rfl hlt), hinserts.2⟩, hlt, ?_⟩
    exact fun x hx hx' => htyped x ((Nat.le_succ k).trans hx) hx'
  case funcUnlock k t =>
    cases hq
    exact hmove hinserts rfl
  case shiftTest k t j =>
    obtain ⟨hole, hk⟩ := hinserts
    simp only [code, Op.next?, Option.some.injEq] at hq
    split at hq
    · next hshift =>
        subst hq
        exact hmove ⟨⟨hole, hshift⟩, hk⟩ rfl
    · next hplace =>
        subst hq
        refine hmove ⟨⟨hole, fun x hx => ?_⟩, hk⟩ rfl
        subst hx
        exact le_of_not_gt fun hlt => hplace ⟨Nat.succ_pos x, hlt⟩
  case shiftLoad k t j =>
    obtain ⟨⟨hole, hpos, hlt⟩, hk⟩ := hinserts
    cases hq
    exact hmove ⟨⟨hole, hpos, hlt, rfl⟩, hk⟩ rfl
  case shiftStore k t j v =>
    obtain ⟨⟨hole, hpos, hlt, rfl⟩, hk⟩ := hinserts
    cases hq
    obtain ⟨x, rfl⟩ : ∃ x, j = x + 1 := ⟨j - 1, by omega⟩
    exact hwrite (x + 1) _ (Nat.lt_succ_of_le hole.le) ⟨hole.shift hlt, hk⟩ rfl
  case place k t j =>
    obtain ⟨⟨hole, hplace⟩, hk⟩ := hinserts
    cases hq
    exact hwrite j t (Nat.lt_succ_of_le hole.le) ⟨hole.place hplace, hk⟩ rfl
  case funcReturn => cases hq
  all_goals exact hinserts.elim

abbrev TypedRun (size : ℕ) (input content : ℕ → ℤ) :
    Config Thread Shared Point Mutex Cond → Prop :=
  (program size input content).ReachableBy (Meets (Typed size) fun _ _ _ => True)

theorem sorting_of_typed (h : TypedRun size input content c) :
    Sorting size input c.shared (points c) := by
  apply conditional_points_invariant h sorting_start
  intro s ps i q hsorting hgood hq
  cases i with
  | main => exact hsorting.step_main hq
  | func => exact hsorting.step_func hgood hq

/-! ## Results -/

/-- For any number of rounds, any numbers and any content of the array before, and any
interleaving: where `func` reads each cell behind `main`, the array is sorted and has the numbers
typed in when both threads have finished. -/
theorem sorted_of_typed (size : ℕ) (input content : ℕ → ℤ)
    (c : Config Thread Shared Point Mutex Cond) (h : TypedRun size input content c) :
    Correct size input c := by
  rintro ⟨-, hfunc⟩
  have hinserts := (sorting_of_typed h).inserts
  rw [hfunc] at hinserts
  have hordered : Prefix input c.shared.a size := hinserts
  exact ⟨hordered.pairwise, hordered.perm⟩

/-- The two numbers 2 and 1, each of which is read and then inserted. -/
def inTurn : Option (Config Thread Shared Point Mutex Cond) :=
  ((program 2 (fun i => 2 - i) fun _ => 0).guarded (Meets (Typed 2) fun _ _ _ => True)).exec
    (program 2 (fun i => 2 - i) fun _ => 0).init
    (List.replicate 4 (Action.run Thread.main none) ++
      List.replicate 6 (Action.run Thread.func none) ++
      List.replicate 3 (Action.run Thread.main none) ++
      List.replicate 9 (Action.run Thread.func none) ++
      List.replicate 3 (Action.run Thread.main none))

theorem sorted_of_typed_two : ∃ c, inTurn = some c ∧ Finished (points c) ∧
    Correct 2 (fun i => 2 - i) c := by
  have hrun : inTurn.isSome = true := by decide
  have hreach : TypedRun 2 (fun i => 2 - i) (fun _ => 0) (inTurn.get hrun) :=
    .of_exec (Option.some_get hrun).symm
  exact ⟨inTurn.get hrun, (Option.some_get hrun).symm, ⟨rfl, rfl⟩, sorted_of_typed _ _ _ _ hreach⟩

/-- `func` makes all its rounds when `main` has read the first number. -/
def ahead : Option (Config Thread Shared Point Mutex Cond) :=
  (program 10 (fun i => -i) fun _ => 0).exec (program 10 (fun i => -i) fun _ => 0).init
    (List.replicate 4 (Action.run Thread.main none) ++
      List.replicate 52 (Action.run Thread.func none) ++
      List.replicate 30 (Action.run Thread.main none))

/-- The numbers from 0 down to -9 are left as they have been typed in. -/
theorem not_sorted_of_ahead : ∃ c, (program 10 (fun i => -i) fun _ => 0).Reachable c ∧
    Finished (points c) ∧ ¬ (front 10 c.shared.a).Pairwise (· ≤ ·) := by
  have hrun : ahead.any (fun c => decide (Finished (points c) ∧
      ¬ (front 10 c.shared.a).Pairwise (· ≤ ·))) = true := by decide +kernel
  obtain ⟨c, hexec, hfinished⟩ := (Option.any_eq_true _ _).mp hrun
  exact ⟨c, System.Reachable.init.exec hexec, of_decide_eq_true hfinished⟩

end PthreadBenchmark.InsertSort
