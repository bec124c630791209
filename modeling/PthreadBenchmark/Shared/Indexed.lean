import Mathlib.Data.List.Basic
import Mathlib.Algebra.BigOperators.Group.List.Basic
import Mathlib.Algebra.Order.Ring.Int
import Mathlib.Order.Defs.Unbundled

/-! # Loops over the elements of an array

An array is a list, and an index of any sign reads an element or nothing. A loop over a range of
indices keeps an extreme element, or a sum. -/

namespace PthreadBenchmark

variable {α : Type*}

/-- An element of the list, if the index is one of it. -/
def element? (list : List α) (i : ℤ) : Option α := if 0 ≤ i then list[i.toNat]? else none

variable {list : List α} {i lo hi : ℤ} {v m m' : α}

theorem mem_of_element? (h : element? list i = some v) : v ∈ list := by
  unfold element? at h
  split at h
  · exact List.mem_of_getElem? h
  · cases h

theorem exists_element? (h0 : 0 ≤ i) (hi : i < list.length) : ∃ v, element? list i = some v := by
  have hlt : i.toNat < list.length := by omega
  exact ⟨list[i.toNat], by rw [element?, if_pos h0, List.getElem?_eq_getElem hlt]⟩

theorem exists_index_of_mem (h : v ∈ list) :
    ∃ i : ℤ, 0 ≤ i ∧ i < list.length ∧ element? list i = some v := by
  obtain ⟨k, hk, rfl⟩ := List.mem_iff_getElem.mp h
  refine ⟨k, Int.natCast_nonneg k, by exact_mod_cast hk, ?_⟩
  rw [element?, if_pos (Int.natCast_nonneg k), Int.toNat_natCast, List.getElem?_eq_getElem hk]

/-! ## Extremes -/

/-- The value is related to all elements from `lo` up to `hi`. -/
def Bounds (r : α → α → Prop) (list : List α) (lo hi : ℤ) (m : α) : Prop :=
  ∀ i v, lo ≤ i → i < hi → element? list i = some v → r m v

variable {r : α → α → Prop}

theorem bounds_empty (h : hi ≤ lo) : Bounds r list lo hi m :=
  fun _ _ hlo hhi => absurd hhi (by omega)

theorem Bounds.trans [IsTrans α r] (h : Bounds r list lo hi m) (hle : r m' m) :
    Bounds r list lo hi m' :=
  fun i v hlo hhi hv => IsTrans.trans _ _ _ hle (h i v hlo hhi hv)

/-- One more element is looked at. -/
theorem Bounds.next [IsTrans α r] (h : Bounds r list lo hi m) (hle : r m' m)
    (hv : element? list hi = some v) (hnew : r m' v) : Bounds r list lo (hi + 1) m' := by
  intro j u hlo hlt hu
  by_cases hj : j = hi
  · subst hj
    rw [hv] at hu
    cases hu
    exact hnew
  · exact h.trans hle j u hlo (by omega) hu

/-! ## Sums -/

/-- The sum of the elements before an index. -/
def sumBefore (list : List ℤ) (i : ℤ) : ℤ := (list.take i.toNat).sum

theorem sumBefore_zero (list : List ℤ) : sumBefore list 0 = 0 := rfl

theorem sumBefore_length (list : List ℤ) : sumBefore list list.length = list.sum := by
  rw [sumBefore, Int.toNat_natCast, List.take_length]

theorem sumBefore_next {list : List ℤ} {v : ℤ} (h : element? list i = some v) :
    sumBefore list (i + 1) = sumBefore list i + v := by
  unfold element? at h
  split at h
  · next h0 =>
      obtain ⟨hlt, rfl⟩ := List.getElem?_eq_some_iff.mp h
      have hsucc : (i + 1).toNat = i.toNat + 1 := by omega
      rw [sumBefore, sumBefore, hsucc, List.sum_take_succ _ _ hlt]
  · cases h

end PthreadBenchmark
