import Mathlib.Data.List.Basic
import Mathlib.Logic.Function.Basic

/-! # Segments of an array

An array is a function on indices. A segment is read as a list and written from a list. -/

namespace PthreadBenchmark

variable {ν : Type*}

/-- The `len` cells from `base` on. -/
def segment (m : ℕ → ν) (base len : ℕ) : List ν := (List.range' base len).map m

/-- The memory with the elements of the list in the cells from `base` on. -/
def store (m : ℕ → ν) (base : ℕ) : List ν → (ℕ → ν)
  | [] => m
  | v :: l => store (Function.update m base v) (base + 1) l

variable {m m' : ℕ → ν} {base len : ℕ} {l : List ν}

@[simp] theorem segment_length : (segment m base len).length = len := by simp [segment]

@[simp] theorem segment_zero : segment m base 0 = [] := rfl

theorem segment_succ : segment m base (len + 1) = m base :: segment m (base + 1) len := rfl

theorem segment_add (len₁ len₂ : ℕ) :
    segment m base (len₁ + len₂) = segment m base len₁ ++ segment m (base + len₁) len₂ := by
  rw [segment, ← List.range'_append_1, List.map_append]
  rfl

theorem segment_congr (h : ∀ i, base ≤ i → i < base + len → m i = m' i) :
    segment m base len = segment m' base len := by
  apply List.map_congr_left
  intro i hi
  obtain ⟨h1, h2⟩ := List.mem_range'_1.mp hi
  exact h i h1 h2

/-- A store leaves the cells outside its segment alone. -/
theorem store_of_not_mem (m : ℕ → ν) (l : List ν) {i : ℕ} (h : i < base ∨ base + l.length ≤ i) :
    store m base l i = m i := by
  induction l generalizing m base with
  | nil => rfl
  | cons v l ih =>
      simp only [List.length_cons] at h
      rw [store, ih (Function.update m base v) (by omega), Function.update_of_ne (by omega)]

/-- What has been stored is read back. -/
theorem segment_store (m : ℕ → ν) (base : ℕ) (l : List ν) :
    segment (store m base l) base l.length = l := by
  induction l generalizing m base with
  | nil => rfl
  | cons v l ih =>
      rw [List.length_cons, segment_succ, store, ih, store_of_not_mem _ _ (by omega),
        Function.update_self]

end PthreadBenchmark
