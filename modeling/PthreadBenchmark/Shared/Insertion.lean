import Mathlib.Data.List.Perm.Basic
import Mathlib.Data.Fintype.Basic
import Mathlib.Order.Basic
import Mathlib.Logic.Equiv.Basic

/-! # Insertion into a sorted prefix of an array

The value is held apart, and the place for it is a hole that moves down through the prefix. -/

namespace PthreadBenchmark

namespace Insertion

variable {α : Type*} {a a' b : ℕ → α} {t : α} {n i j : ℕ}

/-- The first cells of the array. -/
def front (n : ℕ) (a : ℕ → α) : List α := (List.range n).map a

theorem front_succ (n : ℕ) (a : ℕ → α) : front (n + 1) a = front n a ++ [a n] := by
  rw [front, List.range_succ, List.map_append]
  rfl

theorem front_congr (h : ∀ x < n, a' x = a x) : front n a' = front n a :=
  List.map_congr_left fun x hx => h x (List.mem_range.mp hx)

theorem range_swap_perm (hi : i < n) (hj : j < n) :
    ((List.range n).map (Equiv.swap i j)).Perm (List.range n) := by
  have hnodup : ((List.range n).map (Equiv.swap i j)).Nodup :=
    List.nodup_range.map (Equiv.swap i j).injective
  apply (List.perm_ext_iff_of_nodup hnodup List.nodup_range).mpr
  have hmem : ∀ x, x < n → Equiv.swap i j x < n := by
    intro x hx
    rw [Equiv.swap_apply_def]
    split_ifs <;> assumption
  intro x
  simp only [List.mem_map, List.mem_range]
  constructor
  · rintro ⟨y, hy, rfl⟩
    exact hmem y hy
  · exact fun hx => ⟨Equiv.swap i j x, hmem x hx, Equiv.swap_apply_self i j x⟩

/-- Two cells are exchanged. -/
theorem front_swap_perm (hi : i < n) (hj : j < n) (a : ℕ → α) :
    (front n fun x => a (Equiv.swap i j x)).Perm (front n a) := by
  have hmap := (range_swap_perm hi hj).map a
  rwa [List.map_map] at hmap

variable [LinearOrder α]

/-- The first `n` cells are sorted and have the values of those of `b`. -/
structure Prefix (b a : ℕ → α) (n : ℕ) : Prop where
  perm : (front n a).Perm (front n b)
  sorted : ∀ x y, x < y → y < n → a x ≤ a y

/-- The first `i + 1` cells with `t` in the cell `j`, sorted but for this cell. -/
structure Hole (b a : ℕ → α) (t : α) (i j : ℕ) : Prop where
  le : j ≤ i
  perm : (front (i + 1) (Function.update a j t)).Perm (front (i + 1) b)
  sorted : ∀ x y, x < y → y ≤ i → x ≠ j → y ≠ j → a x ≤ a y
  above : ∀ x, j < x → x ≤ i → t < a x

theorem prefix_zero (b a : ℕ → α) : Prefix b a 0 :=
  ⟨.refl _, fun _ y _ hy => absurd hy (Nat.not_lt_zero y)⟩

theorem Prefix.congr (h : Prefix b a n) (heq : ∀ x < n, a' x = a x) : Prefix b a' n where
  perm := by
    rw [front_congr heq]
    exact h.perm
  sorted x y hxy hy := by
    rw [heq x (hxy.trans hy), heq y hy]
    exact h.sorted x y hxy hy

theorem Prefix.pairwise (h : Prefix b a n) : (front n a).Pairwise (· ≤ ·) := by
  rw [front, List.pairwise_map]
  exact List.pairwise_lt_range.imp_of_mem fun _ hy hxy => h.sorted _ _ hxy (List.mem_range.mp hy)

theorem Hole.congr (h : Hole b a t i j) (heq : ∀ x ≤ i, a' x = a x) : Hole b a' t i j where
  le := h.le
  perm := by
    have hupdate : ∀ x < i + 1, Function.update a' j t x = Function.update a j t x := by
      intro x hx
      rw [Function.update_apply, Function.update_apply, heq x (Nat.le_of_lt_succ hx)]
    rw [front_congr hupdate]
    exact h.perm
  sorted x y hxy hy hx hyj := by
    rw [heq x (hxy.le.trans hy), heq y hy]
    exact h.sorted x y hxy hy hx hyj
  above x hx hxi := by
    rw [heq x hxi]
    exact h.above x hx hxi

/-- The next value is taken out of its cell. -/
theorem Prefix.hole (h : Prefix b a i) (hnext : a i = b i) : Hole b a (a i) i i where
  le := le_rfl
  perm := by
    rw [Function.update_eq_self, front_succ, front_succ, hnext]
    exact h.perm.append_right _
  sorted x y hxy hy _ hyi := h.sorted x y hxy (lt_of_le_of_ne hy hyi)
  above x hx hxi := absurd hxi (Nat.not_le_of_lt hx)

/-- The hole moves down. -/
theorem Hole.shift (h : Hole b a t i (j + 1)) (hlt : t < a j) :
    Hole b (Function.update a (j + 1) (a j)) t i j where
  le := (Nat.le_succ j).trans h.le
  perm := by
    have hle := h.le
    have hswap : Function.update (Function.update a (j + 1) (a j)) j t =
        fun x => Function.update a (j + 1) t (Equiv.swap j (j + 1) x) := by
      funext x
      rw [Equiv.swap_apply_def]
      by_cases hx : x = j
      · simp [hx]
      · by_cases hx' : x = j + 1 <;> simp [hx, hx']
    rw [hswap]
    exact (front_swap_perm (by omega) (by omega) _).trans h.perm
  sorted x y hxy hy hx hyj := by
    have hle := h.le
    by_cases hyj' : y = j + 1
    · subst hyj'
      rw [Function.update_self, Function.update_of_ne (by omega)]
      exact h.sorted x j (by omega) (by omega) (by omega) (by omega)
    · rw [Function.update_of_ne hyj']
      by_cases hxj' : x = j + 1
      · subst hxj'
        rw [Function.update_self]
        exact h.sorted j y (by omega) hy (by omega) hyj'
      · rw [Function.update_of_ne hxj']
        exact h.sorted x y hxy hy hxj' hyj'
  above x hx hxi := by
    by_cases hxj : x = j + 1
    · subst hxj
      rwa [Function.update_self]
    · rw [Function.update_of_ne hxj]
      exact h.above x (by omega) hxi

/-- The value is put into the hole. -/
theorem Hole.place (h : Hole b a t i j) (hle : ∀ k, j = k + 1 → a k ≤ t) :
    Prefix b (Function.update a j t) (i + 1) where
  perm := h.perm
  sorted x y hxy hy := by
    have hji := h.le
    by_cases hyj : y = j
    · subst hyj
      rw [Function.update_self, Function.update_of_ne hxy.ne]
      obtain ⟨k, rfl⟩ : ∃ k, y = k + 1 := ⟨y - 1, by omega⟩
      by_cases hxk : x = k
      · subst hxk
        exact hle x rfl
      · exact (h.sorted x k (by omega) (by omega) hxy.ne (by omega)).trans (hle k rfl)
    · rw [Function.update_of_ne hyj]
      by_cases hxj : x = j
      · subst hxj
        rw [Function.update_self]
        exact (h.above y hxy (Nat.le_of_lt_succ hy)).le
      · rw [Function.update_of_ne hxj]
        exact h.sorted x y hxy (Nat.le_of_lt_succ hy) hxj hyj

end Insertion

end PthreadBenchmark
