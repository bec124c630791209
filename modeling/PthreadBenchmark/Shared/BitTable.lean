import Mathlib.Logic.Function.Basic
import Mathlib.Data.Nat.Notation

/-! # Sets of numbers as tables of words

The number `v` is the bit `v % w` of the word `v / w`, for words of `w` bits. -/

namespace PthreadBenchmark

namespace BitTable

variable {w u v : ℕ} {x y : BitVec w} {table : ℕ → BitVec w}

/-- The bit of `v` in its word. -/
def mask (w v : ℕ) : BitVec w := 1#w <<< (v % w)

def Mem (table : ℕ → BitVec w) (v : ℕ) : Prop := (table (v / w)).getLsbD (v % w) = true

instance (table : ℕ → BitVec w) (v : ℕ) : Decidable (Mem table v) :=
  inferInstanceAs (Decidable (_ = true))

theorem getLsbD_mask (hw : 0 < w) (v k : ℕ) : (mask w v).getLsbD k = decide (k = v % w) := by
  have hlt : v % w < w := Nat.mod_lt v hw
  rw [mask, ← BitVec.twoPow_eq, BitVec.getLsbD_twoPow]
  simp [hlt, eq_comm]

theorem and_mask_ne_zero_iff (hw : 0 < w) : x &&& mask w v ≠ 0#w ↔ x.getLsbD (v % w) = true := by
  constructor
  · intro hne
    by_contra hbit
    refine hne (BitVec.eq_of_getLsbD_eq fun k _ => ?_)
    rw [BitVec.getLsbD_and, getLsbD_mask hw, BitVec.getLsbD_zero]
    by_cases hk : k = v % w
    · subst hk
      simpa using hbit
    · simp [hk]
  · intro hbit heq
    have hk := congrArg (BitVec.getLsbD · (v % w)) heq
    simp [getLsbD_mask hw, hbit] at hk

theorem eq_of_div_mod (hdiv : u / w = v / w) (hmod : u % w = v % w) : u = v := by
  rw [← Nat.div_add_mod u w, ← Nat.div_add_mod v w, hdiv, hmod]

/-- The word of `v` is replaced. -/
theorem mem_update_iff : Mem (Function.update table (v / w) x) u ↔
    if u / w = v / w then x.getLsbD (u % w) = true else Mem table u := by
  unfold Mem
  by_cases hdiv : u / w = v / w
  · rw [hdiv, Function.update_self, if_pos rfl]
  · rw [Function.update_of_ne hdiv, if_neg hdiv]

theorem getLsbD_or_mask_iff (hw : 0 < w) (k : ℕ) :
    (x ||| mask w v).getLsbD k = true ↔ x.getLsbD k = true ∨ k = v % w := by
  rw [BitVec.getLsbD_or, getLsbD_mask hw, Bool.or_eq_true, decide_eq_true_iff]

theorem getLsbD_and_not_mask_iff (hw : 0 < w) {k : ℕ} (hk : k < w) :
    (x &&& ~~~ mask w v).getLsbD k = true ↔ x.getLsbD k = true ∧ k ≠ v % w := by
  rw [BitVec.getLsbD_and, BitVec.getLsbD_not, getLsbD_mask hw]
  simp [hk]

/-- A number is added. -/
theorem mem_insert_iff (hw : 0 < w) :
    Mem (Function.update table (v / w) (table (v / w) ||| mask w v)) u ↔ Mem table u ∨ u = v := by
  rw [mem_update_iff]
  by_cases hdiv : u / w = v / w
  · rw [if_pos hdiv, getLsbD_or_mask_iff hw, Mem, hdiv]
    exact or_congr_right ⟨eq_of_div_mod hdiv, fun heq => heq ▸ rfl⟩
  · rw [if_neg hdiv]
    exact (or_iff_left fun heq => hdiv (congrArg (· / w) heq)).symm

/-- A number is removed. -/
theorem mem_erase_iff (hw : 0 < w) :
    Mem (Function.update table (v / w) (table (v / w) &&& ~~~ mask w v)) u ↔
      Mem table u ∧ u ≠ v := by
  rw [mem_update_iff]
  by_cases hdiv : u / w = v / w
  · rw [if_pos hdiv, getLsbD_and_not_mask_iff hw (Nat.mod_lt u hw), Mem, hdiv]
    exact and_congr_right fun _ => not_congr ⟨eq_of_div_mod hdiv, fun heq => heq ▸ rfl⟩
  · rw [if_neg hdiv]
    exact (and_iff_left fun heq => hdiv (congrArg (· / w) heq)).symm

/-- A word with a bit that another one has not. -/
theorem exists_of_or_ne (h : x ||| y ≠ y) :
    ∃ k < w, x.getLsbD k = true ∧ y.getLsbD k = false := by
  by_contra hall
  refine h (BitVec.eq_of_getLsbD_eq fun k hk => ?_)
  rw [BitVec.getLsbD_or]
  cases hx : x.getLsbD k with
  | false => rfl
  | true =>
      cases hy : y.getLsbD k with
      | true => rfl
      | false => exact absurd ⟨k, hk, hx, hy⟩ hall

theorem getLsbD_of_or_eq (h : x ||| y = y) {k : ℕ} (hx : x.getLsbD k = true) :
    y.getLsbD k = true := by
  rw [← h, BitVec.getLsbD_or, hx, Bool.true_or]

end BitTable

end PthreadBenchmark
