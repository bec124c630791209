import Mathlib.Data.List.Basic
import Mathlib.Logic.Function.Basic

/-! # Windows of a cyclic buffer

A cyclic buffer is a function on indices of which only those below the capacity are
used. A window is the list of cells met from `front` on, wrapping at the capacity. -/

namespace PthreadBenchmark

variable {β : Type*} (buf : ℕ → β) (cap front : ℕ)

/-- The `len` cells from `front` on. -/
def window (len : ℕ) : List β := (List.range len).map fun k => buf ((front + k) % cap)

@[simp] theorem window_length (len : ℕ) : (window buf cap front len).length = len := by
  simp [window]

@[simp] theorem window_zero : window buf cap front 0 = [] := rfl

/-- A window grows at its end. -/
theorem window_succ (len : ℕ) :
    window buf cap front (len + 1) =
      window buf cap front len ++ [buf ((front + len) % cap)] := by
  simp [window, List.range_succ]

/-- A window starts with the cell at its front. -/
theorem window_succ_eq_cons {front : ℕ} (hfront : front < cap) (len : ℕ) :
    window buf cap front (len + 1) = buf front :: window buf cap ((front + 1) % cap) len := by
  have hcell : ∀ k, ((front + 1) % cap + k) % cap = (front + (k + 1)) % cap := by
    intro k
    rw [Nat.mod_add_mod]
    congr 1
    omega
  simp [window, List.range_succ_eq_map, Nat.mod_eq_of_lt hfront, hcell, Function.comp_def]

theorem getElem?_window {len k : ℕ} (hk : k < len) :
    (window buf cap front len)[k]? = some (buf ((front + k) % cap)) := by
  simp [window, hk]

/-- Less than a full turn apart, two steps from the same front end in different cells. -/
theorem add_mod_ne_add_mod {cap front i j : ℕ} (hij : i < j) (hj : j < i + cap) :
    (front + i) % cap ≠ (front + j) % cap := by
  intro heq
  have hdvd : cap ∣ j - i := by
    have hsub := Nat.sub_mod_eq_zero_of_mod_eq heq.symm
    rw [show front + j - (front + i) = j - i by omega] at hsub
    exact Nat.dvd_of_mod_eq_zero hsub
  have hzero := Nat.eq_zero_of_dvd_of_lt hdvd (by omega)
  omega

/-- Writing the cell behind a window that is not full leaves the window alone. -/
theorem window_update_end {len : ℕ} (hlen : len < cap) (x : β) :
    window (Function.update buf ((front + len) % cap) x) cap front len =
      window buf cap front len := by
  apply List.map_congr_left
  intro k hk
  rw [List.mem_range] at hk
  exact Function.update_of_ne (add_mod_ne_add_mod hk (by omega)) _ _

/-- Writing the front cell leaves the window behind it alone. -/
theorem window_update_front {front len : ℕ} (hfront : front < cap) (hlen : len < cap) (x : β) :
    window (Function.update buf front x) cap ((front + 1) % cap) len =
      window buf cap ((front + 1) % cap) len := by
  apply List.map_congr_left
  intro k hk
  rw [List.mem_range] at hk
  have hcell : ((front + 1) % cap + k) % cap = (front + (k + 1)) % cap := by
    rw [Nat.mod_add_mod]
    congr 1
    omega
  have hne : (front + 0) % cap ≠ (front + (k + 1)) % cap :=
    add_mod_ne_add_mod (Nat.succ_pos k) (by omega)
  rw [Nat.add_zero, Nat.mod_eq_of_lt hfront] at hne
  rw [hcell]
  exact Function.update_of_ne hne.symm _ _

/-- The number of steps from `front` to `tail` in a cyclic buffer, as its users compute it
from the two indices. -/
theorem add_mod_eq_iff {cap front tail len : ℕ} (hfront : front < cap) (hlen : len < cap) :
    tail = (front + len) % cap ↔
      tail < cap ∧ len = if front ≤ tail then tail - front else cap - front + tail := by
  have hmod : (front + len) % cap =
      if front + len < cap then front + len else front + len - cap := by
    split
    · exact Nat.mod_eq_of_lt ‹_›
    · rw [Nat.mod_eq_sub_mod (by omega), Nat.mod_eq_of_lt (by omega)]
  rw [hmod]
  split_ifs <;> omega

end PthreadBenchmark
