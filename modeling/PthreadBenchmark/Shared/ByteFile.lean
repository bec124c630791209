import Mathlib.Data.Nat.Notation
import Mathlib.Data.List.GetD
import Mathlib.Order.Lattice
import Mathlib.Order.Nat

/-! # Files

A file is the list of its bytes. A write behind the end leaves a gap, which reads as zeros. -/

namespace PthreadBenchmark

namespace ByteFile

variable {file buf ws : List UInt8} {offset j : ℕ}

/-- To write no bytes does nothing, also behind the end. -/
def writeAt (file buf : List UInt8) (offset : ℕ) : List UInt8 :=
  if buf = [] then file
  else file.take offset ++ List.replicate (offset - file.length) 0 ++ buf ++
    file.drop (offset + buf.length)

theorem length_writeAt : (writeAt file buf offset).length =
    if buf = [] then file.length else max file.length (offset + buf.length) := by
  rw [writeAt]
  split
  · rfl
  · simp only [List.length_append, List.length_take, List.length_replicate, List.length_drop]
    omega

theorem length_front : (file.take offset ++ List.replicate (offset - file.length) 0).length =
    offset := by
  simp only [List.length_append, List.length_take, List.length_replicate]
  omega

theorem getD_front (hj : j < offset) :
    (file.take offset ++ List.replicate (offset - file.length) 0).getD j 0 = file.getD j 0 := by
  by_cases hlt : j < file.length
  · rw [List.getD_append _ _ _ _ (by rw [List.length_take]; omega)]
    simp only [List.getD_eq_getElem?_getD, List.getElem?_take_of_lt hj]
  · rw [List.getD_append_right _ _ _ _ (by rw [List.length_take]; omega),
      List.getD_eq_default file _ (not_lt.mp hlt), List.getD_eq_getElem?_getD,
      List.getElem?_replicate]
    split <;> rfl

/-- What is read at a place after a write. -/
theorem getD_writeAt : (writeAt file buf offset).getD j 0 =
    if offset ≤ j ∧ j < offset + buf.length then buf.getD (j - offset) 0 else file.getD j 0 := by
  rw [writeAt]
  split
  · next hnil =>
      rw [if_neg]
      rw [hnil, List.length_nil]
      omega
  · rw [List.append_assoc]
    by_cases hfront : j < offset
    · rw [List.getD_append _ _ _ _ (by rwa [length_front]), getD_front hfront, if_neg (by omega)]
    · rw [List.getD_append_right _ _ _ _ (by rw [length_front]; omega), length_front]
      by_cases hbuf : j < offset + buf.length
      · rw [List.getD_append _ _ _ _ (by omega), if_pos (by omega)]
      · rw [List.getD_append_right _ _ _ _ (by omega), if_neg (by omega)]
        simp only [List.getD_eq_getElem?_getD, List.getElem?_drop]
        congr 2
        omega

/-- Two files are equal if they are equally long and read the same at each place. -/
theorem eq_iff_getD : file = ws ↔
    file.length = ws.length ∧ ∀ j < ws.length, file.getD j 0 = ws.getD j 0 := by
  refine ⟨fun h => by simp [h], fun ⟨hlength, hget⟩ => List.ext_getElem hlength fun j hj hj' => ?_⟩
  have hj := hget j hj'
  rwa [List.getD_eq_getElem _ _ (hlength ▸ hj'), List.getD_eq_getElem _ _ hj'] at hj

end ByteFile

end PthreadBenchmark
