import PthreadBenchmark.WebAnalysis.Model
import Mathlib.Data.List.GetD

/-! # Where the body is written

Both loops add up the same lengths. The second one writes the body from the length on that it starts
with. -/

namespace PthreadBenchmark.WebAnalysis

variable {entities : List Entity} {e : Entity} {length : ℤ} {b : Buffer}

/-! ## What is wanted -/

/-- The contents of all entities that are not left out, with a newline behind each. -/
def body (entities : List Entity) : List UInt8 :=
  (entities.filter fun e => ¬ e.Skipped).flatMap fun e => e.content ++ segment

/-- The sum of all lengths, with one for each newline. -/
def total (entities : List Entity) : ℤ :=
  ((entities.filter fun e => ¬ e.Skipped).map fun e => e.entityLength + 1).sum

/-! ## The lengths -/

theorem total_cons : total (e :: entities) =
    if e.Skipped then total entities else e.entityLength + 1 + total entities := by
  unfold total
  by_cases h : e.Skipped
  · rw [List.filter_cons_of_neg (by simpa using h), if_pos h]
  · rw [List.filter_cons_of_pos (by simpa using h), if_neg h, List.map_cons, List.sum_cons]

theorem sumLengths_eq (h : InIntRange length) :
    sumLengths entities length = toInt (length + total entities) := by
  induction entities generalizing length with
  | nil =>
      have hzero : total [] = 0 := rfl
      rw [sumLengths, hzero, Int.add_zero, toInt_of_inIntRange h]
  | cons e rest ih =>
      rw [sumLengths, total_cons]
      split
      · exact ih h
      · rw [ih (inIntRange_toInt _), toInt_toInt_add, Int.add_assoc (toInt _), toInt_toInt_add]
        congr 1
        omega

/-- Both loops add up the same lengths. -/
theorem copyEntities_length : (copyEntities entities length b).1 = sumLengths entities length := by
  induction entities generalizing length b with
  | nil => rfl
  | cons e rest ih =>
      rw [copyEntities, sumLengths]
      split
      · exact ih
      · exact ih

/-! ## The body -/

theorem body_cons : body (e :: entities) =
    if e.Skipped then body entities else e.content ++ segment ++ body entities := by
  unfold body
  by_cases h : e.Skipped
  · rw [List.filter_cons_of_neg (by simpa using h), if_pos h]
  · rw [List.filter_cons_of_pos (by simpa using h), if_neg h, List.flatMap_cons]

theorem length_content (h : ¬e.Skipped) : (e.content.length : ℤ) = e.entityLength := by
  have hpositive : 0 < e.entityLength := Int.not_le.mp fun hle => h (.inl hle)
  simp only [Entity.content, List.length_map, List.length_range]
  omega

theorem total_nonneg (entities : List Entity) : 0 ≤ total entities := by
  induction entities with
  | nil => exact Int.le_refl 0
  | cons e rest ih =>
      rw [total_cons]
      split_ifs with h
      · exact ih
      · have hlength := length_content h
        omega

/-! ## Writes -/

theorem write_nil (b : Buffer) (offset : ℤ) : (b.write offset []).bytes = b.bytes := by
  funext a
  simp only [Buffer.write, List.length_nil]
  rw [if_neg (by omega)]

theorem write_congr {b b' : Buffer} (h : b.bytes = b'.bytes) (offset : ℤ) (source : List UInt8) :
    (b.write offset source).bytes = (b'.write offset source).bytes := by
  simp only [Buffer.write, h]

/-- Two writes one behind the other are one. -/
theorem write_append (b : Buffer) (offset : ℤ) (x y : List UInt8) :
    ((b.write offset x).write (offset + x.length) y).bytes = (b.write offset (x ++ y)).bytes := by
  funext a
  simp only [Buffer.write, List.length_append, Int.natCast_add]
  by_cases hy : offset + x.length ≤ a ∧ a < offset + x.length + y.length
  · have hindex : (a - offset).toNat = x.length + (a - (offset + x.length)).toNat := by omega
    have hxy : offset ≤ a ∧ a < offset + (x.length + y.length) := by omega
    rw [if_pos hy, if_pos hxy, hindex, List.getD_append_right _ _ _ _ (by omega),
      Nat.add_sub_cancel_left]
  · rw [if_neg hy]
    by_cases hx : offset ≤ a ∧ a < offset + x.length
    · have hxy : offset ≤ a ∧ a < offset + (x.length + y.length) := by omega
      rw [if_pos hx, if_pos hxy, List.getD_append _ _ _ _ (by omega)]
    · rw [if_neg hx, if_neg (by omega)]

/-! ## The second loop -/

/-- One round of the second loop, as long as nothing wraps around. -/
theorem copyEntities_cons (hskip : ¬e.Skipped) (h : 0 ≤ length)
    (hrange : length + total (e :: entities) < 2 ^ 31) :
    copyEntities (e :: entities) length b = copyEntities entities (length + (e.entityLength + 1))
      ((b.write length e.content).write (length + e.content.length) segment) := by
  have hlength := length_content hskip
  have hrest := total_nonneg entities
  rw [total_cons, if_neg hskip] at hrange
  have hcontent : toInt (length + e.entityLength) = length + e.entityLength :=
    toInt_of_inIntRange ⟨by omega, by omega⟩
  have hsegment : toInt (length + (e.entityLength + 1)) = length + (e.entityLength + 1) :=
    toInt_of_inIntRange ⟨by omega, by omega⟩
  simp only [copyEntities, if_neg hskip, hcontent, hlength, Int.add_assoc, hsegment]

/-- The second loop writes the body from the length on that it starts with. -/
theorem copyEntities_bytes (h : 0 ≤ length) (hrange : length + total entities < 2 ^ 31) :
    (copyEntities entities length b).2.bytes = (b.write length (body entities)).bytes := by
  induction entities generalizing length b with
  | nil => exact (write_nil b length).symm
  | cons e rest ih =>
      by_cases hskip : e.Skipped
      · rw [total_cons, if_pos hskip] at hrange
        rw [body_cons, copyEntities, if_pos hskip, if_pos hskip, ih h hrange]
      · have hlength := length_content hskip
        have hnext : length + (e.entityLength + 1) =
            length + (e.content ++ segment).length := by
          rw [List.length_append, Int.natCast_add, hlength]
          rfl
        rw [copyEntities_cons hskip h hrange]
        rw [total_cons, if_neg hskip] at hrange
        rw [ih (by omega) (by omega), body_cons, if_neg hskip, hnext,
          write_congr (write_append b length e.content segment), write_append]

theorem mem_writes_copyEntities {w : ℤ × ℤ} (hw : w ∈ b.writes) :
    w ∈ (copyEntities entities length b).2.writes := by
  induction entities generalizing length b with
  | nil => exact hw
  | cons e rest ih =>
      rw [copyEntities]
      split
      · exact ih hw
      · exact ih (List.mem_append_left _ (List.mem_append_left _ hw))

/-- The second loop stays in front of a bound exactly if the end that it reaches does. -/
theorem copyEntities_inside_iff {bound : ℤ} (h : 0 ≤ length)
    (hrange : length + total entities < 2 ^ 31) (hlength : length ≤ bound) :
    (∀ w ∈ (copyEntities entities length b).2.writes, 0 ≤ w.1 ∧ w.1 + w.2 ≤ bound) ↔
      (∀ w ∈ b.writes, 0 ≤ w.1 ∧ w.1 + w.2 ≤ bound) ∧ length + total entities ≤ bound := by
  induction entities generalizing length b with
  | nil =>
      have hzero : total [] = 0 := rfl
      simp only [copyEntities, hzero, Int.add_zero, hlength, and_true]
  | cons e rest ih =>
      by_cases hskip : e.Skipped
      · rw [total_cons, if_pos hskip] at hrange ⊢
        rw [copyEntities, if_pos hskip, ih h hrange hlength]
      · have hcontent := length_content hskip
        have hrest := total_nonneg rest
        rw [copyEntities_cons hskip h hrange]
        rw [total_cons, if_neg hskip] at hrange ⊢
        by_cases hnext : length + (e.entityLength + 1) ≤ bound
        · rw [ih (by omega) (by omega) hnext]
          simp only [Buffer.write, List.forall_mem_append, List.forall_mem_singleton, segment,
            List.length_singleton]
          constructor
          · rintro ⟨⟨⟨hw, -⟩, -⟩, hend⟩
            exact ⟨hw, by omega⟩
          · rintro ⟨hw, hend⟩
            exact ⟨⟨⟨hw, by omega⟩, by omega⟩, by omega⟩
        · refine iff_of_false (fun hw => hnext ?_) (fun hw => hnext (by omega))
          have hmem : (length + (e.content.length : ℤ), (1 : ℤ)) ∈
              ((b.write length e.content).write (length + e.content.length) segment).writes := by
            simp [Buffer.write, segment]
          have hlast := (hw _ (mem_writes_copyEntities hmem)).2
          omega

end PthreadBenchmark.WebAnalysis
