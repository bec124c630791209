import PthreadBenchmark.CopyDeamon.Model

/-! # When a copy that is done is complete

The loop ends in the same way at the end of the file, at an error of `pread` and behind a short
`pread`, and it looks at the result of `pwrite` only to see whether it is negative. -/

namespace PthreadBenchmark.CopyDeamon

open ByteFile

variable {source destination : List UInt8} {rounds : List Round} {r : Round} {offset j : ℕ}
  {out : Outcome} {ws : List (ℕ × ℕ)}

/-! ## Rounds -/

theorem exit_eq_some_iff {out' : Outcome} : exit rounds out' = some out ↔
    rounds = [] ∧ out' = out := by
  rw [exit, Option.ite_none_right_eq_some, Option.some.injEq]

/-- A round in which both calls are successful. -/
structure Written (source : List UInt8) (offset : ℕ) (r : Round) : Prop where
  res_pos : 0 < r.res
  put_nonneg : 0 ≤ r.put
  put_le : r.put ≤ r.res
  le_length : offset + r.res.toNat ≤ source.length

/-- What a round of the loop can do. -/
theorem copyLoop_cons (h : copyLoop source (r :: rounds) offset destination = some out) :
    (rounds = [] ∧ r.res ≤ 0 ∧ out = ⟨destination, offset, true⟩) ∨
    (rounds = [] ∧ 0 < r.res ∧ r.put < 0 ∧ out = ⟨destination, offset, false⟩) ∨
    (Written source offset r ∧ r.res = bufSize ∧
      copyLoop source rounds (offset + r.res.toNat) (pwrite source destination offset r) =
        some out) ∨
    (Written source offset r ∧ rounds = [] ∧
      out = ⟨pwrite source destination offset r, offset + r.res.toNat, true⟩) := by
  simp only [copyLoop, Option.ite_none_left_eq_some, not_not] at h
  obtain ⟨hread, h⟩ := h
  split at h
  · next hend =>
      obtain ⟨hrounds, hout⟩ := exit_eq_some_iff.mp h
      exact .inl ⟨hrounds, hend, hout.symm⟩
  · next hpos =>
      rw [Option.ite_none_left_eq_some, not_not] at h
      obtain ⟨hwrite, h⟩ := h
      split at h
      · next hneg =>
          obtain ⟨hrounds, hout⟩ := exit_eq_some_iff.mp h
          exact .inr (.inl ⟨hrounds, by omega, hneg, hout.symm⟩)
      · next hput =>
          have hwritten : Written source offset r := by
            rw [PreadPermits] at hread
            exact ⟨by omega, by omega, hwrite.2, by omega⟩
          split at h
          · next hfull => exact .inr (.inr (.inl ⟨hwritten, hfull, h⟩))
          · obtain ⟨hrounds, hout⟩ := exit_eq_some_iff.mp h
            exact .inr (.inr (.inr ⟨hwritten, hrounds, hout.symm⟩))

/-- The loop ends: each round but the last one reads a full buffer. -/
theorem length_le_of_copyLoop (h : copyLoop source rounds offset destination = some out) :
    rounds.length ≤ (source.length - offset) / bufSize + 1 := by
  induction rounds generalizing offset destination with
  | nil => cases h
  | cons r rounds ih =>
      rcases copyLoop_cons h with ⟨rfl, -⟩ | ⟨rfl, -⟩ | ⟨hwritten, hfull, hloop⟩ | ⟨-, rfl, -⟩
      · simp
      · simp
      · have hle := ih hloop
        have hlength := hwritten.le_length
        rw [hfull, Int.toNat_natCast] at hle hlength
        have hdiv : (source.length - offset) / bufSize =
            (source.length - (offset + bufSize)) / bufSize + 1 := by
          rw [← Nat.add_div_right _ (by decide)]
          congr 1
          omega
        rw [List.length_cons]
        omega
      · simp

/-! ## What is written -/

/-- The places and lengths of the successful writes of a loop that starts at `offset`. -/
def writes : List Round → ℕ → List (ℕ × ℕ)
  | [], _ => []
  | r :: rounds, offset =>
    if 0 < r.res ∧ 0 ≤ r.put then (offset, r.put.toNat) :: writes rounds (offset + r.res.toNat)
    else []

def Covered (ws : List (ℕ × ℕ)) (j : ℕ) : Prop := ∃ x ∈ ws, x.1 ≤ j ∧ j < x.1 + x.2

/-- The length of a file of length `n` behind the writes. -/
def fileEnd : List (ℕ × ℕ) → ℕ → ℕ
  | [], n => n
  | (place, count) :: ws, n => fileEnd ws (if count = 0 then n else max n (place + count))

theorem writes_of_written (h : Written source offset r) : writes (r :: rounds) offset =
    (offset, r.put.toNat) :: writes rounds (offset + r.res.toNat) := by
  rw [writes, if_pos ⟨h.res_pos, h.put_nonneg⟩]

theorem covered_cons_iff {x : ℕ × ℕ} :
    Covered (x :: ws) j ↔ (x.1 ≤ j ∧ j < x.1 + x.2) ∨ Covered ws j := by
  simp [Covered]

theorem length_put (h : Written source offset r) :
    (((source.drop offset).take r.res.toNat).take r.put.toNat).length = r.put.toNat := by
  have hput : r.put.toNat ≤ r.res.toNat := Int.toNat_le_toNat h.put_le
  have hlength := h.le_length
  simp only [List.length_take, List.length_drop]
  omega

theorem length_pwrite (h : Written source offset r) :
    (pwrite source destination offset r).length = if r.put.toNat = 0 then destination.length
      else max destination.length (offset + r.put.toNat) := by
  simp only [pwrite, length_writeAt, ← List.length_eq_zero_iff, length_put h]

theorem getD_pwrite (h : Written source offset r) :
    (pwrite source destination offset r).getD j 0 =
      if offset ≤ j ∧ j < offset + r.put.toNat then source.getD j 0 else destination.getD j 0 := by
  rw [pwrite, getD_writeAt, length_put h]
  split
  · next hin =>
      have hput : r.put.toNat ≤ r.res.toNat := Int.toNat_le_toNat h.put_le
      rw [List.getD_eq_getElem?_getD, List.getElem?_take_of_lt (by omega),
        List.getElem?_take_of_lt (by omega), List.getElem?_drop, ← List.getD_eq_getElem?_getD]
      congr 1
      omega
  · rfl

/-- What the loop leaves: the destination reads as the source where it has been written to, and as
before elsewhere. -/
structure Result (source destination : List UInt8) (rounds : List Round) (offset : ℕ)
    (out : Outcome) : Prop where
  length : out.destination.length = fileEnd (writes rounds offset) destination.length
  covered : ∀ j, Covered (writes rounds offset) j → out.destination.getD j 0 = source.getD j 0
  uncovered : ∀ j, ¬ Covered (writes rounds offset) j →
    out.destination.getD j 0 = destination.getD j 0
  notDone : out.copyingDone = false ↔ ∃ r ∈ rounds, 0 < r.res ∧ r.put < 0

theorem result_of_writes_eq_nil (out : Outcome) (hwrites : writes rounds offset = [])
    (hdone : out.copyingDone = false ↔ ∃ r ∈ rounds, 0 < r.res ∧ r.put < 0) :
    Result source out.destination rounds offset out where
  length := by
    rw [hwrites]
    rfl
  covered j hj := by simp [hwrites, Covered] at hj
  uncovered j _ := rfl
  notDone := hdone

/-- A round that writes, before the others. -/
theorem Result.cons (hr : Written source offset r)
    (h : Result source (pwrite source destination offset r) rounds (offset + r.res.toNat) out) :
    Result source destination (r :: rounds) offset out where
  length := by
    rw [writes_of_written hr, fileEnd, h.length, length_pwrite hr]
  covered j hj := by
    rw [writes_of_written hr, covered_cons_iff] at hj
    by_cases hlater : Covered (writes rounds (offset + r.res.toNat)) j
    · exact h.covered j hlater
    · rw [h.uncovered j hlater, getD_pwrite hr, if_pos (hj.resolve_right hlater)]
  uncovered j hj := by
    rw [writes_of_written hr, covered_cons_iff, not_or] at hj
    rw [h.uncovered j hj.2, getD_pwrite hr, if_neg hj.1]
  notDone := by
    have hput := hr.put_nonneg
    rw [h.notDone]
    constructor
    · rintro ⟨r', hmem, hfails⟩
      exact ⟨r', List.mem_cons_of_mem r hmem, hfails⟩
    · rintro ⟨r', hmem, hfails⟩
      rcases List.mem_cons.mp hmem with rfl | hmem
      · omega
      · exact ⟨r', hmem, hfails⟩

theorem result_of_copyLoop (h : copyLoop source rounds offset destination = some out) :
    Result source destination rounds offset out := by
  induction rounds generalizing offset destination with
  | nil => cases h
  | cons r rounds ih =>
      rcases copyLoop_cons h with ⟨rfl, hend, rfl⟩ | ⟨rfl, hpos, hneg, rfl⟩ |
        ⟨hwritten, -, hloop⟩ | ⟨hwritten, rfl, rfl⟩
      · apply result_of_writes_eq_nil ⟨destination, offset, true⟩
        · rw [writes, if_neg (by omega)]
        · simp [not_lt.mpr hend]
      · apply result_of_writes_eq_nil ⟨destination, offset, false⟩
        · rw [writes, if_neg (by omega)]
        · simp [hpos, hneg]
      · exact (ih hloop).cons hwritten
      · apply Result.cons hwritten
        exact result_of_writes_eq_nil ⟨pwrite source destination offset r, _, true⟩ rfl (by simp)

/-! ## Results -/

/-- The writes have made the destination as long as the source, and what they have left out was
right before: it was in the destination, or is a zero in a gap. -/
structure Complete (source destination : List UInt8) (rounds : List Round) : Prop where
  length : fileEnd (writes rounds 0) destination.length = source.length
  uncovered : ∀ j < source.length, ¬ Covered (writes rounds 0) j →
    destination.getD j 0 = source.getD j 0

theorem Result.eq_source_iff (h : Result source destination rounds 0 out) :
    out.destination = source ↔ Complete source destination rounds := by
  rw [eq_iff_getD, h.length]
  constructor
  · rintro ⟨hlength, hget⟩
    exact ⟨hlength, fun j hj hout => (h.uncovered j hout).symm.trans (hget j hj)⟩
  · rintro ⟨hlength, hget⟩
    refine ⟨hlength, fun j hj => ?_⟩
    by_cases hin : Covered (writes rounds 0) j
    · exact h.covered j hin
    · rw [h.uncovered j hin, hget j hj hin]

/-- For any source, any destination and all that the calls may return: `copyingDone` is set only on
a complete copy if and only if a call of `open` or `pwrite` fails, so that it is not set, or the
writes reach the end of the source, the destination was not longer, and what the writes left out was
right before. -/
theorem copy_correct_iff (source destination : List UInt8) (sourceFd destinationFd : ℤ)
    (rounds : List Round) (out : Outcome)
    (h : copyWorker source destination sourceFd destinationFd rounds = some out) :
    (out.copyingDone = true → out.destination = source) ↔
      sourceFd < 0 ∨ destinationFd < 0 ∨ (∃ r ∈ rounds, 0 < r.res ∧ r.put < 0) ∨
        Complete source destination rounds := by
  rw [copyWorker] at h
  split at h
  · next hfd =>
      obtain ⟨-, rfl⟩ := exit_eq_some_iff.mp h
      simp [hfd]
  · next hsource =>
      split at h
      · next hfd =>
          obtain ⟨-, rfl⟩ := exit_eq_some_iff.mp h
          simp [hfd]
      · next hdestination =>
          have hresult := result_of_copyLoop h
          rw [← hresult.notDone, ← hresult.eq_source_iff]
          cases out.copyingDone <;> simp [hsource, hdestination]

/-- A file of three bytes over a file of one byte, in one round. -/
theorem copy_correct_three : ∃ out, copyWorker [1, 2, 3] [9] 3 4 [⟨3, 3⟩] = some out ∧
    out.copyingDone = true ∧ out.destination = [1, 2, 3] := by
  have hrun : copyWorker [1, 2, 3] [9] 3 4 [⟨3, 3⟩] = some ⟨[1, 2, 3], 3, true⟩ := by decide
  have hcomplete : Complete [1, 2, 3] [9] [⟨3, 3⟩] := by
    refine ⟨by decide, fun j hj hout => absurd ⟨(0, 3), by decide, Nat.zero_le j, ?_⟩ hout⟩
    simpa using hj
  exact ⟨_, hrun, rfl, (copy_correct_iff _ _ _ _ _ _ hrun).mpr (.inr (.inr (.inr hcomplete))) rfl⟩

/-- The first `pread` fails, and the copy is done. -/
theorem copy_done_after_error : ∃ out,
    copyWorker [1, 2, 3] [] 3 4 [⟨-1, 0⟩] = some out ∧
      ¬ (out.copyingDone = true → out.destination = [1, 2, 3]) :=
  ⟨⟨[], 0, true⟩, by decide, by decide⟩

end PthreadBenchmark.CopyDeamon
