import PthreadBenchmark.WebAnalysis.Copying

/-! # What is left in the buffer

The second loop goes on from the length that the first one has summed up, so it writes the body
behind as many zeros as it has bytes. -/

namespace PthreadBenchmark.WebAnalysis

variable {entities : List Entity} {b : Buffer} {http : Http}

/-! ## What is wanted and what is left -/

/-- All writes are in the buffer, and a record with data has the whole body and its length. -/
structure Right (entities : List Entity) (r : Option WebInformation × Buffer) : Prop where
  inside : ∀ w ∈ r.2.writes, 0 ≤ w.1 ∧ w.1 + w.2 ≤ bufferSize
  data : ∀ webinfo, r.1 = some webinfo → webinfo.data = true →
    webinfo.dataLength = total entities ∧
      ((List.range webinfo.dataLength.toNat).map fun k : ℕ => r.2.bytes k) = body entities

def Http.IsPost (http : Http) (patternRequestHead : ℤ) : Prop :=
  http.type = patternRequestHead ∧ hasPost http.method = true

/-- The body is behind as many zeros as it has bytes, which are counted too, and goes beyond the end
from half of the buffer on. -/
structure Doubled (entities : List Entity) (r : Option WebInformation × Buffer) : Prop where
  length : r.1.map (·.dataLength) = some (2 * total entities)
  zeros : ∀ k : ℤ, 0 ≤ k → k < total entities → r.2.bytes k = 0
  contents : ∀ (k : ℕ) (hk : k < (body entities).length),
    r.2.bytes (total entities + k) = (body entities)[k]
  inside : (∀ w ∈ r.2.writes, 0 ≤ w.1 ∧ w.1 + w.2 ≤ bufferSize) ↔ 2 * total entities ≤ bufferSize

/-! ## The lengths -/

/-- The sum of the first loop is in the range exactly if the true sum is, up to overflows. -/
theorem toInt_between (x : ℤ) : (toInt x > 1 ∧ toInt x < bufferSize) ↔
    1 < x % 2 ^ 32 ∧ x % 2 ^ 32 < bufferSize := by
  have hrange := inIntRange_toInt x
  have hmod := toInt_emod x
  simp only [InIntRange, bufferSize] at *
  omega

/-- The length that the second loop ends with is never that of the body. -/
theorem doubled_ne (h : 1 < total entities % 2 ^ 32) :
    (copyEntities entities (sumLengths entities 0) b).1 ≠ total entities := by
  rw [copyEntities_length, sumLengths_eq inIntRange_zero, Int.zero_add,
    sumLengths_eq (inIntRange_toInt _), toInt_toInt_add]
  intro heq
  have hmod := toInt_emod (total entities + total entities)
  rw [heq] at hmod
  omega

/-! ## The memory -/

/-- The memory behind the second loop. -/
def copied (entities : List Entity) (buffer : ℤ → UInt8) : Buffer :=
  (copyEntities entities (total entities)
    (Buffer.write ⟨buffer, []⟩ 0 (List.replicate (total entities + 1).toNat 0))).2

theorem doubled_lt (hbuffer : total entities < bufferSize) :
    total entities + total entities < 2 ^ 31 := by
  simp only [bufferSize] at hbuffer
  omega

/-- There are zeros in front of the body. -/
theorem copied_zero (hbuffer : total entities < bufferSize) (buffer : ℤ → UInt8) {k : ℤ}
    (hk : 0 ≤ k) (hlt : k < total entities) : (copied entities buffer).bytes k = 0 := by
  have hrange := doubled_lt hbuffer
  rw [copied, copyEntities_bytes (total_nonneg entities) hrange]
  simp only [Buffer.write, List.length_replicate]
  rw [if_neg (by omega), if_pos (by omega)]
  simp

theorem copied_body (hbuffer : total entities < bufferSize) (buffer : ℤ → UInt8) {k : ℕ}
    (hk : k < (body entities).length) :
    (copied entities buffer).bytes (total entities + k) = (body entities)[k] := by
  have hrange := doubled_lt hbuffer
  rw [copied, copyEntities_bytes (total_nonneg entities) hrange]
  have hindex : (total entities + k - total entities).toNat = k := by omega
  simp only [Buffer.write]
  rw [if_pos (by omega), hindex, List.getD_eq_getElem _ _ hk]

/-- The body goes beyond the end from half of the buffer on. -/
theorem copied_inside_iff (hone : 1 < total entities) (hbuffer : total entities < bufferSize)
    (buffer : ℤ → UInt8) :
    (∀ w ∈ (copied entities buffer).writes, 0 ≤ w.1 ∧ w.1 + w.2 ≤ bufferSize) ↔
      2 * total entities ≤ bufferSize := by
  have hrange := doubled_lt hbuffer
  rw [copied, copyEntities_inside_iff (total_nonneg entities) hrange (Int.le_of_lt hbuffer)]
  simp only [Buffer.write, List.nil_append, List.forall_mem_singleton, List.length_replicate]
  omega

/-! ## The function -/

variable {patternRequestHead : ℤ} {intNtoa : ℕ → String} {currentTime : ℤ} {addr : Tuple4}
  {buffer : ℤ → UInt8}

theorem right_of_not_between (hpost : http.IsPost patternRequestHead)
    (h : ¬ (1 < total (http.entityList.getD []) % 2 ^ 32 ∧
      total (http.entityList.getD []) % 2 ^ 32 < bufferSize)) :
    Right (http.entityList.getD [])
      (analysisWebFromHttp patternRequestHead intNtoa http currentTime addr buffer) := by
  have hlength : ¬ (sumLengths (http.entityList.getD []) 0 > 1 ∧
      sumLengths (http.entityList.getD []) 0 < bufferSize) := by
    rwa [sumLengths_eq inIntRange_zero, Int.zero_add, toInt_between]
  obtain ⟨htype, hmethod⟩ := hpost
  simp only [analysisWebFromHttp, htype, ne_eq, not_true_eq_false, if_false, hmethod, if_true,
    if_neg hlength]
  refine ⟨fun w hw => absurd hw List.not_mem_nil, ?_⟩
  intro webinfo hsome hdata
  cases hsome
  cases hdata

/-- A body of more than one byte that is shorter than the buffer. -/
theorem doubled_of_between (hpost : http.IsPost patternRequestHead)
    (hone : 1 < total (http.entityList.getD []))
    (hbuffer : total (http.entityList.getD []) < bufferSize) :
    Doubled (http.entityList.getD [])
      (analysisWebFromHttp patternRequestHead intNtoa http currentTime addr buffer) := by
  generalize hentities : http.entityList.getD [] = entities at hone hbuffer ⊢
  have hrange := doubled_lt hbuffer
  have hnonneg := total_nonneg entities
  have hlength : sumLengths entities 0 = total entities := by
    rw [sumLengths_eq inIntRange_zero, Int.zero_add,
      toInt_of_inIntRange ⟨by omega, by omega⟩]
  have hdoubled : sumLengths entities (total entities) = 2 * total entities := by
    rw [sumLengths_eq ⟨by omega, by omega⟩, toInt_of_inIntRange ⟨by omega, by omega⟩]
    omega
  obtain ⟨htype, hmethod⟩ := hpost
  simp only [analysisWebFromHttp, htype, ne_eq, not_true_eq_false, if_false, hmethod, if_true,
    hentities, hlength, if_pos (And.intro hone hbuffer), copyEntities_length, hdoubled]
  exact ⟨rfl, fun k => copied_zero hbuffer buffer, fun k => copied_body hbuffer buffer,
    copied_inside_iff hone hbuffer buffer⟩

/-- The body of a POST request is right exactly if none is stored: the sum of the lengths is out of
the range in which the function uses the buffer. One that is stored without an overflow is behind
as many zeros. -/
theorem analysis_right_iff (patternRequestHead : ℤ) (intNtoa : ℕ → String) (http : Http)
    (currentTime : ℤ) (addr : Tuple4) (buffer : ℤ → UInt8)
    (hpost : http.IsPost patternRequestHead) :
    (Right (http.entityList.getD [])
        (analysisWebFromHttp patternRequestHead intNtoa http currentTime addr buffer) ↔
      ¬ (1 < total (http.entityList.getD []) % 2 ^ 32 ∧
        total (http.entityList.getD []) % 2 ^ 32 < bufferSize)) ∧
    (1 < total (http.entityList.getD []) → total (http.entityList.getD []) < bufferSize →
      Doubled (http.entityList.getD [])
        (analysisWebFromHttp patternRequestHead intNtoa http currentTime addr buffer)) := by
  refine ⟨⟨?_, right_of_not_between hpost⟩, doubled_of_between hpost⟩
  intro hright hbetween
  have hlength : sumLengths (http.entityList.getD []) 0 > 1 ∧
      sumLengths (http.entityList.getD []) 0 < bufferSize := by
    rwa [sumLengths_eq inIntRange_zero, Int.zero_add, toInt_between]
  have hdata := hright.data
  obtain ⟨htype, hmethod⟩ := hpost
  simp only [analysisWebFromHttp, htype, ne_eq, not_true_eq_false, if_false, hmethod, if_true,
    if_pos hlength] at hdata
  exact doubled_ne hbetween.1 (hdata _ rfl rfl).1

/-- A POST request with one entity of one byte. -/
def onePost : Http := ⟨1, "POST", "host", "/", "", some [⟨1, fun _ => 97⟩]⟩

/-- A POST request whose entities are all left out: one is empty, one has a negative length and one
is too long. -/
def skippedPost : Http :=
  ⟨1, "POST", "host", "/", "", some [⟨0, fun _ => 97⟩, ⟨-1, fun _ => 98⟩, ⟨104857601, fun _ => 99⟩]⟩

theorem analysis_right_iff_skipped :
    Right (skippedPost.entityList.getD [])
      (analysisWebFromHttp 1 (fun _ => "") skippedPost 0 ⟨0, 0⟩ fun _ => 0) ∧
    Doubled (onePost.entityList.getD [])
      (analysisWebFromHttp 1 (fun _ => "") onePost 0 ⟨0, 0⟩ fun _ => 0) :=
  ⟨(analysis_right_iff 1 (fun _ => "") skippedPost 0 ⟨0, 0⟩ (fun _ => 0)
      ⟨rfl, by decide⟩).1.mpr (by decide),
    (analysis_right_iff 1 (fun _ => "") onePost 0 ⟨0, 0⟩ (fun _ => 0) ⟨rfl, by decide⟩).2
      (by decide) (by decide)⟩

/-- The data of the one byte has a length of four bytes in place of two. -/
theorem analysis_wrong_one : onePost.IsPost 1 ∧
    ((analysisWebFromHttp 1 (fun _ => "") onePost 0 ⟨0, 0⟩ fun _ => 0).1.map
      fun webinfo => (webinfo.data, webinfo.dataLength)) = some (true, 4) ∧
    ¬ Right (onePost.entityList.getD [])
      (analysisWebFromHttp 1 (fun _ => "") onePost 0 ⟨0, 0⟩ fun _ => 0) := by
  have hrun : ((analysisWebFromHttp 1 (fun _ => "") onePost 0 ⟨0, 0⟩ fun _ => 0).1.map
      fun webinfo => (webinfo.data, webinfo.dataLength)) = some (true, 4) := by decide
  refine ⟨⟨rfl, by decide⟩, hrun, fun h => ?_⟩
  obtain ⟨webinfo, hsome, heq⟩ := Option.map_eq_some_iff.mp hrun
  obtain ⟨hdata, hlength⟩ := Prod.mk.inj heq
  have htotal := (h.data webinfo hsome hdata).1
  rw [hlength] at htotal
  exact absurd htotal (by decide)

end PthreadBenchmark.WebAnalysis
