import PthreadBenchmark.HashInvert.Model
import PthreadBenchmark.Shared.BitTable
import PthreadBenchmark.Shared.Collect
import Mathlib.Data.Rat.Floor
import Mathlib.Tactic.FieldSimp
import Mathlib.Tactic.Ring

/-! # `reconstruct0` and `reconstruct1`

The two ways of `hashInvertM.c` to find the members of a bloom filter. Doubles are read as exact
numbers; where the code computes with integers, a value that is not an `int` is a fault, and so is
an access behind the last word of `M`. -/

namespace PthreadBenchmark.HashInvert

open BitTable

variable {w : ℕ}

/-! ## Words -/

/-- `(int) s`. -/
def truncate (s : ℚ) : ℤ := if 0 ≤ s then ⌊s⌋ else ⌈s⌉

def checkLocation (size value : ℕ) (M : ℕ → BitVec w) : Option Bool :=
  if value / w < size then some (M (value / w) &&& mask w value != 0#w) else none

def setLocation (size value : ℕ) (M : ℕ → BitVec w) : Option (ℕ → BitVec w) :=
  if value / w < size then
    some (Function.update M (value / w) (M (value / w) ||| mask w value))
  else none

def resetLocation (size value : ℕ) (M : ℕ → BitVec w) : Option (ℕ → BitVec w) :=
  if value / w < size then
    some (Function.update M (value / w) (M (value / w) &&& ~~~ mask w value))
  else none

def setM (size : ℕ) (M : ℕ → BitVec w) : ℕ → BitVec w :=
  fun i => if i < size then M i ||| ~~~ 0#w else M i

def resetM (size : ℕ) (M : ℕ → BitVec w) : ℕ → BitVec w := fun i => if i < size then 0#w else M i

/-! ## The filter -/

/-- What the threads read and do not write; `w` is `NUM_BITS`. -/
structure Bloom (w : ℕ) where
  numBits_pos : 0 < w
  vectSize : ℕ
  nVertices : ℕ
  bloomVector : ℕ → BitVec w

/-- A filter with hash functions `(aHash[h] * v + bHash[h]) % m[h]` into it, and no bits behind its
end. -/
structure Hashed (w : ℕ) extends Bloom w where
  aHash : ℕ → ℕ
  bHash : ℕ → ℕ
  m : ℕ → ℕ
  aHash_pos : ∀ h, 0 < aHash h
  bHash_lt : ∀ h, bHash h < m h
  m_le : ∀ h, m h ≤ vectSize
  clear : ∀ i, vectSize ≤ i → ¬ Mem bloomVector i

namespace Bloom

variable (f : Bloom w)

/-- The number of words of `M` and of `checked`. -/
def size : ℕ := wordCount f.nVertices w

/-- The number of words of the filter. -/
def words : ℕ := wordCount f.vectSize w

/-- `v = a->bloom_vector[loc] & (1 << (i%NUM_BITS))`. -/
def bits (loc i : ℕ) : BitVec w := f.bloomVector loc &&& mask w i

end Bloom

namespace Hashed

variable (f : Hashed w)

/-- `is_in` is code of another file: it tests the bits of the three hash values. -/
def isIn (v : ℕ) : Prop := ∀ h < 3, Mem f.bloomVector ((f.aHash h * v + f.bHash h) % f.m h)

instance (v : ℕ) : Decidable (f.isIn v) :=
  inferInstanceAs (Decidable (∀ h < 3, Mem f.bloomVector ((f.aHash h * v + f.bHash h) % f.m h)))

/-- The value that `reconstruct0` assigns to `sample`, before the cast. -/
def value0 (i h count : ℕ) : ℚ :=
  ((i : ℚ) - f.bHash h) / f.aHash h + ((count : ℚ) * f.m h) / f.aHash h

/-- The value `s` of `reconstruct1`. -/
def value1 (i h count : ℕ) : ℚ := ((i : ℚ) - f.bHash h + count * f.m h) / f.aHash h

/-! ## Termination -/

/-- What both values are the quotient of, by `aHash[h]`. -/
def numerator (i h count : ℕ) : ℤ := i - f.bHash h + count * f.m h

def sample (i h count : ℕ) : ℤ := (f.numerator i h count).tdiv (f.aHash h)

theorem truncate_div (x : ℤ) {a : ℕ} (ha : 0 < a) : truncate ((x : ℚ) / a) = x.tdiv a := by
  have hpos : (0 : ℚ) < a := Nat.cast_pos.mpr ha
  rw [truncate]
  split
  · next hle =>
      have hx : 0 ≤ x := by
        have hmul := (le_div_iff₀ hpos).mp hle
        rw [zero_mul] at hmul
        exact_mod_cast hmul
      rw [Rat.floor_intCast_div_natCast, Int.tdiv_eq_ediv_of_nonneg hx]
  · next hlt =>
      have hx : 0 ≤ -x := by
        have hmul := (div_lt_iff₀ hpos).mp (not_le.mp hlt)
        rw [zero_mul] at hmul
        have hneg : x < 0 := by exact_mod_cast hmul
        omega
      rw [← neg_inj, ← Int.floor_neg, ← neg_div, ← Int.cast_neg, Rat.floor_intCast_div_natCast,
        ← Int.neg_tdiv, Int.tdiv_eq_ediv_of_nonneg hx]

theorem value0_eq (i h count : ℕ) :
    f.value0 i h count = (f.numerator i h count : ℚ) / f.aHash h := by
  rw [value0, numerator, ← add_div]
  push_cast
  rfl

theorem value1_eq (i h count : ℕ) :
    f.value1 i h count = (f.numerator i h count : ℚ) / f.aHash h := by
  rw [value1, numerator]
  push_cast
  rfl

theorem truncate_value0 (i h count : ℕ) : truncate (f.value0 i h count) = f.sample i h count := by
  rw [value0_eq, truncate_div _ (f.aHash_pos h), sample]

theorem truncate_value1 (i h count : ℕ) : truncate (f.value1 i h count) = f.sample i h count := by
  rw [value1_eq, truncate_div _ (f.aHash_pos h), sample]

theorem lt_of_sample_lt {i h count : ℕ} (hlt : f.sample i h count < f.nVertices) :
    f.numerator i h count < f.aHash h * f.nVertices := by
  by_contra hle
  have hpos : (0 : ℤ) < f.aHash h := Int.natCast_pos.mpr (f.aHash_pos h)
  have hprod : (0 : ℤ) ≤ f.aHash h * f.nVertices := by positivity
  rw [sample, Int.tdiv_eq_ediv_of_nonneg (hprod.trans (not_lt.mp hle)),
    Int.ediv_lt_iff_lt_mul hpos, mul_comm] at hlt
  exact hle hlt

theorem numerator_succ (i h count : ℕ) :
    f.numerator i h (count + 1) = f.numerator i h count + f.m h := by
  rw [numerator, numerator]
  push_cast
  ring

/-- A bound on the rounds that a loop still makes, with `sample` and `count` at `k`. -/
def remaining (i h : ℕ) (k : ℤ × ℕ) : ℕ :=
  if k.1 < f.nVertices then 1 + (f.aHash h * f.nVertices - f.numerator i h k.2).toNat else 0

/-- `sample<nVertices`. -/
def test (k : ℤ × ℕ) : Bool := k.1 < f.nVertices

def next0 (i h : ℕ) (k : ℤ × ℕ) : ℤ × ℕ := (truncate (f.value0 i h k.2), k.2 + 1)

def next1 (i h : ℕ) (k : ℤ × ℕ) : ℤ × ℕ := (truncate (f.value1 i h k.2), k.2 + 1)

theorem remaining_lt (i h : ℕ) {k : ℤ × ℕ} (hk : f.test k = true) :
    f.remaining i h (f.sample i h k.2, k.2 + 1) < f.remaining i h k := by
  have hm : 0 < f.m h := (Nat.zero_le _).trans_lt (f.bHash_lt h)
  rw [test, decide_eq_true_iff] at hk
  rw [remaining, remaining, if_pos hk]
  split
  · next hlt =>
      have hnumerator := f.lt_of_sample_lt hlt
      rw [numerator_succ]
      omega
  · omega

theorem remaining_next0_lt (i h : ℕ) (k : ℤ × ℕ) (hk : f.test k = true) :
    f.remaining i h (f.next0 i h k) < f.remaining i h k := by
  rw [next0, truncate_value0]
  exact f.remaining_lt i h hk

theorem remaining_next1_lt (i h : ℕ) (k : ℤ × ℕ) (hk : f.test k = true) :
    f.remaining i h (f.next1 i h k) < f.remaining i h k := by
  rw [next1, truncate_value1]
  exact f.remaining_lt i h hk

/-! ## `reconstruct0` -/

/-- The body of the `while` loop. -/
def body0 (i h : ℕ) (k : ℤ × ℕ) (M : ℕ → BitVec w) : Option (ℕ → BitVec w) := do
  let offset ← toInt (i - f.bHash h)
  let product ← toInt (k.2 * f.m h)
  let sum ← toInt (offset.tmod (f.aHash h) + product.tmod (f.aHash h))
  let M ←
    if sum.tmod (f.aHash h) = 0 then do
      let sample ← toInt (truncate (f.value0 i h k.2))
      if 0 < sample then resetLocation f.size sample.toNat M else some M
    else some M
  let _ ← toInt (truncate (f.value0 i h k.2))
  let _ ← toInt (k.2 + 1)
  return M

def while0 (i h : ℕ) : ℤ × ℕ → (ℕ → BitVec w) → Option (ℕ → BitVec w) :=
  Collect.whileM f.test (f.next0 i h) (f.remaining i h) (f.remaining_next0_lt i h) (f.body0 i h)

/-- The body of the loop over the bits of a word. -/
def bit0 (loc i : ℕ) (M : ℕ → BitVec w) : Option (ℕ → BitVec w) :=
  if f.bits loc i = 0#w then (List.range 3).foldlM (fun M h => f.while0 i h (0, 0) M) M else some M

def reconstruct0 (loc : ℕ) (M : ℕ → BitVec w) : Option (ℕ → BitVec w) := do
  let _ ← toInt ((loc + 1) * w)
  (List.range' (loc * w) w).foldlM (fun M i => f.bit0 loc i M) M

/-- `reconstruct0` over all words, after `setM`. -/
def run0 (M : ℕ → BitVec w) : Option (ℕ → BitVec w) := do
  let size ← ceilDiv f.nVertices w
  let words ← ceilDiv f.vectSize w
  (List.range words.toNat).foldlM (fun M loc => f.reconstruct0 loc M) (setM size.toNat M)

/-! ## `reconstruct1` -/

/-- What `reconstruct1` writes to. -/
structure Tables (w : ℕ) where
  checked : ℕ → BitVec w
  M : ℕ → BitVec w
  localCount : ℕ
  numMemberships : ℕ

/-- `setLocation(sample,checked)` and what hangs on it. -/
def check (value : ℕ) (s : Tables w) : Option (Tables w) := do
  let checked ← setLocation f.size value s.checked
  let M ← if f.isIn value then setLocation f.size value s.M else some s.M
  return { s with checked := checked, M := M, localCount := s.localCount + 1 }

/-- The body of the `while` loop. -/
def body1 (i h : ℕ) (k : ℤ × ℕ) (s : Tables w) : Option (Tables w) := do
  let sample ← toInt (truncate (f.value1 i h k.2))
  let s ←
    if (⌊f.value1 i h k.2⌋ : ℚ) = f.value1 i h k.2 ∧ 0 < sample ∧ sample < f.nVertices then do
      let isChecked ← checkLocation f.size sample.toNat s.checked
      if isChecked then some s else f.check sample.toNat s
    else some s
  let _ ← toInt (k.2 + 1)
  return s

def while1 (i h : ℕ) : ℤ × ℕ → Tables w → Option (Tables w) :=
  Collect.whileM f.test (f.next1 i h) (f.remaining i h) (f.remaining_next1_lt i h) (f.body1 i h)

/-- The body of the loop over the bits of a word. -/
def bit1 (loc i : ℕ) (s : Tables w) : Option (Tables w) :=
  if f.bits loc i ≠ 0#w then (List.range 3).foldlM (fun s h => f.while1 i h (0, 0) s) s else some s

def reconstruct1 (loc : ℕ) (s : Tables w) : Option (Tables w) := do
  let _ ← toInt ((loc + 1) * w)
  let s ← (List.range' (loc * w) w).foldlM (fun s i => f.bit1 loc i s) { s with localCount := 0 }
  return { s with numMemberships := s.numMemberships + s.localCount }

/-- `reconstruct1` over all words, after `resetM`; `main` has cleared `checked`. -/
def run1 (M : ℕ → BitVec w) : Option (Tables w) := do
  let size ← ceilDiv f.nVertices w
  let words ← ceilDiv f.vectSize w
  (List.range words.toNat).foldlM (fun s loc => f.reconstruct1 loc s)
    ⟨fun _ => 0#w, resetM size.toNat M, 0, 0⟩

end Hashed

end PthreadBenchmark.HashInvert
