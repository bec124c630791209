import PthreadBenchmark.Shared.Segment
import Mathlib.Algebra.Order.Ring.Int

/-! # Numbers in a byte memory

A number of `k` bytes is kept with its lowest byte first. -/

namespace PthreadBenchmark

namespace LittleEndian

variable {m : ℕ → UInt8} {pos pos' k k' v i : ℕ}

/-- The `k` bytes of a number, which is cut off to them. -/
def bytes : ℕ → ℕ → List UInt8
  | 0, _ => []
  | k + 1, v => UInt8.ofNat v :: bytes k (v / 256)

def number : List UInt8 → ℕ
  | [] => 0
  | b :: l => b.toNat + 256 * number l

def load (m : ℕ → UInt8) (pos k : ℕ) : ℕ := number (segment m pos k)

def put (m : ℕ → UInt8) (pos k v : ℕ) : ℕ → UInt8 := store m pos (bytes k v)

@[simp] theorem length_bytes (k v : ℕ) : (bytes k v).length = k := by
  induction k generalizing v with
  | zero => rfl
  | succ k ih => simp [bytes, ih]

theorem number_bytes (k v : ℕ) : number (bytes k v) = v % 256 ^ k := by
  induction k generalizing v with
  | zero => simp [bytes, number, Nat.mod_one]
  | succ k ih =>
      have hbyte : (UInt8.ofNat v).toNat = v % 256 := by simp
      rw [bytes, number, ih, hbyte, Nat.pow_succ', Nat.mod_mul]

/-- What has been put is loaded. -/
theorem load_put_self (m : ℕ → UInt8) (pos k v : ℕ) : load (put m pos k v) pos k = v % 256 ^ k := by
  have hsegment := segment_store m pos (bytes k v)
  rw [length_bytes] at hsegment
  rw [load, put, hsegment, number_bytes]

theorem put_of_not_mem (h : i < pos ∨ pos + k ≤ i) : put m pos k v i = m i :=
  store_of_not_mem m _ (by rwa [length_bytes])

/-- What has been put elsewhere does not matter. -/
theorem load_put_of_disjoint (h : pos + k ≤ pos' ∨ pos' + k' ≤ pos) :
    load (put m pos' k' v) pos k = load m pos k := by
  refine congrArg number (segment_congr fun i hlow hhigh => put_of_not_mem ?_)
  omega

theorem load_congr {m' : ℕ → UInt8} (h : ∀ i, pos ≤ i → i < pos + k → m i = m' i) :
    load m pos k = load m' pos k :=
  congrArg number (segment_congr h)

end LittleEndian

end PthreadBenchmark
