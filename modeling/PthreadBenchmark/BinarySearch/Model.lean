import PthreadBenchmark.Shared.ForkJoin

/-! # The threads of `BinarySearch.c` and `con.c`

The shared memory is `arr` and the flag `found`. Indices are integers: those of an array
of 100 cells do not overflow. -/

namespace PthreadBenchmark.BinarySearch

open Thread

inductive Var where
  | arr (i : ℤ)
  | found
  deriving DecidableEq, Repr

/-- `(low + high) / 2`, which rounds towards zero. -/
def mid (low high : ℤ) : ℤ := (low + high).tdiv 2

theorem mid_mem {low high : ℤ} (h : low ≤ high) : low ≤ mid low high ∧ mid low high ≤ high := by
  rw [mid, Int.tdiv_eq_ediv]
  split
  · omega
  · rw [show Int.sign 2 = 1 from rfl]
    omega

def binarySearch (target low high : ℤ) : Thread Var ℤ :=
  if h : low > high then .done
  else
    .read .found fun found =>
      if found ≠ 0 then .done
      else
        let rest : Thread Var ℤ :=
          .read .found fun found =>
            if found = 0 then
              .fork (binarySearch target low (mid low high - 1))
                (binarySearch target (mid low high + 1) high) .done
            else .done
        .read (.arr (mid low high)) fun v =>
          if v = target then .write .found 1 rest else rest
termination_by (high + 1 - low).toNat
decreasing_by
  · have := mid_mem (not_lt.mp h)
    omega
  · have := mid_mem (not_lt.mp h)
    omega

/-- The memory at the start. -/
def memory (arr : ℤ → ℤ) : Var → ℤ
  | .arr i => arr i
  | .found => 0

end PthreadBenchmark.BinarySearch
