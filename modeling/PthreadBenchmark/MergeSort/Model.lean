import PthreadBenchmark.Shared.ForkJoin

/-! # The threads of `MergeSort.c_`

The shared memory is `arr`; the arrays `left` and `right` of `merge` are local to a
thread, so only the accesses to `arr` are steps. -/

namespace PthreadBenchmark.MergeSort

open Thread

/-- `for (i = 0; i < n; i++) dst[i] = arr[base + i]`, before `k` uses `dst`. -/
def copyLoop (base n i : ℕ) (dst : ℕ → ℤ) (k : (ℕ → ℤ) → Thread ℕ ℤ) : Thread ℕ ℤ :=
  if i < n then
    .read (base + i) fun v => copyLoop base n (i + 1) (Function.update dst i v) k
  else k dst
termination_by n - i

/-- `while (i < n) arr[k++] = src[i++]`, with the index at which the next loop goes on. -/
def tailLoop (src : ℕ → ℤ) (n i k : ℕ) (next : ℕ → Thread ℕ ℤ) : Thread ℕ ℤ :=
  if i < n then .write k (src i) (tailLoop src n (i + 1) (k + 1) next) else next k
termination_by n - i

/-- The three loops that merge `left` and `right` into `arr`. -/
def mergeLoop (left right : ℕ → ℤ) (n1 n2 i j k : ℕ) : Thread ℕ ℤ :=
  if i < n1 ∧ j < n2 then
    if left i ≤ right j then
      .write k (left i) (mergeLoop left right n1 n2 (i + 1) j (k + 1))
    else .write k (right j) (mergeLoop left right n1 n2 i (j + 1) (k + 1))
  else tailLoop left n1 i k fun k => tailLoop right n2 j k fun _ => .done
termination_by (n1 - i) + (n2 - j)

def merge (low mid high : ℕ) : Thread ℕ ℤ :=
  let n1 := mid - low + 1
  let n2 := high - mid
  copyLoop low n1 0 (fun _ => 0) fun left =>
    copyLoop (mid + 1) n2 0 (fun _ => 0) fun right => mergeLoop left right n1 n2 0 0 low

def mergeSort (low high : ℕ) : Thread ℕ ℤ :=
  if low < high then
    let mid := low + (high - low) / 2
    .fork (mergeSort low mid) (mergeSort (mid + 1) high) (merge low mid high)
  else .done
termination_by high - low

end PthreadBenchmark.MergeSort
