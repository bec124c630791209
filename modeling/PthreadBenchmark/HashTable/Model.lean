import PthreadBenchmark.Shared.Pthread

/-! # The hash table of `parallel_mutex.c`

A bucket is a linked list, modelled as a list. In `insert` the head of the bucket is read
and written by separate operations, under the lock of the bucket. -/

namespace PthreadBenchmark.HashTable

/-- `NUM_BUCKETS`. -/
def numBuckets : ℕ := 5

structure BucketEntry where
  key : ℕ
  val : ℕ
  deriving DecidableEq, Repr

/-- The index of a bucket and of its lock. -/
abbrev Bucket := Fin numBuckets

abbrev Table := Bucket → List BucketEntry

def bucketOf (key : ℕ) : Bucket := ⟨key % numBuckets, Nat.mod_lt _ (by decide)⟩

/-- The walk of `retrieve` through one bucket. -/
def findEntry (key : ℕ) : List BucketEntry → Option BucketEntry
  | [] => none
  | b :: next => if b.key = key then some b else findEntry key next

def retrieve (table : Table) (key : ℕ) : Option BucketEntry := findEntry key (table (bucketOf key))

/-! ## The put phase -/

/-- Points of `put_phase` of the thread `tid` at the index `j`, with `insert` unfolded;
`next` is the `next` of the new entry. -/
inductive PutPoint where
  | loop (tid j : ℕ)
  | insertLock (tid j : ℕ)
  | insertNext (tid j : ℕ)
  | insertLink (tid j : ℕ) (next : List BucketEntry)
  | insertUnlock (tid j : ℕ)
  | exited

def putCode {ι : Type*} (numThreads : ℕ) (keys : List ℕ) (table : Table) :
    PutPoint → Op ι Table PutPoint Bucket Empty
  | .loop tid j => .run table (if j < keys.length then .insertLock tid j else .exited)
  | .insertLock tid j => .lock (bucketOf (keys.getD j 0)) (.insertNext tid j)
  | .insertNext tid j => .run table (.insertLink tid j (table (bucketOf (keys.getD j 0))))
  | .insertLink tid j next =>
    let key := keys.getD j 0
    .run (Function.update table (bucketOf key) (⟨key, tid⟩ :: next)) (.insertUnlock tid j)
  | .insertUnlock tid j => .unlock (bucketOf (keys.getD j 0)) (.loop tid (j + numThreads))
  | .exited => .halt

def putPhase (numThreads : ℕ) (keys : List ℕ) :
    System (Config (Fin numThreads) Table PutPoint Bucket Empty) (Action (Fin numThreads)) :=
  Pthread.program (putCode numThreads keys) (fun _ => []) fun tid => .loop tid tid

/-- All threads have returned, so that `main` has joined them. -/
def PutJoined {numThreads : ℕ} (keys : List ℕ)
    (c : Config (Fin numThreads) Table PutPoint Bucket Empty) : Prop :=
  ∀ i, Pthread.Halted (putCode (ι := Fin numThreads) numThreads keys) c.shared (c.threads i)

/-! ## The get phase -/

/-- Points of `get_phase`; `exited` carries the value passed to `pthread_exit`. -/
inductive GetPoint where
  | loop (j lost : ℕ)
  | exited (lost : ℕ)

def getCode {ι : Type*} (numThreads : ℕ) (keys : List ℕ) (table : Table) :
    GetPoint → Op ι Table GetPoint Bucket Empty
  | .loop j lost =>
    .run table
      (if j < keys.length then
        .loop (j + numThreads)
          (if retrieve table (keys.getD j 0) = none then lost + 1 else lost)
      else .exited lost)
  | .exited _ => .halt

/-- The get phase starts on the table that the put phase has left. -/
def getPhase (numThreads : ℕ) (keys : List ℕ) (table : Table) :
    System (Config (Fin numThreads) Table GetPoint Bucket Empty) (Action (Fin numThreads)) :=
  Pthread.program (getCode numThreads keys) table fun tid => .loop tid 0

/-- What a thread has counted, and has passed to `pthread_exit` in the end. -/
def GetPoint.lost : GetPoint → ℕ
  | .loop _ lost | .exited lost => lost

/-- The sum that `main` forms over the joined threads. -/
def totalLost {numThreads : ℕ} (lostKeys : Fin numThreads → ℕ) : ℕ :=
  (List.ofFn lostKeys).foldl (· + ·) 0

end PthreadBenchmark.HashTable
