import PthreadBenchmark.HashTable.Model
import PthreadBenchmark.Shared.PthreadRules
import PthreadBenchmark.Shared.Strided

/-! # No key of the hash table is lost

Every index is visited by one thread, and its entry is either still ahead of that thread
or in its bucket. The locks of the buckets keep the read and the write of a head
together. -/

namespace PthreadBenchmark.HashTable

open Pthread

variable {numThreads : ℕ} {keys : List ℕ} {table : Table} {ps : Fin numThreads → PutPoint}
  {c : Config (Fin numThreads) Table PutPoint Bucket Empty}

/-! ## Entries on their way -/

/-- The entry for the index `j`. -/
def entryAt (numThreads : ℕ) (keys : List ℕ) (j : ℕ) : BucketEntry :=
  ⟨keys.getD j 0, j % numThreads⟩

/-- Whether the index `j` brings the entry `e` into the bucket `b`. -/
def brings (numThreads : ℕ) (keys : List ℕ) (b : Bucket) (e : BucketEntry) (j : ℕ) : ℕ :=
  if bucketOf (keys.getD j 0) = b ∧ entryAt numThreads keys j = e then 1 else 0

/-- How often a thread at this point will still put the entry `e` into the bucket `b`. -/
def pending (numThreads : ℕ) (keys : List ℕ) (b : Bucket) (e : BucketEntry) : PutPoint → ℕ
  | .loop _ j | .insertLock _ j | .insertNext _ j | .insertLink _ j _ =>
    ahead numThreads keys.length (brings numThreads keys b e) j
  | .insertUnlock _ j => ahead numThreads keys.length (brings numThreads keys b e) (j + numThreads)
  | .exited => 0

/-- The index belongs to the thread, and is in range inside of `insert`. -/
def PutPoint.WellFormed (numThreads : ℕ) (keys : List ℕ) : PutPoint → Prop
  | .loop tid j => j % numThreads = tid
  | .insertLock tid j | .insertNext tid j | .insertLink tid j _ | .insertUnlock tid j =>
    j % numThreads = tid ∧ j < keys.length
  | .exited => True

/-- The lock that is held at a point. -/
def inside (keys : List ℕ) : PutPoint → Bucket → Prop
  | .insertNext _ j, b | .insertLink _ j _, b | .insertUnlock _ j, b =>
    b = bucketOf (keys.getD j 0)
  | _, _ => False

theorem tracks (table : Table) (p : PutPoint) :
    Tracks (inside keys) p (putCode (ι := Fin numThreads) numThreads keys table p) := by
  cases p with
  | loop tid j =>
      simp only [putCode, Tracks]
      split <;> simp [inside]
  | _ => simp [putCode, Tracks, inside]

/-- Each entry is in its bucket as often as the indices behind the threads bring it, and
the head that a thread has read is still the head. -/
structure Filling (numThreads : ℕ) (keys : List ℕ) (table : Table)
    (ps : Fin numThreads → PutPoint) : Prop where
  wellFormed : ∀ i, (ps i).WellFormed numThreads keys
  link : ∀ i tid j next, ps i = .insertLink tid j next → next = table (bucketOf (keys.getD j 0))
  count : ∀ b e, (table b).count e + weight (pending numThreads keys b e) ps =
    ∑ x ∈ Finset.range keys.length, brings numThreads keys b e x

theorem filling_start (hpos : 0 < numThreads) :
    Filling numThreads keys (fun _ => []) fun tid : Fin numThreads => .loop tid tid where
  wellFormed i := Nat.mod_eq_of_lt i.isLt
  link i tid j next h := by cases h
  count b e := by
    rw [List.count_nil, Nat.zero_add]
    exact sum_ahead _ hpos

theorem wellFormed_update {i : Fin numThreads} {q : PutPoint}
    (h : ∀ i, (ps i).WellFormed numThreads keys) (hq : q.WellFormed numThreads keys)
    (j : Fin numThreads) : (Function.update ps i q j).WellFormed numThreads keys := by
  apply (Function.forall_update_iff ps fun _ p => p.WellFormed numThreads keys).mpr
  exact ⟨hq, fun k _ => h k⟩

/-- A step that does not write keeps the count if the same entries are ahead. -/
theorem Filling.move (h : Filling numThreads keys table ps) {i : Fin numThreads} {q : PutPoint}
    (hq : q.WellFormed numThreads keys)
    (hlink : ∀ tid j next, q = .insertLink tid j next → next = table (bucketOf (keys.getD j 0)))
    (hpending : ∀ b e, pending numThreads keys b e q = pending numThreads keys b e (ps i)) :
    Filling numThreads keys table (Function.update ps i q) := by
  refine ⟨wellFormed_update h.wellFormed hq, fun j tid k next hj => ?_, fun b e => ?_⟩
  · by_cases hij : j = i
    · subst j
      rw [Function.update_self] at hj
      exact hlink tid k next hj
    · rw [Function.update_of_ne hij] at hj
      exact h.link j tid k next hj
  · have hweight := weight_update (pending numThreads keys b e) ps i q
    have hcount := h.count b e
    have hsame := hpending b e
    omega

/-- The write of the head puts the entry of the index into its bucket. No other thread has
read the head of this bucket. -/
theorem Filling.link_entry (hpos : 0 < numThreads) (h : Filling numThreads keys table ps)
    {i : Fin numThreads} {tid j : ℕ} {next : List BucketEntry}
    (hi : ps i = .insertLink tid j next)
    (halone : ∀ k m, inside keys (ps i) m → inside keys (ps k) m → k = i) :
    Filling numThreads keys
      (Function.update table (bucketOf (keys.getD j 0)) (⟨keys.getD j 0, tid⟩ :: next))
      (Function.update ps i (.insertUnlock tid j)) := by
  have hwell := h.wellFormed i
  rw [hi] at hwell
  obtain ⟨htid, hlt⟩ := hwell
  have hnext := h.link i tid j next hi
  refine ⟨wellFormed_update h.wellFormed ⟨htid, hlt⟩, fun k tid' j' next' hk => ?_, fun b e => ?_⟩
  · by_cases hki : k = i
    · subst k
      rw [Function.update_self] at hk
      cases hk
    · rw [Function.update_of_ne hki] at hk
      have hother : bucketOf (keys.getD j' 0) ≠ bucketOf (keys.getD j 0) := by
        intro hsame
        refine hki (halone k (bucketOf (keys.getD j 0)) ?_ ?_)
        · rw [hi]
          exact rfl
        · rw [hk]
          exact hsame.symm
      rw [Function.update_of_ne hother]
      exact h.link k tid' j' next' hk
  · have hweight := weight_update (pending numThreads keys b e) ps i (.insertUnlock tid j)
    have hcount := h.count b e
    have hround := ahead_of_lt (brings numThreads keys b e) hlt hpos
    rw [hi] at hweight
    simp only [pending] at hweight
    have hbucket : (Function.update table (bucketOf (keys.getD j 0))
        (⟨keys.getD j 0, tid⟩ :: next) b).count e =
          (table b).count e + brings numThreads keys b e j := by
      by_cases hb : b = bucketOf (keys.getD j 0)
      · subst hb
        rw [Function.update_self, List.count_cons, hnext]
        simp [brings, entryAt, htid]
      · have hzero : brings numThreads keys b e j = 0 := if_neg fun hbrings => hb hbrings.1.symm
        rw [Function.update_of_ne hb, hzero, Nat.add_zero]
    omega

theorem filling_of_reachable (hpos : 0 < numThreads) (h : (putPhase numThreads keys).Reachable c) :
    Filling numThreads keys c.shared (points c) := by
  refine exclusive_invariant (P := Filling numThreads keys) tracks not_wait
    (fun _ _ => id) h (filling_start hpos) ?_
  intro table ps i q hfill halone hq
  have hwell := hfill.wellFormed i
  cases hp : ps i with
  | loop tid j =>
      rw [hp] at hq hwell
      simp only [putCode, Op.next?, Op.after, Option.some.injEq] at hq ⊢
      split at hq
      · next hlt =>
          subst hq
          exact hfill.move ⟨hwell, hlt⟩ (by simp) fun b e => by rw [hp]; rfl
      · next hge =>
          subst hq
          refine hfill.move trivial (by simp) fun b e => ?_
          rw [hp]
          exact (ahead_of_le _ (by omega)).symm
  | insertLock tid j =>
      rw [hp] at hq hwell
      cases hq
      exact hfill.move hwell (by simp) fun b e => by rw [hp]; rfl
  | insertNext tid j =>
      rw [hp] at hq hwell
      cases hq
      refine hfill.move hwell ?_ fun b e => by rw [hp]; rfl
      rintro tid' j' next' heq
      cases heq
      rfl
  | insertLink tid j next =>
      rw [hp] at hq
      cases hq
      exact hfill.link_entry hpos hp halone
  | insertUnlock tid j =>
      rw [hp] at hq hwell
      cases hq
      refine hfill.move ?_ (by simp) fun b e => by rw [hp]; rfl
      exact (Nat.add_mod_right ..).trans hwell.1
  | exited =>
      rw [hp] at hq
      cases hq

/-! ## The table after the put phase -/

/-- The entries that belong into a bucket. -/
def entries (numThreads : ℕ) (keys : List ℕ) (b : Bucket) : List BucketEntry :=
  ((List.range keys.length).filter fun j => bucketOf (keys.getD j 0) = b).map
    (entryAt numThreads keys)

theorem count_entries (numThreads : ℕ) (keys : List ℕ) (b : Bucket) (e : BucketEntry) :
    (entries numThreads keys b).count e =
      ∑ x ∈ Finset.range keys.length, brings numThreads keys b e x := by
  unfold entries
  generalize keys.length = n
  induction n with
  | zero => rfl
  | succ n ih =>
      rw [List.range_succ, List.filter_append, List.map_append, List.count_append, ih,
        Finset.sum_range_succ]
      congr 1
      by_cases hb : bucketOf (keys.getD n 0) = b
      · rw [List.filter_singleton, decide_eq_true hb]
        simp only [brings, hb, true_and, cond_true, List.map_singleton, List.count_singleton,
          beq_iff_eq]
      · rw [List.filter_singleton, decide_eq_false hb]
        simp only [brings, hb, false_and, cond_false, List.map_nil, List.count_nil, if_false]

theorem pending_of_joined (h : PutJoined keys c) (b : Bucket) (e : BucketEntry)
    (i : Fin numThreads) : pending numThreads keys b e (points c i) = 0 := by
  have hhalt := isHalt_of_halted (h i)
  cases hp : points c i with
  | exited => rfl
  | _ =>
      rw [hp] at hhalt
      cases hhalt

/-- Each bucket holds the entries that belong into it, in some order. -/
theorem bucket_perm (hpos : 0 < numThreads) (h : (putPhase numThreads keys).Reachable c)
    (hjoined : PutJoined keys c) (b : Bucket) : (c.shared b).Perm (entries numThreads keys b) := by
  rw [List.perm_iff_count]
  intro e
  have hcount := (filling_of_reachable hpos h).count b e
  rw [(weight_eq_zero_iff _ _).mpr (pending_of_joined hjoined b e), Nat.add_zero] at hcount
  rw [hcount, count_entries]

/-! ## The get phase -/

theorem findEntry_ne_none {key : ℕ} {l : List BucketEntry} {e : BucketEntry} (he : e ∈ l)
    (hkey : e.key = key) : findEntry key l ≠ none := by
  induction l with
  | nil => cases he
  | cons d l ih =>
      rw [findEntry]
      split
      · simp
      · next hd =>
          rcases List.mem_cons.mp he with rfl | he
          · exact absurd hkey hd
          · exact ih he

/-- A thread that retrieves only keys of the table never counts a lost one. -/
theorem lost_of_reachable {c' : Config (Fin numThreads) Table GetPoint Bucket Empty}
    (hfound : ∀ j < keys.length, retrieve table (keys.getD j 0) ≠ none)
    (h : (getPhase numThreads keys table).Reachable c') (i : Fin numThreads) :
    (points c' i).lost = 0 := by
  refine (points_invariant (P := fun s ps => s = table ∧ ∀ i, (ps i).lost = 0) h
    ⟨rfl, fun _ => rfl⟩ ?_).2 i
  rintro s ps i q ⟨rfl, hlost⟩ hq
  have hi := hlost i
  cases hp : ps i with
  | exited lost =>
      rw [hp] at hq
      cases hq
  | loop j lost =>
      rw [hp] at hq hi
      refine ⟨rfl, (Function.forall_update_iff ps fun _ p => p.lost = 0).mpr ?_⟩
      refine ⟨?_, fun k _ => hlost k⟩
      simp only [getCode, Op.next?, Option.some.injEq] at hq
      split at hq
      · next hlt =>
          rw [if_neg (hfound j hlt)] at hq
          subst hq
          exact hi
      · subst hq
        exact hi

/-! ## Result -/

/-- For any keys, any positive number of threads and any interleaving: after the put phase
each bucket holds exactly one entry for each index whose key belongs into it, and the
threads of the get phase count no lost key. -/
theorem no_key_lost (numThreads : ℕ) (hpos : 1 ≤ numThreads) (keys : List ℕ)
    (c : Config (Fin numThreads) Table PutPoint Bucket Empty)
    (h : (putPhase numThreads keys).Reachable c) (hjoined : PutJoined keys c) :
    (∀ b, (c.shared b).Perm (((List.range keys.length).filter fun j =>
        bucketOf (keys.getD j 0) = b).map fun j => ⟨keys.getD j 0, j % numThreads⟩)) ∧
      ∀ c', (getPhase numThreads keys c.shared).Reachable c' →
        (∀ i, (points c' i).lost = 0) ∧ totalLost (fun i => (points c' i).lost) = 0 := by
  have hperm := bucket_perm hpos h hjoined
  have hfound : ∀ j < keys.length, retrieve c.shared (keys.getD j 0) ≠ none := by
    intro j hj
    refine findEntry_ne_none (e := entryAt numThreads keys j) ((hperm _).mem_iff.mpr ?_) rfl
    exact List.mem_map.mpr ⟨j, by simp [hj], rfl⟩
  refine ⟨hperm, fun c' h' => ?_⟩
  have hlost := lost_of_reachable hfound h'
  refine ⟨hlost, ?_⟩
  simp [totalLost, hlost, List.ofFn_const, ← List.sum_eq_foldl]

/-- Two threads, three keys of one bucket. -/
def twoThreads (i j : Fin 2) : Option (Config (Fin 2) Table PutPoint Bucket Empty) :=
  (putPhase 2 [3, 8, 3]).exec (putPhase 2 [3, 8, 3]).init
    (.run j none :: (List.replicate 6 (.run i none) ++ List.replicate 5 (.run j none) ++
      List.replicate 5 (.run i none)))

theorem no_key_lost_two : ∃ c, twoThreads 0 1 = some c ∧
    (c.shared (bucketOf 3)).Perm [⟨3, 0⟩, ⟨8, 1⟩, ⟨3, 0⟩] := by
  have hrun : (twoThreads 0 1).isSome = true := by decide
  have hjoined : PutJoined [3, 8, 3] ((twoThreads 0 1).get hrun) := by
    intro i
    match i with
    | 0 => rfl
    | 1 => rfl
  exact ⟨(twoThreads 0 1).get hrun, (Option.some_get hrun).symm,
    (no_key_lost 2 (by decide) [3, 8, 3] _
      (System.Reachable.init.exec (Option.some_get hrun).symm) hjoined).1 (bucketOf 3)⟩

end PthreadBenchmark.HashTable
