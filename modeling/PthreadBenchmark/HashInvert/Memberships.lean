import PthreadBenchmark.HashInvert.Interleaved
import PthreadBenchmark.Shared.PthreadConditions

/-! # Memberships that are erased again

Between the load and the store of a `setLocation` another thread may set a bit of the same word. The
store takes it back. -/

namespace PthreadBenchmark.HashInvert.Interleaved

open Pthread BitTable

variable {w n : ℕ} {a : Bloom w} {value : ℕ → ℕ → ℕ → ℚ} {isIn : ℕ → Bool} {s : Shared w}
  {p q : Point w} {i : Fin n} {ps : Fin n → Point w} {l : Locals} {word : BitVec w} {v u : ℕ}
  {c c' : Config (Fin n) (Shared w) (Point w) Mutex Empty}

/-- What has been found is in `M`. -/
def Kept (c : Config (Fin n) (Shared w) (Point w) Mutex Empty) : Prop :=
  ∀ v ∈ c.shared.found, Mem c.shared.M v

def Point.Seen (s : Shared w) : Point w → Prop
  | .storeM l word =>
    s.M (l.sample.toNat / w) ||| (word ||| mask w l.sample.toNat) = word ||| mask w l.sample.toNat
  | _ => True

instance (s : Shared w) (p : Point w) : Decidable (p.Seen s) :=
  match p with
  | .storeM l word => inferInstanceAs (Decidable (s.M (l.sample.toNat / w) |||
      (word ||| mask w l.sample.toNat) = word ||| mask w l.sample.toNat))
  | .lockNext | .readNext | .test _ | .unlockNext _ | .unlockExit | .bit _ | .whileTest _
  | .testChecked _ | .loadChecked _ | .storeChecked _ _ | .loadM _ | .lockMemberships _
  | .addMemberships _ | .unlockMemberships | .exited => isTrue trivial

/-- A store to a word of `M` may come only while the word has no bits that the load has not seen. -/
def Seen (s : Shared w) (ps : Fin n → Point w) (i : Fin n) : Prop := (ps i).Seen s

instance (s : Shared w) (ps : Fin n → Point w) (i : Fin n) : Decidable (Seen s ps i) :=
  inferInstanceAs (Decidable ((ps i).Seen s))

/-! ## Steps -/

def inside : Point w → Mutex → Prop
  | .readNext, m | .test _, m | .unlockNext _, m | .unlockExit, m => m = .mNextLoc
  | .addMemberships _, m | .unlockMemberships, m => m = .mNumMemberships
  | _, _ => False

theorem not_inside_bitLoop (m : Mutex) : ¬ inside (bitLoop a l) m := by
  unfold bitLoop
  split
  · split <;> exact id
  · exact id

theorem not_inside_whileLoop (m : Mutex) : ¬ inside (whileLoop a value l) m := by
  simp only [whileLoop]
  split
  · split <;> exact id
  · split <;> exact id

theorem tracks_code (s : Shared w) (p : Point w) :
    Tracks inside p (code (ι := Fin n) a value isIn s p) := by
  cases p with
  | test nL =>
      simp only [code]
      split <;> exact fun _ => Iff.rfl
  | bit l => exact fun m => iff_of_false (not_inside_bitLoop m) id
  | whileTest l => exact fun m => iff_of_false (not_inside_whileLoop m) id
  | testChecked l =>
      intro m
      split <;> exact Iff.rfl
  | storeChecked l word =>
      intro m
      split <;> exact Iff.rfl
  | readNext | loadChecked | loadM | storeM | addMemberships => exact fun _ => Iff.rfl
  | exited => trivial
  | lockNext | unlockNext | unlockExit | lockMemberships | unlockMemberships =>
      intro m
      cases m <;> simp [inside]

/-- Only the store to `M` changes `M` and what has been found. -/
theorem after_eq (n : ℕ) (a : Bloom w) (value : ℕ → ℕ → ℕ → ℚ) (isIn : ℕ → Bool) (s : Shared w)
    (h : ∀ l word, p ≠ .storeM l word) :
    ((code (ι := Fin n) a value isIn s p).after s).M = s.M ∧
      ((code (ι := Fin n) a value isIn s p).after s).found = s.found := by
  cases p with
  | storeM l word => exact absurd rfl (h l word)
  | test nL =>
      simp only [code]
      split <;> exact ⟨rfl, rfl⟩
  | _ => exact ⟨rfl, rfl⟩

/-- A thread comes to a store to `M` from the load. -/
theorem eq_loadM_of_next (h : (code (ι := Fin n) a value isIn s p).next? = some (.storeM l word)) :
    p = .loadM l ∧ word = s.M (l.sample.toNat / w) := by
  cases p with
  | loadM l' =>
      cases h
      exact ⟨rfl, rfl⟩
  | test nL =>
      simp only [code] at h
      split at h <;> cases h
  | bit l' =>
      simp only [code, Op.next?, bitLoop, Option.some.injEq] at h
      split at h
      · split at h <;> cases h
      · cases h
  | whileTest l' =>
      simp only [code, Op.next?, whileLoop, Option.some.injEq] at h
      split at h
      · split at h <;> cases h
      · split at h <;> cases h
  | testChecked l' =>
      simp only [code, Op.next?, Option.some.injEq] at h
      split at h <;> cases h
  | storeChecked l' word' =>
      simp only [code, Op.next?, Option.some.injEq] at h
      split at h <;> cases h
  | _ => cases h

theorem mem_storeM_iff : Mem (storeM s v word).M u ↔
    if u / w = v / w then (word ||| mask w v).getLsbD (u % w) = true else Mem s.M u :=
  mem_update_iff

/-! ## The runs in which all bits are seen -/

theorem mem_storeM_self (hw : 0 < w) : Mem (storeM s v word).M v := by
  rw [mem_storeM_iff, if_pos rfl, getLsbD_or_mask_iff hw]
  exact .inr rfl

theorem mem_storeM_of_seen (hseen : s.M (v / w) ||| (word ||| mask w v) = word ||| mask w v)
    (hu : Mem s.M u) : Mem (storeM s v word).M u := by
  rw [mem_storeM_iff]
  split
  · next hword =>
      rw [Mem, hword] at hu
      exact getLsbD_of_or_eq hseen hu
  · exact hu

theorem kept_of_seen
    (h : (program n a value isIn).ReachableBy (Meets Seen fun _ _ _ => True) c) : Kept c := by
  apply conditional_invariant (P := fun s _ _ => ∀ v ∈ s.found, Mem s.M v) tracks_code not_wait
    (fun _ _ => id) h (fun _ hv => by cases hv)
  · intro s ps _ _ i q hkept _ hseen _ _ _ v hv
    by_cases hstore : ∃ l word, ps i = .storeM l word
    · obtain ⟨l, word, hp⟩ := hstore
      rw [Seen, hp] at hseen
      rw [hp] at hv ⊢
      rcases List.mem_append.mp hv with hv | hv
      · exact mem_storeM_of_seen hseen (hkept v hv)
      · obtain rfl := List.mem_singleton.mp hv
        exact mem_storeM_self a.numBits_pos
    · obtain ⟨hM, hfound⟩ := after_eq n a value isIn s
        fun l word hp => hstore ⟨l, word, hp⟩
      rw [hfound] at hv
      rw [hM]
      exact hkept v hv
  · exact fun _ _ _ _ _ hkept _ _ => hkept

/-! ## What is in `M` -/

/-- What is in `M`, and what the threads have loaded of it, has been found. -/
structure Recorded (s : Shared w) (ps : Fin n → Point w) : Prop where
  found : ∀ v, Mem s.M v → v ∈ s.found
  loaded : ∀ i l word, ps i = .storeM l word →
    ∀ v, v / w = l.sample.toNat / w → word.getLsbD (v % w) = true → v ∈ s.found

theorem Recorded.loaded_update (h : Recorded s ps) {s' : Shared w} (hsub : s.found ⊆ s'.found)
    (hq : ∀ l word, q = .storeM l word →
      ∀ v, v / w = l.sample.toNat / w → word.getLsbD (v % w) = true → v ∈ s'.found) :
    ∀ j l word, Function.update ps i q j = .storeM l word →
      ∀ v, v / w = l.sample.toNat / w → word.getLsbD (v % w) = true → v ∈ s'.found := by
  apply (Function.forall_update_iff ps fun _ p => ∀ l word, p = .storeM l word →
    ∀ v, v / w = l.sample.toNat / w → word.getLsbD (v % w) = true → v ∈ s'.found).mpr
  exact ⟨hq, fun j _ l word hj v hword hbit => hsub (h.loaded j l word hj v hword hbit)⟩

theorem recorded_of_reachable (h : (program n a value isIn).Reachable c) :
    Recorded c.shared (points c) := by
  refine points_invariant (P := Recorded) h ⟨fun v hv => ?_, fun _ _ _ hp => by cases hp⟩ ?_
  · simp [Mem, initial] at hv
  · intro s ps i q hrecorded hq
    by_cases hstore : ∃ l word, ps i = .storeM l word
    · obtain ⟨l, word, hp⟩ := hstore
      rw [hp] at hq ⊢
      cases hq
      refine ⟨fun v hv => ?_, hrecorded.loaded_update (List.subset_append_left _ _)
        fun _ _ heq => by cases heq⟩
      change v ∈ s.found ++ [l.sample.toNat]
      rw [List.mem_append, List.mem_singleton]
      have hv : Mem (storeM s l.sample.toNat word).M v := hv
      rw [mem_storeM_iff] at hv
      split at hv
      · next hword =>
          rcases (getLsbD_or_mask_iff a.numBits_pos _).mp hv with hbit | hmod
          · exact .inl (hrecorded.loaded i l word hp v hword hbit)
          · exact .inr (eq_of_div_mod hword hmod)
      · exact .inl (hrecorded.found v hv)
    · obtain ⟨hM, hfound⟩ := after_eq n a value isIn s
        fun l word hp => hstore ⟨l, word, hp⟩
      refine ⟨fun v hv => ?_, hrecorded.loaded_update (hfound.symm ▸ List.Subset.refl _) ?_⟩
      · rw [hM] at hv
        rw [hfound]
        exact hrecorded.found v hv
      · rintro l word rfl v hword hbit
        obtain ⟨-, rfl⟩ := eq_loadM_of_next hq
        rw [hfound]
        apply hrecorded.found
        rw [Mem, hword]
        exact hbit

/-- A store that has not seen a bit takes it back. -/
theorem not_kept_of_not_seen {t : Action (Fin n)} (h : (program n a value isIn).Reachable c)
    (hs : (program n a value isIn).step c t = some c')
    (hbad : ¬ Meets Seen (fun _ _ _ => True) c t) : ¬ Kept c' := by
  obtain ⟨i, p, q, -, hlack, -, -, hshared⟩ := exists_of_not_meets hs hbad
  cases hp : points c i <;> simp only [Seen, hp, Point.Seen, not_true_eq_false] at hlack
  case storeM l word =>
    obtain ⟨k, hk, hset, hlost⟩ := exists_of_or_ne hlack
    let u := l.sample.toNat / w * w + k
    have hword : u / w = l.sample.toNat / w := by
      rw [Nat.div_eq_of_lt_le (Nat.le_add_right _ _)]
      rw [Nat.add_mul, one_mul]
      exact Nat.add_lt_add_left hk _
    have hmod : u % w = k := Nat.mul_add_mod_of_lt hk
    have hfound : u ∈ c.shared.found := by
      apply (recorded_of_reachable h).found
      rw [Mem, hword, hmod]
      exact hset
    intro hkept
    have hmem := hkept u (by rw [hshared, hp]; exact List.mem_append_left _ hfound)
    rw [hshared, hp] at hmem
    have hmem : Mem (storeM c.shared l.sample.toNat word).M u := hmem
    rw [mem_storeM_iff, if_pos hword, hmod, hlost] at hmem
    cases hmem

/-! ## A single thread -/

/-- Nobody else writes to `M`. -/
theorem loaded_of_single (hn : n ≤ 1) (h : (program n a value isIn).Reachable c) :
    ∀ i l word, points c i = .storeM l word → word = c.shared.M (l.sample.toNat / w) := by
  refine points_invariant (P := fun s ps => ∀ i l word, ps i = .storeM l word →
    word = s.M (l.sample.toNat / w)) h (fun _ _ _ hp => by cases hp) ?_
  intro s ps i q _ hq j l word hj
  obtain rfl : j = i := Fin.ext (by omega)
  rw [Function.update_self] at hj
  subst hj
  obtain ⟨hp, rfl⟩ := eq_loadM_of_next hq
  rw [hp]
  rfl

theorem seen_of_single (hn : n ≤ 1) (h : (program n a value isIn).Reachable c) :
    (program n a value isIn).ReachableBy (Meets Seen fun _ _ _ => True) c := by
  refine reachableBy_of_good (fun c i p hc _ => ?_) h
  cases hp : points c i <;> simp only [Seen, hp, Point.Seen]
  case storeM l word =>
    rw [loaded_of_single hn hc.reachable i l word hp, ← BitVec.or_assoc, BitVec.or_self]

/-! ## Results -/

/-- For any filter, any values of the doubles, any number of threads and any interleaving: where
each store to a word of `M` has seen all bits of the word, no membership is erased, whatever the
state; the first store that has not seen a bit erases one. A single thread sees all bits. -/
theorem memberships_kept (n : ℕ) (a : Bloom w) (value : ℕ → ℕ → ℕ → ℚ) (isIn : ℕ → Bool) :
    (∀ c, (program n a value isIn).ReachableBy (Meets Seen fun _ _ _ => True) c → Kept c ∧
      ∀ t c', (program n a value isIn).step c t = some c' →
        ¬ Meets Seen (fun _ _ _ => True) c t → ¬ Kept c') ∧
    (n ≤ 1 → ∀ c, (program n a value isIn).Reachable c → Kept c) :=
  ⟨fun _ h => ⟨kept_of_seen h, fun _ _ hs => not_kept_of_not_seen h.reachable hs⟩,
    fun hn _ h => kept_of_seen (seen_of_single hn h)⟩

/-- Two words of four bits, of which the bits 3 and 5 are set. -/
def twoBits (loc : ℕ) : BitVec 4 := if loc = 0 then 8#4 else if loc = 1 then 2#4 else 0#4

theorem not_mem_twoBits {i : ℕ} (hi : 8 ≤ i) : ¬ Mem twoBits i := by
  have hzero : i / 4 ≠ 0 := by omega
  have hone : i / 4 ≠ 1 := by omega
  simp [Mem, twoBits, hzero, hone]

/-- A filter with these bits, in which 1 and 3 are the members. -/
def twoMembers : Hashed 4 where
  numBits_pos := by decide
  vectSize := 8
  nVertices := 4
  bloomVector := twoBits
  aHash := fun _ => 1
  bHash := fun _ => 2
  m := fun _ => 8
  aHash_pos _ := Nat.succ_pos 0
  bHash_lt _ := by decide
  m_le _ := le_rfl
  clear _ := not_mem_twoBits

/-- Two threads on this filter. -/
abbrev twoThreads : System (Config (Fin 2) (Shared 4) (Point 4) Mutex Empty) (Action (Fin 2)) :=
  program 2 twoMembers.toBloom twoMembers.value1 fun v => twoMembers.isIn v

/-- Thread `i` takes the first word and stops behind `first` steps, until thread `j` has exited. -/
def schedule (i j : Fin 2) (first : ℕ) : List (Action (Fin 2)) :=
  List.replicate first (.run i none) ++ List.replicate 32 (.run j none) ++
    List.replicate (32 - first) (.run i none)

/-- Both members have been found, and all threads have exited. -/
def BothFound (c : Config (Fin 2) (Shared 4) (Point 4) Mutex Empty) : Prop :=
  AllExited twoMembers.toBloom twoMembers.value1 (fun v => twoMembers.isIn v) c ∧
    1 ∈ c.shared.found ∧ 3 ∈ c.shared.found

instance (c : Config (Fin 2) (Shared 4) (Point 4) Mutex Empty) : Decidable (BothFound c) :=
  inferInstanceAs (Decidable (_ ∧ _))

/-- The first thread has made its store before the other one loads the word. -/
theorem memberships_kept_two : ∃ c, twoThreads.Reachable c ∧ BothFound c ∧ Kept c := by
  have hrun : ((twoThreads.guarded (Meets Seen fun _ _ _ => True)).exec twoThreads.init
      (schedule 0 1 14)).any (fun c => decide (BothFound c)) = true := by decide +kernel
  obtain ⟨c, hexec, hfound⟩ := (Option.any_eq_true _ _).mp hrun
  have hreach : twoThreads.ReachableBy (Meets Seen fun _ _ _ => True) c := .of_exec hexec
  exact ⟨c, hreach.reachable, of_decide_eq_true hfound,
    ((memberships_kept 2 twoMembers.toBloom twoMembers.value1 _).1 c hreach).1⟩

/-- The first thread has loaded the word of `M` before the other one makes its store: the member 3
is not in `M` in the end. -/
theorem membership_erased : ∃ c, twoThreads.Reachable c ∧ BothFound c ∧ ¬ Mem c.shared.M 3 ∧
    ¬ Kept c := by
  have hrun : (twoThreads.exec twoThreads.init (schedule 0 1 13)).any
      (fun c => decide (BothFound c ∧ ¬ Mem c.shared.M 3)) = true := by decide +kernel
  obtain ⟨c, hexec, hfound⟩ := (Option.any_eq_true _ _).mp hrun
  obtain ⟨hboth, hlost⟩ := of_decide_eq_true hfound
  exact ⟨c, System.Reachable.init.exec hexec, hboth, hlost, fun hkept => hlost (hkept 3 hboth.2.2)⟩

end PthreadBenchmark.HashInvert.Interleaved
