import PthreadBenchmark.HashInvert.Model
import PthreadBenchmark.Shared.PthreadRest
import Mathlib.Algebra.GroupWithZero.Nat

/-! # Every location is claimed and handled once -/

namespace PthreadBenchmark.HashInvert

open Pthread

variable {n size vectSize numBits : ℕ} {work : Work} {s : Shared n} {ps : Fin n → Point n}
  {i : Fin n} {q : Point n}
  {c : Config (Fin n) (Shared n) (Point n) Mutex Empty}

/-- The ones that a location adds to the total. -/
def Work.ones : Work → ℕ → ℕ
  | .count ones, nL => ones nL
  | .reconstruct, _ => 0

/-! ## Mutual exclusion -/

def inside (p : Point n) (m : Mutex) : Prop :=
  match p.pc with
  | .readNext | .test _ | .unlockNext _ | .unlockExit => m = .mNextLoc
  | .addTotal _ | .unlockTotal => m = .mTotalOnes
  | .lockNext | .work _ | .lockTotal _ | .exited | .fault => False

theorem flat : Flat inside (claimLoop (n := n) (some size) work) where
  tracks s p := by
    obtain ⟨id, pc⟩ := p
    cases pc with
    | readNext | addTotal => exact fun _ => Iff.rfl
    | test nL =>
        simp only [claimLoop]
        split <;> exact fun _ => Iff.rfl
    | work nL =>
        intro m
        cases work with
        | reconstruct => exact Iff.rfl
        | count ones => by_cases hpos : 0 < ones nL <;> simp [inside, hpos]
    | exited | fault => trivial
    | lockNext | lockTotal | unlockNext | unlockExit | unlockTotal =>
        intro m
        cases m <;> simp [inside]
  proper s p := by
    obtain ⟨id, pc⟩ := p
    cases pc with
    | test nL =>
        simp only [claimLoop]
        split <;> trivial
    | unlockNext | unlockExit | unlockTotal => rfl
    | _ => trivial
  unique {p m m'} hm hm' := by
    obtain ⟨id, pc⟩ := p
    cases pc <;> first | exact hm.trans hm'.symm | exact hm.elim
  flows {s p m} hin := by
    obtain ⟨id, pc⟩ := p
    cases pc with
    | test nL =>
        simp only [claimLoop]
        split <;> trivial
    | lockNext | work | lockTotal | exited | fault => exact hin.elim
    | _ => trivial

theorem not_join (s : Shared n) (p : Point n) (j : Fin n) (q : Point n) :
    claimLoop (some size) work s p ≠ .join j q := by
  obtain ⟨id, pc⟩ := p
  cases pc with
  | test nL =>
      simp only [claimLoop]
      split <;> simp
  | _ => simp [claimLoop]

/-! ## Claims -/

/-- A claimed location that the thread has not handled yet. -/
def pendingLoc (loc : ℕ) (p : Point n) : ℕ :=
  match p.pc with
  | .unlockNext nL | .work nL => if nL = loc then 1 else 0
  | _ => 0

/-- The ones of a handled location that the thread has not added yet. -/
def pendingOnes (p : Point n) : ℕ :=
  match p.pc with
  | .lockTotal z | .addTotal z => z
  | _ => 0

/-- The claims go up to `nextLoc`, and what is claimed and added is accounted for. -/
structure Claimed (size : ℕ) (work : Work) (s : Shared n) (ps : Fin n → Point n) : Prop where
  claims : s.claims.map Prod.snd = List.range s.nextLoc
  nextLoc_le : s.nextLoc ≤ size
  test : ∀ i nL, (ps i).pc = .test nL → nL = s.nextLoc
  exited : ∀ i, (ps i).pc = .unlockExit ∨ (ps i).pc = .exited → s.nextLoc = size
  handled : ∀ loc, (List.range s.nextLoc).count loc =
    s.handled.count loc + weight (pendingLoc loc) ps
  total : s.totalOnes + weight pendingOnes ps = (s.handled.map work.ones).sum

theorem claimed_start :
    Claimed size work (⟨0, 0, [], []⟩ : Shared n) fun id => ⟨id, .lockNext⟩ where
  claims := rfl
  nextLoc_le := Nat.zero_le _
  test i nL h := by cases h
  exited i h := by rcases h with h | h <;> cases h
  handled loc := by simp [weight, pendingLoc]
  total := by simp [weight, pendingOnes]

/-- A step that claims and handles nothing. -/
theorem Claimed.move (h : Claimed size work s ps)
    (hloc : ∀ loc, pendingLoc loc q = pendingLoc loc (ps i))
    (hones : pendingOnes q = pendingOnes (ps i))
    (htest : ∀ nL, q.pc = .test nL → nL = s.nextLoc)
    (hexited : q.pc = .unlockExit ∨ q.pc = .exited → s.nextLoc = size) :
    Claimed size work s (Function.update ps i q) where
  claims := h.claims
  nextLoc_le := h.nextLoc_le
  test := (Function.forall_update_iff ps fun _ p => ∀ nL, p.pc = .test nL → nL = s.nextLoc).mpr
    ⟨htest, fun j _ => h.test j⟩
  exited := (Function.forall_update_iff ps fun _ p =>
    p.pc = .unlockExit ∨ p.pc = .exited → s.nextLoc = size).mpr ⟨hexited, fun j _ => h.exited j⟩
  handled loc := by
    have hweight := weight_update (pendingLoc loc) ps i q
    have hhandled := h.handled loc
    have hsame := hloc loc
    omega
  total := by
    have hweight := weight_update pendingOnes ps i q
    have htotal := h.total
    omega

/-- The claim of the next location. No other thread has read `nextLoc`. -/
theorem Claimed.claim (h : Claimed size work s ps) {id : Fin n} {nL : ℕ}
    (hi : ps i = ⟨id, .test nL⟩) (hlt : nL < size)
    (halone : ∀ j m, inside (ps i) m → inside (ps j) m → j = i) :
    Claimed size work { s with nextLoc := s.nextLoc + 1, claims := s.claims ++ [(id, nL)] }
      (Function.update ps i ⟨id, .unlockNext nL⟩) := by
  obtain rfl : nL = s.nextLoc := h.test i nL (by rw [hi])
  refine ⟨?_, hlt, ?_, ?_, fun loc => ?_, ?_⟩
  · simp [h.claims, List.range_succ]
  · apply (Function.forall_update_iff ps fun _ p => ∀ nL, p.pc = .test nL →
      nL = s.nextLoc + 1).mpr
    refine ⟨by simp, fun j hj nL hpc => ?_⟩
    have hin : inside (ps j) .mNextLoc := by
      unfold inside
      rw [hpc]
    exact absurd (halone j .mNextLoc (by rw [hi]; exact rfl) hin) hj
  · apply (Function.forall_update_iff ps fun _ p =>
      p.pc = .unlockExit ∨ p.pc = .exited → s.nextLoc + 1 = size).mpr
    refine ⟨by simp, fun j _ hpc => ?_⟩
    have hsize := h.exited j hpc
    omega
  · have hweight := weight_update (pendingLoc loc) ps i ⟨id, .unlockNext s.nextLoc⟩
    have hhandled := h.handled loc
    rw [hi] at hweight
    rw [List.range_succ, List.count_append, List.count_singleton]
    simp only [pendingLoc, beq_iff_eq] at hweight ⊢
    omega
  · have hweight := weight_update pendingOnes ps i ⟨id, .unlockNext s.nextLoc⟩
    have htotal := h.total
    rw [hi] at hweight
    simp only [pendingOnes] at hweight ⊢
    omega

/-- Where the thread goes on after it has handled a location. -/
def Work.next (work : Work) (nL : ℕ) : Pc :=
  match work with
  | .count ones => if 0 < ones nL then .lockTotal (ones nL) else .lockNext
  | .reconstruct => .lockNext

theorem Claimed.handle (h : Claimed size work s ps) {id : Fin n} {nL : ℕ}
    (hi : ps i = ⟨id, .work nL⟩) :
    Claimed size work { s with handled := s.handled ++ [nL] }
      (Function.update ps i ⟨id, work.next nL⟩) := by
  have hnext : pendingOnes (⟨id, work.next nL⟩ : Point n) = work.ones nL ∧
      ∀ loc, pendingLoc loc (⟨id, work.next nL⟩ : Point n) = 0 := by
    cases work with
    | reconstruct => exact ⟨rfl, fun _ => rfl⟩
    | count ones =>
        simp only [Work.next, Work.ones]
        split
        · exact ⟨rfl, fun _ => rfl⟩
        · exact ⟨by simp only [pendingOnes]; omega, fun _ => rfl⟩
  have hpc : (∀ nL', work.next nL ≠ .test nL') ∧ work.next nL ≠ .unlockExit ∧
      work.next nL ≠ .exited := by
    cases work with
    | reconstruct => simp [Work.next]
    | count ones => by_cases hpos : 0 < ones nL <;> simp [Work.next, hpos]
  refine ⟨h.claims, h.nextLoc_le, ?_, ?_, fun loc => ?_, ?_⟩
  · apply (Function.forall_update_iff ps fun _ p => ∀ nL, p.pc = .test nL → nL = s.nextLoc).mpr
    exact ⟨fun nL' heq => absurd heq (hpc.1 nL'), fun j _ => h.test j⟩
  · apply (Function.forall_update_iff ps fun _ p =>
      p.pc = .unlockExit ∨ p.pc = .exited → s.nextLoc = size).mpr
    refine ⟨fun hor => ?_, fun j _ => h.exited j⟩
    exact (hor.elim hpc.2.1 hpc.2.2).elim
  · have hweight := weight_update (pendingLoc loc) ps i ⟨id, work.next nL⟩
    have hhandled := h.handled loc
    rw [hi, hnext.2 loc] at hweight
    rw [List.count_append, List.count_singleton]
    simp only [pendingLoc, beq_iff_eq] at hweight ⊢
    omega
  · have hweight := weight_update pendingOnes ps i ⟨id, work.next nL⟩
    have htotal := h.total
    rw [hi, hnext.1] at hweight
    rw [List.map_append, List.sum_append, List.map_singleton, List.sum_singleton]
    simp only [pendingOnes] at hweight ⊢
    omega

theorem Claimed.add (h : Claimed size work s ps) {id : Fin n} {z : ℕ}
    (hi : ps i = ⟨id, .addTotal z⟩) :
    Claimed size work { s with totalOnes := s.totalOnes + z }
      (Function.update ps i ⟨id, .unlockTotal⟩) := by
  refine ⟨h.claims, h.nextLoc_le, ?_, ?_, fun loc => ?_, ?_⟩
  · apply (Function.forall_update_iff ps fun _ p => ∀ nL, p.pc = .test nL → nL = s.nextLoc).mpr
    exact ⟨by simp, fun j _ => h.test j⟩
  · apply (Function.forall_update_iff ps fun _ p =>
      p.pc = .unlockExit ∨ p.pc = .exited → s.nextLoc = size).mpr
    exact ⟨by simp, fun j _ => h.exited j⟩
  · have hweight := weight_update (pendingLoc loc) ps i ⟨id, .unlockTotal⟩
    have hhandled := h.handled loc
    rw [hi] at hweight
    simp only [pendingLoc] at hweight ⊢
    omega
  · have hweight := weight_update pendingOnes ps i ⟨id, .unlockTotal⟩
    have htotal := h.total
    rw [hi] at hweight
    simp only [pendingOnes] at hweight ⊢
    omega

theorem claimed_of_reachable (h : (start n (claimLoop (some size) work)).Reachable c) :
    Claimed size work c.shared (points c) := by
  apply exclusive_invariant flat.tracks not_wait (fun _ _ => id) h claimed_start
  intro s ps i q hclaimed halone hq
  generalize hp : ps i = p at hq halone ⊢
  obtain ⟨id, pc⟩ := p
  cases pc with
  | exited | fault => cases hq
  | readNext =>
      cases hq
      apply hclaimed.move <;> simp [pendingLoc, pendingOnes, hp]
  | test nL =>
      simp only [claimLoop] at hq ⊢
      split at hq
      · next hlt =>
          cases hq
          rw [if_pos hlt]
          exact hclaimed.claim hp (Int.ofNat_lt.mp hlt) (by rwa [hp])
      · next hge =>
          cases hq
          rw [if_neg hge]
          have htest := hclaimed.test i nL (by rw [hp])
          have hle := hclaimed.nextLoc_le
          apply hclaimed.move <;> simp [pendingLoc, pendingOnes, hp]
          omega
  | work nL =>
      cases hq
      exact hclaimed.handle hp
  | addTotal z =>
      cases hq
      exact hclaimed.add hp
  | unlockExit =>
      cases hq
      have hsize := hclaimed.exited i (by simp [hp])
      apply hclaimed.move <;> simp [pendingLoc, pendingOnes, hp, hsize]
  | lockNext | unlockNext | lockTotal | unlockTotal =>
      cases hq
      apply hclaimed.move <;> simp [pendingLoc, pendingOnes, hp]

/-! ## Result -/

/-- No location is claimed or handled twice, or lies out of range. -/
structure Disciplined (size : ℕ) (s : Shared n) : Prop where
  claims_nodup : (s.claims.map Prod.snd).Nodup
  claims_lt : ∀ claim ∈ s.claims, claim.2 < size
  handled_nodup : s.handled.Nodup
  handled_lt : ∀ loc ∈ s.handled, loc < size

/-- Every location has been claimed by one thread, and handled. -/
structure Complete (size : ℕ) (s : Shared n) : Prop where
  claims : ∀ loc < size, ∃! id, (id, loc) ∈ s.claims
  handled : s.handled.Perm (List.range size)

theorem Claimed.disciplined (h : Claimed size work s ps) : Disciplined size s := by
  have hclaims := h.claims
  have hsize := h.nextLoc_le
  have hcount : ∀ loc, s.handled.count loc ≤ (List.range s.nextLoc).count loc := by
    intro loc
    have := h.handled loc
    omega
  refine ⟨hclaims ▸ List.nodup_range, fun claim hmem => ?_, ?_, fun loc hmem => ?_⟩
  · have hrange := List.mem_map_of_mem (f := Prod.snd) hmem
    rw [hclaims, List.mem_range] at hrange
    omega
  · exact List.nodup_iff_count_le_one.mpr fun loc =>
      (hcount loc).trans (List.nodup_iff_count_le_one.mp List.nodup_range loc)
  · have hrange : loc ∈ List.range s.nextLoc :=
      List.count_pos_iff.mp ((List.count_pos_iff.mpr hmem).trans_le (hcount loc))
    rw [List.mem_range] at hrange
    omega

/-- When all threads have left their loops nothing is pending. -/
theorem Claimed.complete (h : Claimed size work s ps) [Nonempty (Fin n)]
    (hexited : ∀ i, (ps i).pc = .exited) :
    Complete size s ∧ s.totalOnes = ((List.range size).map work.ones).sum := by
  obtain ⟨i⟩ := ‹Nonempty (Fin n)›
  have hsize := h.exited i (.inr (hexited i))
  have hperm : s.handled.Perm (List.range size) := by
    rw [List.perm_iff_count]
    intro loc
    have hhandled := h.handled loc
    have hnone : weight (pendingLoc loc) ps = 0 :=
      (weight_eq_zero_iff ..).mpr fun j => by simp [pendingLoc, hexited j]
    rw [hsize] at hhandled
    omega
  have htotal := h.total
  have hnone : weight pendingOnes ps = 0 :=
    (weight_eq_zero_iff ..).mpr fun j => by simp [pendingOnes, hexited j]
  rw [hnone, (hperm.map work.ones).sum_eq] at htotal
  refine ⟨⟨fun loc hlt => ?_, hperm⟩, htotal⟩
  have hclaims := h.claims
  rw [hsize] at hclaims
  have hmem : loc ∈ s.claims.map Prod.snd := by
    rw [hclaims]
    exact List.mem_range.mpr hlt
  obtain ⟨claim, hclaim, heq⟩ := List.mem_map.mp hmem
  have hnodup : (s.claims.map Prod.snd).Nodup := hclaims ▸ List.nodup_range
  refine ⟨claim.1, by rwa [← heq], fun id hid => ?_⟩
  exact congrArg Prod.fst (List.inj_on_of_nodup_map hnodup hid hclaim heq.symm)

/-- Where a thread stands in its loop. -/
def Pc.rank : Pc → ℕ
  | .unlockNext _ => 9
  | .work _ => 8
  | .lockTotal _ => 7
  | .addTotal _ => 6
  | .unlockTotal => 5
  | .lockNext => 4
  | .readNext => 3
  | .test _ => 2
  | .unlockExit => 1
  | .exited | .fault => 0

/-- A claim brings the number of open locations down. -/
theorem Claimed.lowers (h : Claimed size work c.shared (points c)) {p : Point n}
    (hi : c.threads i = .running p) :
    Lowers (fun p => p.pc.rank) (fun _ => 0) (fun s => 10 * (size - s.nextLoc)) c p
      (claimLoop (some size) work c.shared p) := by
  have hp : points c i = p := points_of_running hi
  have htest := h.test i
  rw [hp] at htest
  obtain ⟨id, pc⟩ := p
  cases pc with
  | test nL =>
      obtain rfl := htest nL rfl
      simp only [claimLoop]
      split
      · next hlt =>
          simp only [Lowers, Pc.rank]
          omega
      · simp only [Lowers, Pc.rank]
        omega
  | work nL =>
      cases work with
      | reconstruct =>
          simp only [claimLoop, Lowers, Pc.rank]
          omega
      | count ones =>
          simp only [claimLoop, Lowers]
          split <;> simp only [Pc.rank] <;> omega
  | readNext | addTotal => exact Nat.add_lt_add_left (Nat.lt_succ_self _) _
  | lockNext | unlockNext | unlockExit | lockTotal | unlockTotal => exact Nat.lt_succ_self _
  | exited | fault => trivial

theorem ne_fault_of_reachable (h : (start n (claimLoop (some size) work)).Reachable c) (i : Fin n) :
    (points c i).pc ≠ .fault := by
  refine fits_of_reachable (R := fun _ (p : Point n) => p.pc ≠ .fault) h (fun _ => by simp) ?_ i
  intro s i p q hp hq
  obtain ⟨id, pc⟩ := p
  cases pc with
  | exited | fault => cases hq
  | test nL =>
      simp only [claimLoop] at hq
      split at hq <;> cases hq <;> simp
  | work nL =>
      cases hq
      cases work with
      | reconstruct => simp
      | count ones => by_cases hpos : 0 < ones nL <;> simp [hpos]
  | _ =>
      cases hq
      simp

theorem exists_allExited (h : (start n (claimLoop (some size) work)).Reachable c) :
    ∃ ls c', (start n (claimLoop (some size) work)).exec c ls = some c' ∧ AllExited c' := by
  obtain ⟨ls, c', hexec, hhalted⟩ := exists_halted flat not_join
    (fun s => 10 * (size - s.nextLoc)) (fun _ _ => id)
    (fun b hb i p hi => (claimed_of_reachable hb).lowers hi) h
  refine ⟨ls, c', hexec, fun i => ?_⟩
  have hhalt := isHalt_of_halted (hhalted i)
  have hfault := ne_fault_of_reachable (h.exec hexec) i
  have hi := running_of_points not_wait (h.exec hexec) (i := i) rfl
  obtain ⟨id, pc, hp⟩ : ∃ id pc, points c' i = ⟨id, pc⟩ := ⟨_, _, rfl⟩
  rw [hp] at hhalt hfault hi
  cases pc with
  | exited => exact ⟨id, hi⟩
  | fault => exact absurd rfl hfault
  | test nL =>
      simp only [claimLoop] at hhalt
      split at hhalt <;> cases hhalt
  | _ => cases hhalt

/-- The points up to the test, behind which a thread claims its first location. -/
def Pc.Before : Pc → Prop
  | .lockNext | .readNext | .test _ | .fault => True
  | _ => False

/-- Where the sum is not an `int`, no thread gets past the test. -/
theorem not_allExited (hn : 0 < n) (h : (start n (claimLoop none work)).Reachable c) :
    ¬ AllExited c := by
  intro hexited
  obtain ⟨id, hi⟩ := hexited ⟨0, hn⟩
  have hbefore : (points c ⟨0, hn⟩).pc.Before := by
    refine fits_of_reachable (R := fun _ (p : Point n) => p.pc.Before) h (fun _ => trivial) ?_ _
    rintro s i ⟨id, pc⟩ q hp hq
    cases pc <;> first | exact hp.elim | (cases hq; done) | (cases hq; trivial)
  rw [points_of_running hi] at hbefore
  exact hbefore

/-! ## Result -/

/-- Each location is claimed and handled once, and none out of range; the threads can always go on
until they have left their loops. -/
structure ClaimsEach (size : ℕ)
    (S : System (Config (Fin n) (Shared n) (Point n) Mutex Empty) (Action (Fin n))) : Prop where
  disciplined : ∀ c, S.Reachable c → Disciplined size c.shared
  complete : ∀ c, S.Reachable c → AllExited c → Complete size c.shared
  exits : ∀ c, S.Reachable c → ∃ ls c', S.exec c ls = some c' ∧ AllExited c'

/-- The total is that of all words, and stays an `int` if no word has more ones than bits. -/
structure Counts (size numBits : ℕ) (ones : ℕ → ℕ)
    (S : System (Config (Fin n) (Shared n) (Point n) Mutex Empty) (Action (Fin n))) : Prop where
  total : ∀ c, S.Reachable c → AllExited c →
    c.shared.totalOnes = ((List.range size).map ones).sum
  inInt : (∀ nL, ones nL ≤ numBits) → ∀ c, S.Reachable c → InInt c.shared.totalOnes

/-- What the threads of `hashInvertM.c` do with the words of a filter. -/
def LocationsRight {ω : Type*} (vectSize numBits n : ℕ) (count_ones : ω → ℕ)
    (bloomVector : ℕ → ω) : Prop :=
  ClaimsEach (wordCount vectSize numBits)
      (start n (countOnes vectSize numBits count_ones bloomVector)) ∧
    Counts (wordCount vectSize numBits) numBits (fun nL => count_ones (bloomVector nL))
      (start n (countOnes vectSize numBits count_ones bloomVector)) ∧
    ClaimsEach (wordCount vectSize numBits) (start n (reconstruct0Thread vectSize numBits)) ∧
    ClaimsEach (wordCount vectSize numBits) (start n (reconstruct1Thread vectSize numBits))

theorem claimsEach (hn : 0 < n) : ClaimsEach size (start n (claimLoop (some size) work)) where
  disciplined c h := (claimed_of_reachable h).disciplined
  complete c h hexited := by
    have : Nonempty (Fin n) := ⟨⟨0, hn⟩⟩
    refine ((claimed_of_reachable h).complete fun i => ?_).1
    obtain ⟨id, ht⟩ := hexited i
    exact congrArg (fun t => (point t).pc) ht
  exits c h := exists_allExited h

/-- Every word adds at most as many ones as it has bits. -/
theorem Claimed.totalOnes_le (h : Claimed size work s ps) (hones : ∀ nL, work.ones nL ≤ numBits) :
    s.totalOnes ≤ size * numBits := by
  have hdisciplined := h.disciplined
  have hlength : s.handled.length ≤ size := by
    have hsub := hdisciplined.handled_nodup.subperm fun loc hloc =>
      List.mem_range.mpr (hdisciplined.handled_lt loc hloc)
    simpa using hsub.length_le
  have hsum := List.sum_le_card_nsmul (s.handled.map work.ones) numBits fun x hx => by
    obtain ⟨nL, -, rfl⟩ := List.mem_map.mp hx
    exact hones nL
  rw [List.length_map, nsmul_eq_mul, Nat.cast_id] at hsum
  have htotal := h.total
  calc s.totalOnes ≤ (s.handled.map work.ones).sum := by omega
    _ ≤ s.handled.length * numBits := hsum
    _ ≤ size * numBits := Nat.mul_le_mul_right numBits hlength

theorem counts {ones : ℕ → ℕ} (hn : 0 < n) (hsize : size * numBits ≤ 2147483647) :
    Counts size numBits ones (start n (claimLoop (some size) (.count ones))) where
  total c h hexited := by
    have : Nonempty (Fin n) := ⟨⟨0, hn⟩⟩
    refine ((claimed_of_reachable h).complete fun i => ?_).2
    obtain ⟨id, ht⟩ := hexited i
    exact congrArg (fun t => (point t).pc) ht
  inInt hones c h := by
    have hle := (claimed_of_reachable h).totalOnes_le hones
    rw [InInt]
    omega

/-- For any filter and any positive number of threads of each kind: in every interleaving each
location is claimed and handled once, none out of range, the threads can always go on until they
have left their loops, and then the total is the sum of the ones of all words, if and only if the
sum in `ceilDiv` is an `int`. -/
theorem locations_right_iff {ω : Type*} (vectSize numBits n : ℕ) (hpos : 0 < numBits) (hn : 0 < n)
    (count_ones : ω → ℕ) (bloomVector : ℕ → ω) :
    LocationsRight vectSize numBits n count_ones bloomVector ↔
      vectSize + numBits ≤ 2147483647 := by
  constructor
  · rintro ⟨hclaims, -⟩
    by_contra hlt
    have hnone := ceilDiv_of_lt (not_le.mp hlt)
    obtain ⟨ls, c, hexec, hexited⟩ := hclaims.exits _ .init
    have hreach := System.Reachable.init.exec hexec
    rw [countOnes, hnone] at hreach
    exact not_allExited hn hreach hexited
  · intro hle
    have hsome := ceilDiv_of_le hpos hle
    have hfits := wordCount_mul_lt vectSize hpos
    rw [LocationsRight, countOnes, reconstruct0Thread, reconstruct1Thread, hsome]
    exact ⟨claimsEach hn, counts hn (by omega), claimsEach hn, claimsEach hn⟩

/-- Two threads and two words; thread `j` finds only one of them. -/
def twoWords (i j : Fin 2) : Option (Config (Fin 2) (Shared 2) (Point 2) Mutex Empty) :=
  (start 2 (countOnes 64 32 id fun nL => nL + 5)).exec
    (start 2 (countOnes 64 32 id fun nL => nL + 5)).init
    (List.replicate 4 (.run i none) ++ List.replicate 12 (.run j none) ++
      List.replicate 8 (.run i none))

/-- The same with the locations handed to `reconstruct0`. -/
def twoLocations (i j : Fin 2) : Option (Config (Fin 2) (Shared 2) (Point 2) Mutex Empty) :=
  (start 2 (reconstruct0Thread 64 32)).exec (start 2 (reconstruct0Thread 64 32)).init
    (List.replicate 4 (.run i none) ++ List.replicate 9 (.run j none) ++
      List.replicate 5 (.run i none))

theorem locations_right_two : (∃ c, twoWords 0 1 = some c ∧ Complete 2 c.shared ∧
      c.shared.totalOnes = 11) ∧
    ∃ c, twoLocations 0 1 = some c ∧ Complete 2 c.shared := by
  have hright := (locations_right_iff 64 32 2 (by decide) (by decide) id fun nL => nL + 5).mpr
    (by decide)
  obtain ⟨hclaims, hcounts, hreconstruct, -⟩ := hright
  have hwords : (twoWords 0 1).isSome = true := by decide
  have hreach := System.Reachable.init.exec (Option.some_get hwords).symm
  have hexited : AllExited ((twoWords 0 1).get hwords) := by
    intro i
    match i with
    | 0 => exact ⟨0, rfl⟩
    | 1 => exact ⟨1, rfl⟩
  have hlocations : (twoLocations 0 1).isSome = true := by decide
  have hreach' := System.Reachable.init.exec (Option.some_get hlocations).symm
  have hexited' : AllExited ((twoLocations 0 1).get hlocations) := by
    intro i
    match i with
    | 0 => exact ⟨0, rfl⟩
    | 1 => exact ⟨1, rfl⟩
  exact ⟨⟨_, (Option.some_get hwords).symm, hclaims.complete _ hreach hexited,
      hcounts.total _ hreach hexited⟩,
    ⟨_, (Option.some_get hlocations).symm, hreconstruct.complete _ hreach' hexited'⟩⟩

/-- With 2147483640 bits the sum in `ceilDiv` is no `int`, and no thread claims a location. -/
theorem no_location_claimed : ¬ ∀ (vectSize numBits n : ℕ), 0 < numBits → 0 < n →
    vectSize ≤ 2147483647 → numBits ≤ 2147483647 → ∀ (count_ones : ℕ → ℕ) (bloomVector : ℕ → ℕ),
      LocationsRight vectSize numBits n count_ones bloomVector := by
  intro hright
  obtain ⟨hclaims, -⟩ := hright 2147483640 32 48 (by decide) (by decide) (by decide) (by decide)
    id id
  obtain ⟨ls, c, hexec, hexited⟩ := hclaims.exits _ .init
  have hreach := System.Reachable.init.exec hexec
  rw [countOnes, ceilDiv_of_lt (by decide)] at hreach
  exact not_allExited (by decide) hreach hexited

end PthreadBenchmark.HashInvert
