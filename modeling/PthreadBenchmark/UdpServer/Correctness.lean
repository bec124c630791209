import PthreadBenchmark.UdpServer.Model
import PthreadBenchmark.Shared.PthreadConditions

/-! # The accounting of the receiving threads

The blocks are claimed under the mutex. The bytes are counted by way of `bytes_read`, which
another thread may have overwritten: the total is right in the runs in which it has not. -/

namespace PthreadBenchmark.UdpServer

open Pthread

variable {n : ℕ} {recvfrom : Fin n → ℕ → ℤ} {s s' : Shared} {ps : Fin n → Point n} {i j : Fin n}
  {p q : Point n} {v : Locals n} {c : Config (Fin n) Shared (Point n) Mutex Empty}

/-! ## The condition -/

/-- The result of the last `recvfrom` of the thread. -/
def Locals.result (recvfrom : Fin n → ℕ → ℤ) (v : Locals n) : ℤ :=
  recvfrom v.threadId (v.calls - 1)

/-- What the point needs of `bytes_read`: in the test the sign of the thread's own result, in the
first addition its own result. -/
def Point.Fresh (recvfrom : Fin n → ℕ → ℤ) (s : Shared) : Point n → Prop
  | .body v .test => 0 < s.bytesRead ↔ 0 < v.result recvfrom
  | .body v .addLocal => s.bytesRead = v.result recvfrom
  | _ => True

instance (recvfrom : Fin n → ℕ → ℤ) (s : Shared) (p : Point n) : Decidable (p.Fresh recvfrom s) :=
  match p with
  | .body v .test => inferInstanceAs (Decidable (0 < s.bytesRead ↔ 0 < v.result recvfrom))
  | .body v .addLocal => inferInstanceAs (Decidable (s.bytesRead = v.result recvfrom))
  | .body _ .loop | .body _ .recv | .body _ .addStart | .body _ .totalLock | .body _ .totalLoad
  | .body _ (.totalStore _) | .body _ .totalUnlock | .body _ .exited | .claimLock _ | .claimRead _
  | .claimLoad _ _ | .claimStore _ _ _ | .claimUnlock _ _ => isTrue trivial

/-- A thread tests and adds `bytes_read` only while it agrees with its own result. -/
def Fresh (recvfrom : Fin n → ℕ → ℤ) (s : Shared) (ps : Fin n → Point n) (i : Fin n) : Prop :=
  (ps i).Fresh recvfrom s

instance (recvfrom : Fin n → ℕ → ℤ) (s : Shared) (ps : Fin n → Point n) (i : Fin n) :
    Decidable (Fresh recvfrom s ps i) :=
  inferInstanceAs (Decidable ((ps i).Fresh recvfrom s))

/-! ## The mutex -/

def inside : Point n → Mutex → Prop
  | .claimRead _, _ | .claimLoad _ _, _ | .claimStore _ _ _, _ | .claimUnlock _ _, _
  | .body _ .totalLoad, _ | .body _ (.totalStore _), _ | .body _ .totalUnlock, _ => True
  | _, _ => False

theorem tracks_code (s : Shared) (p : Point n) : Tracks inside p (code recvfrom s p) := by
  cases p with
  | body v place =>
      cases place with
      | loop | test =>
          simp only [code, bodyCode]
          split <;> exact fun _ => Iff.rfl
      | _ => simp [code, bodyCode, Tracks, inside]
  | _ => simp [code, Tracks, inside]

/-! ## The blocks -/

/-- The start of the thread's block. -/
def claimed : Point n → Option ℕ
  | .claimLock _ | .claimRead _ => none
  | .claimLoad _ a | .claimStore _ a _ | .claimUnlock _ a => some a
  | .body v _ => some (v.endPos - blockSize n)

/-- Counts the threads that have moved `file_pos` past their block. -/
def passed : Point n → ℕ
  | .claimUnlock _ _ | .body _ _ => 1
  | _ => 0

def Point.Knows (filePos : ℕ) : Point n → Prop
  | .claimLock _ | .claimRead _ => True
  | .claimLoad _ a => a = filePos
  | .claimStore _ a b => a = filePos ∧ b = filePos
  | .claimUnlock _ a => a + blockSize n ≤ filePos
  | .body v _ => blockSize n ≤ v.endPos ∧ v.endPos ≤ filePos

/-- The block of one size at `a` and that at `b` have no byte in common. -/
def Apart (size a b : ℕ) : Prop := a + size ≤ b ∨ b + size ≤ a

structure Blocks (s : Shared) (ps : Fin n → Point n) : Prop where
  filePos : s.filePos = blockSize n * weight passed ps
  knows : ∀ i, (ps i).Knows s.filePos
  apart : ∀ i j a b, i ≠ j → claimed (ps i) = some a → claimed (ps j) = some b →
    Apart (blockSize n) a b

theorem passed_le_one (p : Point n) : passed p ≤ 1 := by
  cases p <;> simp [passed]

theorem weight_passed_le (ps : Fin n → Point n) : weight passed ps ≤ n := by
  calc weight passed ps ≤ ∑ _ : Fin n, 1 := Finset.sum_le_sum fun i _ => passed_le_one (ps i)
    _ = n := by simp

/-- The blocks of all threads fit into the file. -/
theorem blockSize_mul_le (ps : Fin n → Point n) : blockSize n * weight passed ps ≤ fileSize := by
  calc blockSize n * weight passed ps ≤ fileSize / n * n :=
        Nat.mul_le_mul_left _ (weight_passed_le ps)
    _ ≤ fileSize := Nat.div_mul_le_self ..

theorem fileSize_lt : fileSize < 2 ^ 64 := by decide

/-- A step that leaves `file_pos` and the thread's block as they are. -/
theorem Blocks.move (h : Blocks s ps) (hpos : s'.filePos = s.filePos)
    (hpassed : passed q = passed (ps i)) (hknows : q.Knows s.filePos)
    (hclaimed : claimed q = claimed (ps i)) : Blocks s' (Function.update ps i q) := by
  have hall : ∀ k, claimed (Function.update ps i q k) = claimed (ps k) := by
    intro k
    by_cases hk : k = i
    · rw [hk, Function.update_self, hclaimed]
    · rw [Function.update_of_ne hk]
  have hweight := weight_update passed ps i q
  refine ⟨?_, ?_, fun j k a b hne hj hk => ?_⟩
  · rw [hpos, h.filePos]
    congr 1
    omega
  · rw [hpos]
    exact (Function.forall_update_iff ps fun _ p => p.Knows s.filePos).mpr
      ⟨hknows, fun k _ => h.knows k⟩
  · exact h.apart j k a b hne (hall j ▸ hj) (hall k ▸ hk)

/-- A thread outside of the claim has its block below `file_pos`. -/
theorem Blocks.le_filePos (h : Blocks s ps) (halone : Alone inside (fun _ => False) ps i)
    (hi : inside (ps i) .mutex1) (hne : j ≠ i) {a : ℕ} (hj : claimed (ps j) = some a) :
    a + blockSize n ≤ s.filePos := by
  have hout : ¬ inside (ps j) .mutex1 := fun hin => halone j _ hne hi hin
  have hknows := h.knows j
  cases hp : ps j with
  | claimLock t | claimRead t =>
      rw [hp] at hj
      cases hj
  | claimLoad t b | claimStore t b f | claimUnlock t b =>
      rw [hp] at hout
      exact absurd trivial hout
  | body v place =>
      rw [hp] at hj hknows
      cases hj
      have hle := hknows.1
      have hpos := hknows.2
      omega

/-- A thread claims the block at `file_pos`. -/
theorem Blocks.claim (h : Blocks s ps) (halone : Alone inside (fun _ => False) ps i)
    {t : Fin n} (hi : ps i = .claimRead t) :
    Blocks s (Function.update ps i (.claimLoad t s.filePos)) := by
  have hin : inside (ps i) .mutex1 := by
    rw [hi]
    trivial
  have hweight := weight_update passed ps i (.claimLoad t s.filePos)
  rw [hi] at hweight
  refine ⟨?_, ?_, fun j k a b hne hj hk => ?_⟩
  · exact h.filePos.trans (congrArg _ hweight.symm)
  · exact (Function.forall_update_iff ps fun _ p => p.Knows s.filePos).mpr
      ⟨rfl, fun k _ => h.knows k⟩
  · by_cases hji : j = i
    · subst hji
      rw [Function.update_self] at hj
      rw [Function.update_of_ne hne.symm] at hk
      cases hj
      exact .inr (h.le_filePos halone hin hne.symm hk)
    · rw [Function.update_of_ne hji] at hj
      by_cases hki : k = i
      · subst hki
        rw [Function.update_self] at hk
        cases hk
        exact .inl (h.le_filePos halone hin hji hj)
      · rw [Function.update_of_ne hki] at hk
        exact h.apart j k a b hne hj hk

/-- It moves `file_pos` past its block, which does not overflow. -/
theorem Blocks.store (h : Blocks s ps) (halone : Alone inside (fun _ => False) ps i)
    {t : Fin n} {a f : ℕ} (hi : ps i = .claimStore t a f) :
    Blocks { s with filePos := addULL f (blockSize n) }
      (Function.update ps i (.claimUnlock t a)) := by
  have hin : inside (ps i) .mutex1 := by
    rw [hi]
    trivial
  have hknows := h.knows i
  rw [hi] at hknows
  obtain ⟨rfl, rfl⟩ := hknows
  have hweight := weight_update passed ps i (.claimUnlock t s.filePos)
  rw [hi] at hweight
  simp only [passed, Nat.add_zero] at hweight
  have hsum : s.filePos + blockSize n =
      blockSize n * weight passed (Function.update ps i (.claimUnlock t s.filePos)) := by
    rw [hweight, h.filePos, Nat.mul_add, Nat.mul_one]
  have hadd : addULL s.filePos (blockSize n) = s.filePos + blockSize n := by
    refine Nat.mod_eq_of_lt ?_
    rw [hsum]
    exact (blockSize_mul_le _).trans_lt fileSize_lt
  simp only [hadd]
  refine ⟨hsum, fun k => ?_, fun j k b d hne hj hk => ?_⟩
  · by_cases hk : k = i
    · subst hk
      rw [Function.update_self]
      exact le_rfl
    · rw [Function.update_of_ne hk]
      have hout : ¬ inside (ps k) .mutex1 := fun hkin => halone k _ hk hin hkin
      have hknows := h.knows k
      cases hp : ps k with
      | claimLock t | claimRead t => trivial
      | claimLoad t b | claimStore t b f | claimUnlock t b =>
          rw [hp] at hout
          exact absurd trivial hout
      | body v place =>
          rw [hp] at hknows
          exact ⟨hknows.1, hknows.2.trans (Nat.le_add_right ..)⟩
  · have hall : ∀ k, claimed (Function.update ps i (.claimUnlock t s.filePos) k) =
        claimed (ps k) := by
      intro k
      by_cases hk : k = i
      · rw [hk, Function.update_self, hi]
        rfl
      · rw [Function.update_of_ne hk]
    exact h.apart j k b d hne (hall j ▸ hj) (hall k ▸ hk)

theorem blocks_start : Blocks ⟨0, 0, 0⟩ (.claimLock : Fin n → Point n) where
  filePos := by simp [weight, passed]
  knows _ := trivial
  apart i j a b _ ha _ := by cases ha

theorem Blocks.step (h : Blocks s ps) (halone : Alone inside (fun _ => False) ps i)
    (hq : (code recvfrom s (ps i)).next? = some q) :
    Blocks ((code recvfrom s (ps i)).after s) (Function.update ps i q) := by
  have hknows := h.knows i
  cases hp : ps i with
  | claimLock t =>
      rw [hp] at hq hknows
      cases hq
      exact h.move rfl (by rw [hp]; rfl) trivial (by rw [hp]; rfl)
  | claimRead t =>
      rw [hp] at hq
      cases hq
      exact h.claim halone hp
  | claimLoad t a =>
      rw [hp] at hq hknows
      cases hq
      exact h.move rfl (by rw [hp]; rfl) ⟨hknows, rfl⟩ (by rw [hp]; rfl)
  | claimStore t a f =>
      rw [hp] at hq
      cases hq
      exact h.store halone hp
  | claimUnlock t a =>
      rw [hp] at hq hknows
      cases hq
      have hle : a + blockSize n ≤ s.filePos := hknows
      have hfile := h.filePos
      have hmul := blockSize_mul_le ps
      have hadd : addULL a (blockSize n) = a + blockSize n := by
        have hlt := fileSize_lt
        exact Nat.mod_eq_of_lt (by omega)
      refine h.move rfl (by rw [hp]; rfl) ?_ ?_
      · simp only [Point.Knows, hadd]
        exact ⟨Nat.le_add_left .., hle⟩
      · simp only [claimed, hadd, hp, Nat.add_sub_cancel]
  | body v place =>
      rw [hp] at hq hknows
      have hbody : ∀ v' place', v'.endPos = v.endPos →
          Blocks ((code recvfrom s (.body v place)).after s)
            (Function.update ps i (.body v' place')) := by
        intro v' place' hend
        refine h.move ?_ (by rw [hp]; rfl) ?_ ?_
        · cases place with
          | loop | test =>
              simp only [code, bodyCode]
              split <;> rfl
          | _ => rfl
        · simp only [Point.Knows, hend]
          exact hknows
        · simp only [claimed, hp, hend]
      cases place with
      | loop | test =>
          simp only [code, bodyCode] at hq
          split at hq <;> cases hq <;> exact hbody _ _ rfl
      | exited => cases hq
      | _ =>
          cases hq
          exact hbody _ _ rfl

theorem blocks_of_reachable (h : (program recvfrom).Reachable c) :
    Blocks c.shared (points c) :=
  alone_invariant tracks_code not_wait (fun _ _ => id) h blocks_start
    fun _ _ _ _ hblocks halone hq => hblocks.step halone hq

/-! ## The bytes -/

/-- The sum of the positive results of the first `k` calls of a thread. -/
def received (recvfrom : Fin n → ℕ → ℤ) (t : Fin n) (k : ℕ) : ℕ :=
  ∑ j ∈ Finset.range k, (recvfrom t j).toNat

theorem received_succ (t : Fin n) (k : ℕ) :
    received recvfrom t (k + 1) = received recvfrom t k + (recvfrom t k).toNat :=
  Finset.sum_range_succ ..

/-- The number of calls that the thread has made. -/
def calls : Point n → ℕ
  | .body v _ => v.calls
  | _ => 0

/-- What the thread has added to the total. -/
def counted (recvfrom : Fin n → ℕ → ℤ) : Point n → ℕ
  | .body v .totalUnlock | .body v .exited => received recvfrom v.threadId v.calls
  | _ => 0

/-- What a thread knows of its own bytes, and of the total. -/
def Point.Counts (recvfrom : Fin n → ℕ → ℤ) (totalBytes : ℕ) (t : Fin n) : Point n → Prop
  | .claimLock t' | .claimRead t' | .claimLoad t' _ | .claimStore t' _ _
  | .claimUnlock t' _ => t' = t
  | .body v .test => v.threadId = t ∧ 0 < v.calls ∧
      v.localBytes = received recvfrom t (v.calls - 1) % 2 ^ 64
  | .body v .addLocal => v.threadId = t ∧ 0 < v.calls ∧
      v.localBytes = received recvfrom t (v.calls - 1) % 2 ^ 64 ∧ 0 < v.result recvfrom
  | .body v (.totalStore total) => v.threadId = t ∧
      v.localBytes = received recvfrom t v.calls % 2 ^ 64 ∧ total = totalBytes
  | .body v _ => v.threadId = t ∧ v.localBytes = received recvfrom t v.calls % 2 ^ 64

structure Totals (recvfrom : Fin n → ℕ → ℤ) (s : Shared) (ps : Fin n → Point n) : Prop where
  total : s.totalBytes = weight (counted recvfrom) ps % 2 ^ 64
  counts : ∀ i, (ps i).Counts recvfrom s.totalBytes i

theorem totals_start : Totals recvfrom ⟨0, 0, 0⟩ .claimLock where
  total := by simp [weight, counted]
  counts _ := rfl

/-- A step that leaves the total as it is. -/
theorem Totals.move (h : Totals recvfrom s ps) (htotal : s'.totalBytes = s.totalBytes)
    (hcounted : counted recvfrom q = counted recvfrom (ps i))
    (hq : q.Counts recvfrom s.totalBytes i) : Totals recvfrom s' (Function.update ps i q) := by
  have hweight := weight_update (counted recvfrom) ps i q
  refine ⟨?_, ?_⟩
  · rw [htotal, h.total]
    congr 1
    omega
  · rw [htotal]
    exact (Function.forall_update_iff ps fun k p => p.Counts recvfrom s.totalBytes k).mpr
      ⟨hq, fun k _ => h.counts k⟩

theorem addInt_toNat {x : ℕ} {y : ℤ} (hy : 0 < y) :
    addInt (x % 2 ^ 64) y = (x + y.toNat) % 2 ^ 64 := by
  obtain ⟨k, rfl⟩ := Int.eq_ofNat_of_zero_le hy.le
  rw [Int.toNat_natCast, addInt]
  omega

/-- The thread adds its bytes to the total. -/
theorem Totals.store (h : Totals recvfrom s ps) (halone : Alone inside (fun _ => False) ps i)
    {total : ℕ} (hi : ps i = .body v (.totalStore total)) :
    Totals recvfrom { s with totalBytes := addULL total v.localBytes }
      (Function.update ps i (.body v .totalUnlock)) := by
  have hcounts := h.counts i
  rw [hi] at hcounts
  obtain ⟨rfl, hlocal, rfl⟩ := hcounts
  have hin : inside (ps v.threadId) .mutex1 := by
    rw [hi]
    trivial
  have hweight := weight_update (counted recvfrom) ps v.threadId (.body v .totalUnlock)
  rw [hi] at hweight
  simp only [counted, Nat.add_zero] at hweight
  refine ⟨?_, fun k => ?_⟩
  · simp only [addULL]
    rw [hweight, h.total, hlocal, ← Nat.add_mod]
  · by_cases hk : k = v.threadId
    · subst hk
      rw [Function.update_self]
      exact ⟨rfl, hlocal⟩
    · rw [Function.update_of_ne hk]
      have hknows := h.counts k
      have hout : ¬ inside (ps k) .mutex1 := fun hkin => halone k _ hk hin hkin
      cases hp : ps k with
      | body w place =>
          rw [hp] at hknows hout
          cases place with
          | totalStore total => exact absurd trivial hout
          | _ => exact hknows
      | _ =>
          rw [hp] at hknows
          exact hknows

theorem received_last {t : Fin n} {k : ℕ} (hk : 0 < k) :
    received recvfrom t k = received recvfrom t (k - 1) + (recvfrom t (k - 1)).toNat := by
  rw [← received_succ, Nat.sub_add_cancel hk]

theorem Totals.step (h : Totals recvfrom s ps) (halone : Alone inside (fun _ => False) ps i)
    (hfresh : Fresh recvfrom s ps i) (hq : (code recvfrom s (ps i)).next? = some q) :
    Totals recvfrom ((code recvfrom s (ps i)).after s) (Function.update ps i q) := by
  have hcounts := h.counts i
  cases hp : ps i with
  | claimLock t | claimRead t | claimLoad t a | claimStore t a f =>
      rw [hp] at hq hcounts
      cases hq
      exact h.move rfl (by rw [hp]; rfl) hcounts
  | claimUnlock t a =>
      rw [hp] at hq hcounts
      cases hq
      exact h.move rfl (by rw [hp]; rfl) ⟨hcounts, rfl⟩
  | body v place =>
      rw [Fresh, hp] at hfresh
      rw [hp] at hq hcounts
      have hmove : ∀ v' place', counted recvfrom (.body v' place') =
            counted recvfrom (.body v place) →
          ((code recvfrom s (.body v place)).after s).totalBytes = s.totalBytes →
          (Point.body v' place').Counts recvfrom s.totalBytes i →
          Totals recvfrom ((code recvfrom s (.body v place)).after s)
            (Function.update ps i (.body v' place')) :=
        fun v' place' hcounted htotal hq => h.move htotal (by rw [hp, hcounted]) hq
      cases place with
      | loop =>
          simp only [code, bodyCode] at hq hmove ⊢
          by_cases hlt : v.startPos < v.endPos
          · simp only [if_pos hlt] at hq hmove ⊢
            cases hq
            exact hmove _ _ rfl rfl hcounts
          · simp only [if_neg hlt] at hq hmove ⊢
            cases hq
            exact hmove _ _ rfl rfl hcounts
      | recv =>
          cases hq
          exact hmove _ _ rfl rfl ⟨hcounts.1, Nat.succ_pos _, hcounts.2⟩
      | test =>
          obtain ⟨ht, hpos, hlocal⟩ := hcounts
          simp only [code, bodyCode] at hq hmove ⊢
          by_cases hread : 0 < s.bytesRead
          · simp only [if_pos hread] at hq hmove ⊢
            cases hq
            exact hmove _ _ rfl rfl ⟨ht, hpos, hlocal, hfresh.mp hread⟩
          · simp only [if_neg hread] at hq hmove ⊢
            cases hq
            refine hmove _ _ rfl rfl ⟨ht, ?_⟩
            have hresult : ¬ 0 < v.result recvfrom := fun hresult => hread (hfresh.mpr hresult)
            rw [Locals.result, ht] at hresult
            rw [hlocal, received_last hpos, Int.toNat_of_nonpos (by omega), Nat.add_zero]
      | addLocal =>
          obtain ⟨ht, hpos, hlocal, hresult⟩ := hcounts
          cases hq
          refine hmove _ _ rfl rfl ⟨ht, ?_⟩
          have hread : s.bytesRead = v.result recvfrom := hfresh
          simp only
          rw [hread, hlocal, addInt_toNat hresult, received_last hpos, Locals.result, ht]
      | addStart | totalLock | totalUnlock =>
          cases hq
          exact hmove _ _ rfl rfl hcounts
      | totalLoad =>
          cases hq
          exact hmove _ _ rfl rfl ⟨hcounts.1, hcounts.2, rfl⟩
      | totalStore total =>
          cases hq
          exact h.store halone hp
      | exited => cases hq

theorem totals_of_fresh
    (h : (program recvfrom).ReachableBy (Meets (Fresh recvfrom) fun _ _ _ => True) c) :
    Totals recvfrom c.shared (points c) := by
  apply conditional_invariant (P := fun s ps _ => Totals recvfrom s ps) tracks_code not_wait
    (fun _ _ => id) h totals_start
  · exact fun _ _ _ _ _ _ htotals _ hfresh halone hq _ => htotals.step halone hfresh hq
  · exact fun _ _ _ _ _ htotals _ _ => htotals

/-- Only a thread that has returned has halted. -/
theorem exists_exited (h : Halted (code recvfrom) s (c.threads i)) :
    ∃ v, points c i = .body v .exited := by
  have hhalt := isHalt_of_halted h
  cases hp : points c i with
  | body v place =>
      rw [hp] at hhalt
      cases place with
      | exited => exact ⟨v, rfl⟩
      | loop | test =>
          simp only [code, bodyCode] at hhalt
          split at hhalt <;> cases hhalt
      | _ => cases hhalt
  | _ =>
      rw [hp] at hhalt
      cases hhalt

theorem Totals.of_joined (h : Totals recvfrom c.shared (points c)) (hjoined : Joined recvfrom c) :
    c.shared.totalBytes = (∑ i, received recvfrom i (calls (points c i))) % 2 ^ 64 := by
  rw [h.total]
  congr 1
  refine Finset.sum_congr rfl fun i _ => ?_
  obtain ⟨v, hv⟩ := exists_exited (hjoined i)
  have hcounts := h.counts i
  rw [hv] at hcounts ⊢
  simp only [counted, calls, hcounts.1]

/-! ## A single thread -/

/-- Nobody else stores to `bytes_read`. -/
theorem fresh_of_single (hn : n ≤ 1) (h : (program recvfrom).Reachable c) :
    (program recvfrom).ReachableBy (Meets (Fresh recvfrom) fun _ _ _ => True) c := by
  refine reachableBy_of_good (fun c i p hc _ => ?_) h
  have hread : ∀ i v place, points c i = .body v place → place = .test ∨ place = .addLocal →
      c.shared.bytesRead = v.result recvfrom := by
    refine points_invariant (P := fun s ps => ∀ i v place, ps i = .body v place →
      place = .test ∨ place = .addLocal → s.bytesRead = v.result recvfrom) hc.reachable
      (fun _ _ _ hp => by cases hp) ?_
    intro s ps i q hread hq j v place hj hplace
    obtain rfl : j = i := Fin.ext (by omega)
    rw [Function.update_self] at hj
    subst hj
    cases hp : ps j with
    | body w place' =>
        rw [hp] at hq
        cases place' with
        | recv =>
            cases hq
            rfl
        | test =>
            have hown := hread j w _ hp (.inl rfl)
            by_cases hpos : 0 < s.bytesRead
            · simp only [code, bodyCode, if_pos hpos] at hq ⊢
              cases hq
              exact hown
            · simp only [code, bodyCode, if_neg hpos] at hq
              cases hq
              rcases hplace with hplace | hplace <;> cases hplace
        | loop =>
            simp only [code, bodyCode] at hq
            split at hq <;> cases hq <;> rcases hplace with hplace | hplace <;> cases hplace
        | exited => cases hq
        | _ =>
            cases hq
            rcases hplace with hplace | hplace <;> cases hplace
    | claimUnlock t a =>
        rw [hp] at hq
        cases hq
        rcases hplace with hplace | hplace <;> cases hplace
    | _ =>
        rw [hp] at hq
        cases hq
  cases hp : points c i with
  | body v place =>
      cases place with
      | test =>
          rw [Fresh, hp, Point.Fresh, hread i v _ hp (.inl rfl)]
      | addLocal =>
          rw [Fresh, hp]
          exact hread i v _ hp (.inr rfl)
      | _ =>
          rw [Fresh, hp]
          trivial
  | _ =>
      rw [Fresh, hp]
      trivial

/-! ## Results -/

/-- For any number of threads, any results of `recvfrom` and any interleaving: the blocks of
the threads are disjoint; and where each thread tests and adds `bytes_read` only while it
agrees with its own result, the total is the sum of the positive results when all threads
have been joined. A single thread always reads its own result. -/
theorem total_correct (recvfrom : Fin n → ℕ → ℤ) :
    (∀ c, (program recvfrom).Reachable c → ∀ i j a b, i ≠ j →
      claimed (points c i) = some a → claimed (points c j) = some b →
      a + blockSize n ≤ b ∨ b + blockSize n ≤ a) ∧
    (∀ c, (program recvfrom).ReachableBy (Meets (Fresh recvfrom) fun _ _ _ => True) c →
      Joined recvfrom c → c.shared.totalBytes =
        (∑ i, ∑ k ∈ Finset.range (calls (points c i)), (recvfrom i k).toNat) % 2 ^ 64) ∧
    (n ≤ 1 → ∀ c, (program recvfrom).Reachable c →
      (program recvfrom).ReachableBy (Meets (Fresh recvfrom) fun _ _ _ => True) c) :=
  ⟨fun _ h => (blocks_of_reachable h).apart,
    fun _ h hjoined => (totals_of_fresh h).of_joined hjoined, fun hn _ h => fresh_of_single hn h⟩

instance (recvfrom : Fin n → ℕ → ℤ) (c : Config (Fin n) Shared (Point n) Mutex Empty) :
    Decidable (Joined recvfrom c) :=
  inferInstanceAs (Decidable (∀ _, _))

/-- The first thread receives eight bytes, and then every call fails. -/
def eightBytes (i : Fin 2) (k : ℕ) : ℤ := if i.val = 0 ∧ k = 0 then 8 else -1

/-- The sum of the positive results of all calls that have been made. -/
def sumReceived (c : Config (Fin 2) Shared (Point 2) Mutex Empty) : ℕ :=
  ∑ i, ∑ k ∈ Finset.range (calls (points c i)), (eightBytes i k).toNat

/-- One thread after the other. -/
theorem total_correct_in_turn : ∃ c, (program eightBytes).Reachable c ∧ Joined eightBytes c ∧
    c.shared.totalBytes = sumReceived c % 2 ^ 64 := by
  have hrun : (((program eightBytes).guarded (Meets (Fresh eightBytes) fun _ _ _ => True)).exec
      (program eightBytes).init (List.replicate 17 (.run 0 none) ++
        List.replicate 12 (.run 1 none))).any (fun c => decide (Joined eightBytes c)) = true := by
    decide
  obtain ⟨c, hexec, hjoined⟩ := (Option.any_eq_true _ _).mp hrun
  have hreach : (program eightBytes).ReachableBy
    (Meets (Fresh eightBytes) fun _ _ _ => True) c := .of_exec hexec
  have hjoined := of_decide_eq_true hjoined
  exact ⟨c, hreach.reachable, hjoined, (total_correct eightBytes).2.1 c hreach hjoined⟩

/-- The second thread stores its failure before the first one tests its eight bytes. -/
theorem bytes_lost : ∃ c, (program eightBytes).Reachable c ∧ Joined eightBytes c ∧
    c.shared.totalBytes = 0 ∧ sumReceived c = 8 := by
  have hrun : ((program eightBytes).exec (program eightBytes).init
      (List.replicate 7 (.run 0 none) ++ List.replicate 7 (.run 1 none) ++
        List.replicate 5 (.run 0 none) ++ List.replicate 5 (.run 1 none))).any
      (fun c => decide (Joined eightBytes c ∧ c.shared.totalBytes = 0 ∧ sumReceived c = 8)) =
      true := by decide
  obtain ⟨c, hexec, hlost⟩ := (Option.any_eq_true _ _).mp hrun
  exact ⟨c, System.Reachable.init.exec hexec, of_decide_eq_true hlost⟩

end PthreadBenchmark.UdpServer
