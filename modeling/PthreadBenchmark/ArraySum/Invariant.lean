import PthreadBenchmark.ArraySum.Model
import PthreadBenchmark.Shared.PthreadJoins

/-! # What the threads know while they sum up

The local extremes start from zero, as the global ones do. -/

namespace PthreadBenchmark.ArraySum

open Pthread

variable {n : ℕ} {sizes : ℕ → ℕ} {arr : List ℤ} {s s' : Shared} {ps : Tid n → Point n}
  {q : Point n} {w : Fin n} {i m v lo hi : ℤ}

/-! ## Blocks -/

/-- The first index of a block. -/
def offset (sizes : ℕ → ℕ) : ℕ → ℤ
  | 0 => 0
  | w + 1 => offset sizes w + sizes w

theorem offset_nonneg (sizes : ℕ → ℕ) (w : ℕ) : 0 ≤ offset sizes w := by
  induction w with
  | zero => exact le_rfl
  | succ w ih => exact add_nonneg ih (Int.natCast_nonneg _)

theorem offset_le {w w' : ℕ} (h : w ≤ w') : offset sizes w ≤ offset sizes w' := by
  induction w', h using Nat.le_induction with
  | base => exact le_rfl
  | succ w' _ ih => exact ih.trans (le_add_of_nonneg_right (Int.natCast_nonneg _))

/-- Each index has a block. -/
theorem exists_block (h0 : 0 ≤ i) (hi : i < offset sizes n) :
    ∃ w : Fin n, offset sizes w ≤ i ∧ i < offset sizes (w + 1) := by
  induction n with
  | zero => exact absurd hi h0.not_gt
  | succ n ih =>
      by_cases hlt : i < offset sizes n
      · obtain ⟨w, hw⟩ := ih hlt
        exact ⟨w.castSucc, hw⟩
      · exact ⟨Fin.last n, not_lt.mp hlt, hi⟩

/-- The sum of a block. -/
def blockSum (sizes : ℕ → ℕ) (arr : List ℤ) (w : ℕ) : ℤ :=
  sumBefore arr (offset sizes (w + 1)) - sumBefore arr (offset sizes w)

theorem sum_blockSum (n : ℕ) :
    ∑ w : Fin n, blockSum sizes arr w = sumBefore arr (offset sizes n) := by
  rw [Fin.sum_univ_eq_sum_range (blockSum sizes arr) n]
  have htelescope := Finset.sum_range_sub (fun w => sumBefore arr (offset sizes w)) n
  rw [offset, sumBefore_zero, sub_zero] at htelescope
  exact htelescope

/-! ## Extremes -/

/-- An extreme of zero and the elements from `lo` up to `hi`. -/
structure Extreme (r : ℤ → ℤ → Prop) (arr : List ℤ) (lo hi m : ℤ) : Prop where
  attained : m = 0 ∨ m ∈ arr
  zero : r m 0
  bounds : Bounds r arr lo hi m

theorem Extreme.next_max (h : Extreme (· ≥ ·) arr lo i m) (hv : element? arr i = some v) :
    Extreme (· ≥ ·) arr lo (i + 1) (if v > m then v else m) := by
  have hzero : m ≥ 0 := h.zero
  split
  · next hlt =>
      exact ⟨.inr (mem_of_element? hv), hzero.le.trans hlt.le, h.bounds.next hlt.le hv le_rfl⟩
  · next hge => exact ⟨h.attained, hzero, h.bounds.next le_rfl hv (not_lt.mp hge)⟩

theorem Extreme.next_min (h : Extreme (· ≤ ·) arr lo i m) (hv : element? arr i = some v) :
    Extreme (· ≤ ·) arr lo (i + 1) (if v < m then v else m) := by
  have hzero : m ≤ 0 := h.zero
  split
  · next hlt =>
      exact ⟨.inr (mem_of_element? hv), hlt.le.trans hzero, h.bounds.next hlt.le hv le_rfl⟩
  · next hge => exact ⟨h.attained, hzero, h.bounds.next le_rfl hv (not_lt.mp hge)⟩

/-! ## Threads -/

/-- The extremes of the block of a thread. -/
abbrev BlockMax (sizes : ℕ → ℕ) (arr : List ℤ) (w : ℕ) (m : ℤ) : Prop :=
  Extreme (· ≥ ·) arr (offset sizes w) (offset sizes (w + 1)) m

abbrev BlockMin (sizes : ℕ → ℕ) (arr : List ℤ) (w : ℕ) (m : ℤ) : Prop :=
  Extreme (· ≤ ·) arr (offset sizes w) (offset sizes (w + 1)) m

/-- The global extremes are at least those of the block. -/
abbrev AboveMax (sizes : ℕ → ℕ) (arr : List ℤ) (w : ℕ) (m : ℤ) : Prop :=
  Bounds (· ≥ ·) arr (offset sizes w) (offset sizes (w + 1)) m

abbrev BelowMin (sizes : ℕ → ℕ) (arr : List ℤ) (w : ℕ) (m : ℤ) : Prop :=
  Bounds (· ≤ ·) arr (offset sizes w) (offset sizes (w + 1)) m

def WorkerPc.Fine (sizes : ℕ → ℕ) (arr : List ℤ) (s : Shared) (w : ℕ) : WorkerPc → Prop
  | .start | .first => True
  | .loop i localSum localMax localMin =>
    (offset sizes w ≤ i ∧ i ≤ offset sizes (w + 1)) ∧
      localSum = sumBefore arr i - sumBefore arr (offset sizes w) ∧
      Extreme (· ≥ ·) arr (offset sizes w) i localMax ∧
      Extreme (· ≤ ·) arr (offset sizes w) i localMin
  | .sumLoad localSum localMax localMin =>
    localSum = blockSum sizes arr w ∧ BlockMax sizes arr w localMax ∧ BlockMin sizes arr w localMin
  | .sumStore v localMax localMin =>
    v = s.sum + blockSum sizes arr w ∧ BlockMax sizes arr w localMax ∧
      BlockMin sizes arr w localMin
  | .sumUnlock localMax localMin | .minLock localMax localMin | .minTest localMax localMin =>
    BlockMax sizes arr w localMax ∧ BlockMin sizes arr w localMin
  | .minStore localMax localMin =>
    (BlockMax sizes arr w localMax ∧ BlockMin sizes arr w localMin) ∧ localMin < s.min
  | .minUnlock localMax | .maxLock localMax | .maxTest localMax =>
    BlockMax sizes arr w localMax ∧ BelowMin sizes arr w s.min
  | .maxStore localMax =>
    (BlockMax sizes arr w localMax ∧ BelowMin sizes arr w s.min) ∧ localMax > s.max
  | .maxUnlock | .exited => AboveMax sizes arr w s.max ∧ BelowMin sizes arr w s.min

/-- The thread has not yet added its sum. -/
def WorkerPc.Owes : WorkerPc → Bool
  | .start | .first | .loop .. | .sumLoad .. | .sumStore .. => true
  | _ => false

/-- What is still to be added to the sum. -/
def owed (sizes : ℕ → ℕ) (arr : List ℤ) : Point n → ℤ
  | .worker w pc => if pc.Owes then blockSum sizes arr w else 0
  | _ => 0

def Ready (sizes : ℕ → ℕ) (n : ℕ) (s : Shared) : Prop :=
  ∀ w < n, s.p w = ⟨offset sizes w, offset sizes (w + 1) - 1⟩

def WorkerFine (sizes : ℕ → ℕ) (arr : List ℤ) (s : Shared) (w : Fin n) : Point n → Prop
  | .worker w' pc => w' = w ∧ (pc = .start ∨ 0 < s.created) ∧ pc.Fine sizes arr s w
  | _ => False

def MainFine (sizes : ℕ → ℕ) (n : ℕ) (s : Shared) : Point n → Prop
  | .main (.split i t1) => s.created = 0 ∧ i ≤ n ∧ t1 = offset sizes i ∧ Ready sizes i s
  | .main _ => Ready sizes n s
  | _ => False

structure Summing (sizes : ℕ → ℕ) (arr : List ℤ) (s : Shared) (ps : Tid n → Point n) : Prop where
  main : MainFine sizes n s (ps none)
  started : 0 < s.created → Ready sizes n s
  workers : ∀ w, WorkerFine sizes arr s w (ps (some w))
  sum : s.sum + ∑ t, owed sizes arr (ps t) = ∑ w : Fin n, blockSum sizes arr w
  max : (s.max = 0 ∨ s.max ∈ arr) ∧ 0 ≤ s.max
  min : (s.min = 0 ∨ s.min ∈ arr) ∧ s.min ≤ 0

/-- The threads inside of the mutexes. -/
def Inside : Point n → Mutex → Prop
  | .worker _ (.sumLoad ..), m | .worker _ (.sumStore ..), m | .worker _ (.sumUnlock ..), m =>
    m = .mut1
  | .worker _ (.minTest ..), m | .worker _ (.minStore ..), m | .worker _ (.minUnlock ..), m =>
    m = .mut2
  | .worker _ (.maxTest ..), m | .worker _ (.maxStore ..), m | .worker _ .maxUnlock, m => m = .mut3
  | _, _ => False

/-! ## Steps -/

/-- A step of a thread of `func`. The other threads must not notice it. -/
theorem Summing.move (h : Summing sizes arr s ps) {pc pc' : WorkerPc}
    (hp : ps (some w) = .worker w pc) (hcreated : 0 < s.created)
    (hsame : s'.created = s.created ∧ s'.p = s.p)
    (hsum : s'.sum + owed sizes arr (.worker w pc') = s.sum + owed sizes arr (.worker w pc))
    (hmax : (s'.max = 0 ∨ s'.max ∈ arr) ∧ 0 ≤ s'.max)
    (hmin : (s'.min = 0 ∨ s'.min ∈ arr) ∧ s'.min ≤ 0)
    (hframe : ∀ w' pc, some w' ≠ some w → ps (some w') = .worker w' pc →
      pc.Fine sizes arr s w' → pc.Fine sizes arr s' w')
    (hfine : pc'.Fine sizes arr s' w) :
    Summing sizes arr s' (Function.update ps (some w) (.worker w pc')) := by
  obtain ⟨hsame, hparams⟩ := hsame
  refine ⟨?_, ?_, fun w' => ?_, ?_, hmax, hmin⟩
  · rw [Function.update_of_ne (by simp)]
    have hmain := h.main
    cases hpoint : ps none with
    | main pc =>
        rw [hpoint] at hmain
        cases pc <;> simpa only [MainFine, Ready, hsame, hparams] using hmain
    | worker | fault =>
        rw [hpoint] at hmain
        exact hmain
  · intro _
    simpa only [Ready, hparams] using h.started hcreated
  · by_cases hw : some w' = some w
    · cases hw
      rw [Function.update_self]
      exact ⟨rfl, .inr (by omega), hfine⟩
    · rw [Function.update_of_ne hw]
      have hworker := h.workers w'
      cases hpoint : ps (some w') with
      | worker w'' pc =>
          rw [hpoint] at hworker
          obtain ⟨rfl, hstarted, hold⟩ := hworker
          exact ⟨rfl, by rwa [hsame], hframe _ pc hw hpoint hold⟩
      | main | fault =>
          rw [hpoint] at hworker
          exact hworker
  · have hbalance := balance_update (owed sizes arr) ps (some w) (.worker w pc')
    have hold := h.sum
    rw [hp] at hbalance
    omega

/-- A step of a thread that does not change the shared variables. -/
theorem Summing.work (h : Summing sizes arr s ps) {pc pc' : WorkerPc}
    (hp : ps (some w) = .worker w pc) (hcreated : 0 < s.created) (howes : pc'.Owes = pc.Owes)
    (hfine : pc'.Fine sizes arr s w) :
    Summing sizes arr s (Function.update ps (some w) (.worker w pc')) :=
  h.move hp hcreated ⟨rfl, rfl⟩ (by rw [owed, owed, howes]) h.max h.min
    (fun _ _ _ _ hold => hold) hfine

/-! What a thread outside of the mutex knows does not change under a store. -/

theorem WorkerPc.Fine.storeSum {pc : WorkerPc} {k : ℕ} (h : pc.Fine sizes arr s k)
    (hout : ¬ Inside (.worker w pc) .mut1) : pc.Fine sizes arr { s with sum := v } k := by
  cases pc with
  | sumStore => exact absurd rfl hout
  | _ => exact h

theorem WorkerPc.Fine.storeMin {pc : WorkerPc} {k : ℕ} (h : pc.Fine sizes arr s k)
    (hle : m ≤ s.min) (hout : ¬ Inside (.worker w pc) .mut2) :
    pc.Fine sizes arr { s with min := m } k := by
  cases pc with
  | minStore => exact absurd rfl hout
  | minUnlock | maxLock | maxTest | maxUnlock | exited => exact ⟨h.1, h.2.trans hle⟩
  | maxStore => exact ⟨⟨h.1.1, h.1.2.trans hle⟩, h.2⟩
  | _ => exact h

theorem WorkerPc.Fine.storeMax {pc : WorkerPc} {k : ℕ} (h : pc.Fine sizes arr s k)
    (hle : s.max ≤ m) (hout : ¬ Inside (.worker w pc) .mut3) :
    pc.Fine sizes arr { s with max := m } k := by
  cases pc with
  | maxStore => exact absurd rfl hout
  | maxUnlock | exited => exact ⟨h.1.trans hle, h.2⟩
  | _ => exact h

/-- A thread goes over an element of its block. -/
theorem Summing.stepLoop (hsplit : offset sizes n = arr.length) (h : Summing sizes arr s ps)
    {localSum localMax localMin : ℤ}
    (hp : ps (some w) = .worker w (.loop i localSum localMax localMin)) (hcreated : 0 < s.created)
    (hfine : (WorkerPc.loop i localSum localMax localMin).Fine sizes arr s w)
    (hq : (func arr s w (.loop i localSum localMax localMin) : Step n).next? = some q) :
    Summing sizes arr ((func arr s w (.loop i localSum localMax localMin) : Step n).after s)
      (Function.update ps (some w) q) := by
  obtain ⟨⟨hlo, hhi⟩, hsum, hmax, hmin⟩ := hfine
  have hend : (s.p w).eindex = offset sizes (w + 1) - 1 := by rw [h.started hcreated w w.isLt]
  by_cases hloop : i ≤ (s.p w).eindex
  · have hlast : offset sizes (w + 1) ≤ offset sizes n := offset_le w.isLt
    obtain ⟨v, hv⟩ : ∃ v, element? arr i = some v :=
      exists_element? ((offset_nonneg sizes w).trans hlo) (by omega)
    simp only [func, if_pos hloop, hv] at hq ⊢
    cases hq
    refine h.work hp hcreated rfl ⟨⟨by omega, by omega⟩, ?_, hmax.next_max hv, hmin.next_min hv⟩
    rw [sumBefore_next hv, hsum]
    omega
  · simp only [func, if_neg hloop] at hq ⊢
    cases hq
    obtain rfl : i = offset sizes (w + 1) := by omega
    exact h.work hp hcreated rfl ⟨hsum, hmax, hmin⟩

theorem Summing.stepWorker (hsplit : offset sizes n = arr.length) (h : Summing sizes arr s ps)
    {pc : WorkerPc} (hp : ps (some w) = .worker w pc)
    (hunique : ∀ t m, Inside (.worker w pc) m → Inside (ps t) m → t = some w)
    (hq : (func arr s w pc : Step n).next? = some q) :
    Summing sizes arr ((func arr s w pc : Step n).after s) (Function.update ps (some w) q) := by
  obtain ⟨-, hstarted, hfine⟩ : _ ∧ _ ∧ pc.Fine sizes arr s w := hp ▸ h.workers w
  have hout : ∀ {w' : Fin n} {pc' : WorkerPc} m, Inside (.worker w pc) m → some w' ≠ some w →
      ps (some w') = .worker w' pc' → ¬ Inside (.worker w' pc') m := by
    intro w' pc' m hin hne hpoint hin'
    rw [← hpoint] at hin'
    exact hne (hunique _ m hin hin')
  cases pc with
  | start =>
      simp only [func] at hq ⊢
      rcases Op.await_cases hq with ⟨hcreated, rfl, hafter⟩ | ⟨rfl, hafter⟩
      · rw [hafter]
        exact h.work hp (by omega) rfl trivial
      · rw [hafter, ← hp, Function.update_eq_self]
        exact h
  | first =>
      have hcreated : 0 < s.created := hstarted.resolve_left (by simp)
      cases hq
      rw [h.started hcreated w w.isLt]
      have hle : offset sizes w ≤ offset sizes (w + 1) := offset_le (Nat.le_succ w)
      exact h.work hp hcreated rfl ⟨⟨le_rfl, hle⟩, (sub_self _).symm,
        ⟨.inl rfl, le_rfl, bounds_empty le_rfl⟩, ⟨.inl rfl, le_rfl, bounds_empty le_rfl⟩⟩
  | loop i localSum localMax localMin =>
      exact h.stepLoop hsplit hp (hstarted.resolve_left (by simp)) hfine hq
  | sumLoad localSum localMax localMin =>
      cases hq
      exact h.work hp (hstarted.resolve_left (by simp)) rfl ⟨by rw [hfine.1], hfine.2⟩
  | sumStore v localMax localMin =>
      cases hq
      refine h.move hp (hstarted.resolve_left (by simp)) ⟨rfl, rfl⟩ ?_ h.max h.min ?_ hfine.2
      · have hv : v = s.sum + blockSum sizes arr w := hfine.1
        simp only [func, Op.after, owed, WorkerPc.Owes, if_true, Bool.false_eq_true, if_false, hv,
          add_zero]
      · intro w' pc' hne hpoint hold
        exact hold.storeSum (hout .mut1 rfl hne hpoint)
  | minStore localMax localMin =>
      cases hq
      obtain ⟨⟨hmax, hmin⟩, hlt⟩ := hfine
      refine h.move hp (hstarted.resolve_left (by simp)) ⟨rfl, rfl⟩ rfl h.max
        ⟨hmin.attained, hmin.zero⟩ ?_ ⟨hmax, hmin.bounds⟩
      intro w' pc' hne hpoint hold
      exact hold.storeMin hlt.le (hout .mut2 rfl hne hpoint)
  | maxStore localMax =>
      cases hq
      obtain ⟨⟨hmax, hmin⟩, hlt⟩ := hfine
      refine h.move hp (hstarted.resolve_left (by simp)) ⟨rfl, rfl⟩ rfl
        ⟨hmax.attained, hmax.zero⟩ h.min ?_ ⟨hmax.bounds, hmin⟩
      intro w' pc' hne hpoint hold
      exact hold.storeMax hlt.le (hout .mut3 rfl hne hpoint)
  | minTest localMax localMin =>
      cases hq
      split
      · next hlt => exact h.work hp (hstarted.resolve_left (by simp)) rfl ⟨hfine, hlt⟩
      · next hge =>
          exact h.work hp (hstarted.resolve_left (by simp)) rfl
            ⟨hfine.1, hfine.2.bounds.trans (not_lt.mp hge)⟩
  | maxTest localMax =>
      cases hq
      split
      · next hlt => exact h.work hp (hstarted.resolve_left (by simp)) rfl ⟨hfine, hlt⟩
      · next hge =>
          exact h.work hp (hstarted.resolve_left (by simp)) rfl
            ⟨hfine.1.bounds.trans (not_lt.mp hge), hfine.2⟩
  | sumUnlock | minLock | minUnlock | maxLock | maxUnlock =>
      cases hq
      exact h.work hp (hstarted.resolve_left (by simp)) rfl hfine
  | exited => cases hq

/-- A step of `main`, which changes nothing that threads that have started know. -/
theorem Summing.stepOfMain (h : Summing sizes arr s ps) {created : ℕ} {p : ℕ → Params}
    {pc pc' : MainPc} (hp : ps none = .main pc) (hcreated : 0 < s.created → 0 < created)
    (hready : 0 < created → Ready sizes n { s with created := created, p := p })
    (hmain : MainFine sizes n { s with created := created, p := p } (.main pc' : Point n)) :
    Summing sizes arr { s with created := created, p := p }
      (Function.update ps none (.main pc')) := by
  refine ⟨by rwa [Function.update_self], hready, fun w => ?_, ?_, h.max, h.min⟩
  · rw [Function.update_of_ne (by simp)]
    have hworker := h.workers w
    cases hpoint : ps (some w) with
    | main | fault =>
        rw [hpoint] at hworker
        exact hworker
    | worker w' pc =>
        rw [hpoint] at hworker
        obtain ⟨hw, hstarted, hfine⟩ := hworker
        refine ⟨hw, hstarted.imp_right hcreated, ?_⟩
        cases pc <;> exact hfine
  · have hbalance := balance_update (owed sizes arr) ps none (.main pc')
    have hnone : ∀ pc, owed sizes arr (.main pc : Point n) = 0 := fun _ => rfl
    rw [hp, hnone, hnone, add_zero, sub_zero] at hbalance
    simp only
    rw [hbalance]
    exact h.sum

theorem Summing.stepMain (h : Summing sizes arr s ps) {pc : MainPc} (hp : ps none = .main pc)
    (hq : (ArraySum.main sizes s pc : Step n).next? = some q) :
    Summing sizes arr ((ArraySum.main sizes s pc : Step n).after s)
      (Function.update ps none q) := by
  have hfine : MainFine sizes n s (.main pc : Point n) := hp ▸ h.main
  cases pc with
  | split i t1 =>
      obtain ⟨hzero, hle, rfl, hready⟩ := hfine
      by_cases hlt : i < n
      · simp only [ArraySum.main, if_pos hlt] at hq ⊢
        cases hq
        refine h.stepOfMain hp id (fun hpos => by omega) ⟨hzero, hlt, ?_, ?_⟩
        · rw [offset]
          omega
        · intro w hw
          by_cases hwi : w = i
          · subst hwi
            simp only [Function.update_self, offset, Params.mk.injEq, true_and]
            omega
          · simp only [Function.update_of_ne hwi]
            exact hready w (by omega)
      · simp only [ArraySum.main, if_neg hlt] at hq ⊢
        cases hq
        obtain rfl : i = n := by omega
        exact h.stepOfMain hp id h.started hready
  | create i =>
      have hready : Ready sizes n s := hfine
      by_cases hlt : i < n
      · simp only [ArraySum.main, if_pos hlt] at hq ⊢
        cases hq
        exact h.stepOfMain hp (fun _ => Nat.succ_pos i) (fun _ => hready) hready
      · simp only [ArraySum.main, if_neg hlt] at hq ⊢
        cases hq
        exact h.stepOfMain hp id h.started hready
  | join i =>
      have hready : Ready sizes n s := hfine
      by_cases hlt : i < n
      · simp only [ArraySum.main, dif_pos hlt] at hq ⊢
        cases hq
        exact h.stepOfMain hp id h.started hready
      · simp only [ArraySum.main, dif_neg hlt] at hq ⊢
        cases hq
        exact h.stepOfMain hp id h.started hready
  | returned => cases hq

/-! ## Runs -/

variable {c : Config (Tid n) Shared (Point n) Mutex Empty} {p : ℕ → Params}

theorem tracks (s : Shared) (p : Point n) : Tracks Inside p (code sizes arr s p) := by
  cases p with
  | fault => trivial
  | main pc =>
      cases pc with
      | split | create | join =>
          simp only [code, main]
          split <;> exact fun _ => Iff.rfl
      | returned => trivial
  | worker w pc =>
      cases pc with
      | start =>
          simp only [code, func, Op.await]
          split_ifs <;> exact fun _ => Iff.rfl
      | minTest | maxTest =>
          simp only [code, func]
          split <;> exact fun _ => Iff.rfl
      | loop =>
          simp only [code, func]
          split
          · split <;> exact fun _ => Iff.rfl
          · intro m
            simp [Inside]
      | first | sumLoad | sumStore | minStore | maxStore => exact fun _ => Iff.rfl
      | sumUnlock | minLock | minUnlock | maxLock | maxUnlock =>
          intro m
          simp [Inside]
      | exited => trivial

theorem Summing.step (hsplit : offset sizes n = arr.length) (h : Summing sizes arr s ps)
    {t : Tid n} (hunique : ∀ t' m, Inside (ps t) m → Inside (ps t') m → t' = t)
    (hq : (code sizes arr s (ps t)).next? = some q) :
    Summing sizes arr ((code sizes arr s (ps t)).after s) (Function.update ps t q) := by
  cases t with
  | none =>
      have hmain := h.main
      cases hp : ps none with
      | main pc =>
          rw [hp] at hq
          exact h.stepMain hp hq
      | worker | fault =>
          rw [hp] at hmain
          exact hmain.elim
  | some w =>
      have hworker := h.workers w
      cases hp : ps (some w) with
      | worker w' pc =>
          rw [hp] at hq hworker hunique
          obtain ⟨rfl, -⟩ := hworker
          exact h.stepWorker hsplit hp hunique hq
      | main | fault =>
          rw [hp] at hworker
          exact hworker.elim

theorem summing_of_reachable (hsplit : offset sizes n = arr.length)
    (h : (program n sizes arr p).Reachable c) : Summing sizes arr c.shared (points c) := by
  refine exclusive_invariant tracks not_wait ?_ h ?_ ?_
  · intro t m
    cases t <;> exact id
  · refine ⟨⟨rfl, Nat.zero_le n, rfl, fun w hw => absurd hw (Nat.not_lt_zero w)⟩,
      fun hpos => absurd hpos (Nat.lt_irrefl 0), fun w => ⟨rfl, .inl rfl, trivial⟩, ?_,
      ⟨.inl rfl, le_rfl⟩, ⟨.inl rfl, le_rfl⟩⟩
    rw [Fintype.sum_option]
    simp [start, owed, WorkerPc.Owes]
  · intro s ps t q hsumming hunique hq
    exact hsumming.step hsplit (fun t' m => hunique t' m) hq

end PthreadBenchmark.ArraySum
