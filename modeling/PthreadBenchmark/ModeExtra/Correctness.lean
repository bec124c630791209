import PthreadBenchmark.ModeExtra.Model
import PthreadBenchmark.Shared.PthreadRules
import Mathlib

/-! # The score, the answer and the timers agree

A timer is never initialised, but a bit of `answer` is only set together with its timer,
and both functions change them under the mutex. -/

namespace PthreadBenchmark.ModeExtra

open Pthread
open BitTable (mask getLsbD_mask getLsbD_or_mask_iff getLsbD_and_not_mask_iff
  and_mask_ne_zero_iff)

variable {s old : Status} {x data : BitVec 16} {i k n : ℕ} {env : Env} {p q : Point}

/-! ## Bits -/

/-- The bits below `n` that are set. -/
def ones (n : ℕ) (x : BitVec 16) : ℕ := (List.range n).countP fun k => x.getLsbD k

theorem ones_succ (n : ℕ) (x : BitVec 16) :
    ones (n + 1) x = ones n x + if x.getLsbD n then 1 else 0 := by
  simp [ones, List.range_succ, List.countP_append, List.countP_cons]

theorem lowBit_sshiftRight (x : BitVec 16) (hi : i < 16) :
    lowBit (x.sshiftRight i) = if x.getLsbD i then 1 else 0 := by
  have hbit : x.sshiftRight i &&& 1#16 = if x.getLsbD i then 1#16 else 0#16 := by
    refine BitVec.eq_of_getLsbD_eq fun k hk => ?_
    rw [BitVec.getLsbD_and, BitVec.getLsbD_one, BitVec.getLsbD_sshiftRight]
    by_cases hk0 : k = 0
    · subst hk0
      cases hx : x.getLsbD i with
      | false => simp [Nat.not_le.mpr hi]
      | true => simp [hi]
    · cases hx : x.getLsbD i <;> simp [hk0]
  rw [lowBit, hbit]
  split <;> rfl

/-- The answers that are not in `data` are left. -/
theorem xor_and (x data : BitVec 16) : x ^^^ (x &&& data) = x &&& ~~~data := by
  refine BitVec.eq_of_getLsbD_eq fun k hk => ?_
  rw [BitVec.getLsbD_xor, BitVec.getLsbD_and, BitVec.getLsbD_and, BitVec.getLsbD_not]
  cases x.getLsbD k <;> cases data.getLsbD k <;> simp [hk]

theorem xor_and_right (x data : BitVec 16) : (x ^^^ data) &&& data = data &&& ~~~x := by
  refine BitVec.eq_of_getLsbD_eq fun k hk => ?_
  rw [BitVec.getLsbD_and, BitVec.getLsbD_xor, BitVec.getLsbD_and, BitVec.getLsbD_not]
  cases x.getLsbD k <;> cases data.getLsbD k <;> simp [hk]

/-! ## What the functions keep -/

/-- Every set bit is that of a button whose timer is in range. -/
def Lit (s : Status) : Prop :=
  ∀ k, s.answer.getLsbD k = true →
    k < switchButtonNum ∧ 0 ≤ s.restTime (k + 1) ∧ s.restTime (k + 1) ≤ 10 * delayBase

/-- What holds when the mutex is free. -/
structure Safe (s : Status) : Prop where
  score : 0 ≤ s.score
  lit : Lit s

theorem Safe.expire (h : Safe s) {timeGap : ℤ} (hgap : 0 ≤ timeGap) (hi : i < switchButtonNum) :
    Safe (expire i timeGap s) := by
  have hi16 : i % 16 = i := Nat.mod_eq_of_lt (hi.trans (by decide))
  unfold ModeExtra.expire
  by_cases hset : s.answer &&& mask 16 i ≠ 0
  · rw [if_pos hset]
    have hbit : s.answer.getLsbD i = true := by
      have hbit := (and_mask_ne_zero_iff (by decide)).mp hset
      rwa [hi16] at hbit
    obtain ⟨-, -, hle⟩ := h.lit i hbit
    -- the timers of the other buttons stay
    have hother : ∀ k, k ≠ i → s.answer.getLsbD k = true → k < switchButtonNum ∧
        0 ≤ Function.update s.restTime (i + 1) (s.restTime (i + 1) - timeGap) (k + 1) ∧
        Function.update s.restTime (i + 1) (s.restTime (i + 1) - timeGap) (k + 1) ≤
          10 * delayBase := by
      intro k hk hkbit
      rw [Function.update_of_ne (by omega)]
      exact h.lit k hkbit
    by_cases hneg : s.restTime (i + 1) - timeGap < 0
    · simp only [if_pos hneg]
      refine ⟨?_, fun k hk => ?_⟩
      · have hscore := h.score
        simp only
        split <;> omega
      · have hk16 : k < 16 := BitVec.lt_of_getLsbD hk
        obtain ⟨hkbit, hne⟩ := (getLsbD_and_not_mask_iff (by decide) hk16).mp hk
        rw [hi16] at hne
        exact hother k hne hkbit
    · simp only [if_neg hneg]
      refine ⟨h.score, fun k hk => ?_⟩
      by_cases hki : k = i
      · subst hki
        simp only [Function.update_self]
        exact ⟨hi, by omega, by omega⟩
      · exact hother k hki hk
  · rw [if_neg hset]
    exact h

theorem Safe.create (h : Safe s) (env : Env) (curNanoTime : ℤ) (v : Locals) :
    Safe (create env curNanoTime v s).1 := by
  unfold ModeExtra.create
  simp only
  split
  · have hno : env.rand (v.rands + 1) % switchButtonNum < switchButtonNum :=
      Nat.mod_lt _ (by decide)
    generalize env.rand (v.rands + 1) % switchButtonNum = no at hno
    have hno16 : no % 16 = no := Nat.mod_eq_of_lt (hno.trans (by decide))
    refine ⟨h.score, fun k hk => ?_⟩
    simp only [Nat.add_sub_cancel_left] at hk ⊢
    by_cases hkno : k = no
    · subst hkno
      have hdelay : env.rand v.rands % 10 < 10 := Nat.mod_lt _ (by decide)
      rw [Nat.add_comm 1, Function.update_self]
      refine ⟨hno, ?_, ?_⟩ <;> simp only [delayBase] <;> omega
    · rw [getLsbD_or_mask_iff (by decide), hno16] at hk
      rw [Function.update_of_ne (by omega)]
      exact h.lit k (hk.resolve_right hkno)
  · exact h

/-- Bits that are taken away leave a safe answer. -/
theorem Lit.and_not (h : Lit old) (hanswer : s.answer = old.answer &&& ~~~data)
    (hrest : s.restTime = old.restTime) : Lit s := by
  intro k hk
  rw [hanswer, BitVec.getLsbD_and, Bool.and_eq_true] at hk
  rw [hrest]
  exact h k hk.1

/-! ## The threads -/

def inside : Point → Mutex → Prop
  | .answer .., _ | .count .., _ | .clamp .., _ | .switchUnlock .., _ | .time .., _
  | .expire .., _ | .create .., _ | .workerUnlock .., _ => True
  | _, _ => False

theorem tracks_code (s : Status) (p : Point) : Tracks inside p (code (n := n) env s p) := by
  cases p with
  | call todo =>
      cases todo with
      | nil => exact fun _ => Iff.rfl
      | cons call todo => cases call <;> exact fun _ => Iff.rfl
  | count old data i correct incorrect todo =>
      simp only [code]
      split <;> exact fun _ => Iff.rfl
  | loop v =>
      simp only [code]
      split <;> exact fun _ => Iff.rfl
  | expire i timeGap curNanoTime v =>
      simp only [code]
      split <;> exact fun _ => Iff.rfl
  | _ => simp [code, Tracks, inside]

/-- The time of the last tick is the last reading of the clock. -/
def Timed (env : Env) (v : Locals) : Prop :=
  1 ≤ v.times ∧ v.prevNanoTime = env.clock (v.times - 1)

def Fits (env : Env) : Point → Prop
  | .loop v | .workerLock v | .time v | .create _ v | .workerUnlock v => Timed env v
  | .expire _ timeGap _ v => 0 ≤ timeGap ∧ Timed env v
  | _ => True

/-- The score of a call of the switch before it is cut off at zero. -/
def tally (n : ℕ) (old : Status) (data : BitVec 16) : ℤ :=
  old.score + ones n (old.answer &&& data) - ones n (data &&& ~~~old.answer)

/-- The answer and the timers behind the first step of the switch. -/
structure Answered (old : Status) (data : BitVec 16) (s : Status) : Prop where
  safe : Safe old
  answer : s.answer = old.answer &&& ~~~data
  restTime : s.restTime = old.restTime

theorem Answered.lit (h : Answered old data s) : Lit s :=
  h.safe.lit.and_not h.answer h.restTime

/-- What a thread knows of the status. -/
def View (s : Status) : Point → Prop
  | .count old data i correct incorrect _ =>
    Answered old data s ∧ i ≤ switchButtonNum ∧
      correct = (old.answer &&& data).sshiftRight i ∧
      incorrect = (data &&& ~~~old.answer).sshiftRight i ∧ s.score = tally i old data
  | .clamp old data _ => Answered old data s ∧ s.score = tally switchButtonNum old data
  | .switchUnlock old data _ =>
    Answered old data s ∧ s.score = max 0 (tally switchButtonNum old data)
  | _ => Safe s

/-- One turn of the counting loop looks at one bit of each word. -/
theorem tally_succ (old : Status) (data : BitVec 16) (hi : i < 16) :
    tally (i + 1) old data = tally i old data +
      lowBit ((old.answer &&& data).sshiftRight i) -
      lowBit ((data &&& ~~~old.answer).sshiftRight i) := by
  rw [lowBit_sshiftRight _ hi, lowBit_sshiftRight _ hi, tally, tally, ones_succ, ones_succ]
  split <;> split <;> push_cast <;> omega

theorem view_step (hp : Fits env p) (h : View s p)
    (hq : (code (n := n) env s p).next? = some q) :
    View ((code (n := n) env s p).after s) q := by
  cases p with
  | call todo =>
      cases todo with
      | nil =>
          cases hq
          exact h
      | cons call todo =>
          cases call with
          | switch data =>
              cases hq
              exact h
          | destroy =>
              cases hq
              exact ⟨h.score, h.lit⟩
  | answer data todo =>
      cases hq
      refine ⟨⟨h, xor_and _ _, rfl⟩, Nat.zero_le _, ?_, ?_, ?_⟩
      · exact (BitVec.sshiftRight_zero).symm
      · rw [BitVec.sshiftRight_zero]
        exact xor_and_right _ _
      · simp [Op.after, code, tally, ones]
  | count old data i correct incorrect todo =>
      obtain ⟨hanswered, hi, hcorrect, hincorrect, hscore⟩ := h
      simp only [code] at hq ⊢
      by_cases hlt : i < switchButtonNum
      · rw [if_pos hlt] at hq ⊢
        cases hq
        refine ⟨⟨hanswered.safe, hanswered.answer, hanswered.restTime⟩, hlt, ?_, ?_, ?_⟩
        · rw [hcorrect, BitVec.sshiftRight_add]
        · rw [hincorrect, BitVec.sshiftRight_add]
        · rw [tally_succ old data (hlt.trans (by decide)), ← hcorrect, ← hincorrect, ← hscore]
          rfl
      · rw [if_neg hlt] at hq ⊢
        cases hq
        obtain rfl : i = switchButtonNum := by omega
        exact ⟨hanswered, hscore⟩
  | clamp old data todo =>
      obtain ⟨hanswered, hscore⟩ := h
      cases hq
      refine ⟨⟨hanswered.safe, hanswered.answer, hanswered.restTime⟩, ?_⟩
      simp only [code, Op.after]
      rw [← hscore]
      split <;> omega
  | switchUnlock old data todo =>
      obtain ⟨hanswered, hscore⟩ := h
      cases hq
      refine ⟨?_, hanswered.lit⟩
      change 0 ≤ s.score
      rw [hscore]
      exact le_max_left ..
  | loop v =>
      simp only [code] at hq ⊢
      split at hq <;> cases hq <;> split <;> exact h
  | expire i timeGap curNanoTime v =>
      simp only [code] at hq ⊢
      by_cases hlt : i < switchButtonNum
      · rw [if_pos hlt] at hq ⊢
        cases hq
        exact Safe.expire h hp.1 hlt
      · rw [if_neg hlt] at hq ⊢
        cases hq
        exact h
  | create curNanoTime v =>
      cases hq
      exact Safe.create h env curNanoTime v
  | exited => cases hq
  | _ =>
      cases hq
      exact h

end PthreadBenchmark.ModeExtra
