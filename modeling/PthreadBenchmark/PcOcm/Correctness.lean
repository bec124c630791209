import PthreadBenchmark.PcOcm.Model
import PthreadBenchmark.Shared.PthreadConditions
import Mathlib.Data.List.Range

/-! # Buffers that are emptied before they are filled again

The producer looks at the flag `isProcessing`, which is down whenever it can see it; what it ought
to look at is `isEmpty`. -/

namespace PthreadBenchmark.PcOcm

open Pthread

variable {rounds : ℕ} {s s' : Shared} {ps : Tid → Point} {p q pp cp : Point} {buf : Buffer} {i : ℕ}
  {slot : Slot} {sl : Tid → Option Cond} {c c' : Config Tid Shared Point Mutex Cond}

/-! ## What the hand-off is for -/

/-- The consumer has processed the copies one by one, and the producer is at most one copy ahead,
so that no copy is lost; and no thread sleeps behind one that has finished. -/
structure HandOff (c : Config Tid Shared Point Mutex Cond) : Prop where
  processed : ∀ buf, (c.shared buf).processed = List.range (c.shared buf).processed.length
  copies : ∀ buf, (c.shared buf).copies ≤ (c.shared buf).processed.length + 1
  consumer : c.threads .producer = .running .exited → ∀ cond, ¬ AsleepOn cond (c.threads .consumer)
  producer : c.threads .consumer = .running .exited → ∀ cond, ¬ AsleepOn cond (c.threads .producer)

def Point.Emptied (s : Shared) : Point → Prop
  | .proTest buf _ => (s buf).isProcessing = false → (s buf).isEmpty = true
  | _ => True

instance (s : Shared) (p : Point) : Decidable (p.Emptied s) :=
  match p with
  | .proTest buf _ =>
    inferInstanceAs (Decidable ((s buf).isProcessing = false → (s buf).isEmpty = true))
  | .proLock _ _ | .proUnlock _ _ | .proSignal _ _ | .conLock _ _ | .conTest _ _
  | .conProcess _ _ | .conUnlock _ _ | .conSignal _ _ | .exited => isTrue trivial

/-- The producer may copy only into a buffer that is empty. -/
def Emptied (s : Shared) (ps : Tid → Point) (t : Tid) : Prop := (ps t).Emptied s

instance (s : Shared) (ps : Tid → Point) (t : Tid) : Decidable (Emptied s ps t) :=
  inferInstanceAs (Decidable ((ps t).Emptied s))

/-! ## One buffer -/

/-- The invariant of a buffer: it is empty or in process behind the last copy, and holds the copy
to be processed next otherwise. -/
structure Slot.Fine (slot : Slot) : Prop where
  processed : slot.processed = List.range slot.processed.length
  done : slot.isEmpty = true ∨ slot.isProcessing = true → slot.copies = slot.processed.length
  full : slot.isEmpty = false → slot.isProcessing = false →
    slot.copies = slot.processed.length + 1 ∧ slot.mem = slot.processed.length

theorem Slot.Fine.copyIn (h : slot.Fine) (hempty : slot.isEmpty = true)
    (hidle : slot.isProcessing = false) : (copyIn slot).Fine where
  processed := h.processed
  done := by simp [PcOcm.copyIn, hidle]
  full _ _ := by
    have hdone := h.done (.inl hempty)
    simp [PcOcm.copyIn, hdone]

theorem Slot.Fine.beginProcess (h : slot.Fine) (hfull : slot.isEmpty = false)
    (hidle : slot.isProcessing = false) : (beginProcess slot).Fine := by
  obtain ⟨hcopies, hmem⟩ := h.full hfull hidle
  refine ⟨?_, fun _ => ?_, by simp [PcOcm.beginProcess]⟩
  · simp only [PcOcm.beginProcess, List.length_append, List.length_singleton, List.range_succ, hmem]
    rw [← h.processed]
  · simpa [PcOcm.beginProcess] using hcopies

theorem Slot.Fine.endProcess (h : slot.Fine) (hbusy : slot.isProcessing = true) :
    (endProcess slot).Fine where
  processed := h.processed
  done _ := h.done (.inr hbusy)
  full := by simp [PcOcm.endProcess]

/-- How far the producer is ahead of the consumer. -/
theorem Slot.Fine.copies_le (h : slot.Fine) : slot.copies ≤ slot.processed.length + 1 := by
  by_cases hdone : slot.isEmpty = true ∨ slot.isProcessing = true
  · rw [h.done hdone]
    exact Nat.le_succ _
  · obtain ⟨hfull, hidle⟩ := not_or.mp hdone
    exact (h.full (Bool.eq_false_iff.mpr hfull) (Bool.eq_false_iff.mpr hidle)).1.le

/-! ## The rounds -/

/-- How often a thread comes to the buffer `buf` behind the buffer `buf'` of a round. -/
def ahead (buf : Buffer) : Buffer → ℕ → ℕ
  | .a, i => i + if buf = .b then 1 else 0
  | .b, i => i

/-- How often the thread at the point has still to copy into the buffer or to process it. -/
def left (buf : Buffer) : Point → ℕ
  | .proLock buf' i | .proTest buf' i | .conLock buf' i | .conTest buf' i =>
    ahead buf buf' i + if buf' = buf then 1 else 0
  | .proUnlock buf' i | .proSignal buf' i | .conProcess buf' i | .conUnlock buf' i
  | .conSignal buf' i => ahead buf buf' i
  | .exited => 0

theorem left_loop_pro (buf buf' : Buffer) (i : ℕ) :
    left buf (loop .proLock buf' i) = ahead buf buf' i := by
  cases buf' with
  | a => cases buf <;> rfl
  | b => cases i <;> cases buf <;> rfl

theorem left_loop_con (buf buf' : Buffer) (i : ℕ) :
    left buf (loop .conLock buf' i) = ahead buf buf' i := by
  cases buf' with
  | a => cases buf <;> rfl
  | b => cases i <;> cases buf <;> rfl

def Point.IsProducer : Point → Prop
  | .proLock _ _ | .proTest _ _ | .proUnlock _ _ | .proSignal _ _ | .exited => True
  | _ => False

def Point.IsConsumer : Point → Prop
  | .conLock _ _ | .conTest _ _ | .conProcess _ _ | .conUnlock _ _ | .conSignal _ _
  | .exited => True
  | _ => False

/-- The consumer is processing the buffer. -/
def Point.processes (buf : Buffer) : Point → Bool
  | .conProcess buf' _ => buf' = buf
  | _ => false

/-- A buffer between the producer at `pp` and the consumer at `cp`. -/
structure Between (rounds : ℕ) (buf : Buffer) (slot : Slot) (pp cp : Point) : Prop where
  fine : slot.Fine
  copies : slot.copies + left buf pp = rounds
  processed : slot.processed.length + left buf cp = rounds
  isProcessing : slot.isProcessing = cp.processes buf

theorem Between.producer (h : Between rounds buf slot pp cp) (hq : left buf q = left buf pp) :
    Between rounds buf slot q cp :=
  ⟨h.fine, hq ▸ h.copies, h.processed, h.isProcessing⟩

theorem Between.consumer (h : Between rounds buf slot pp cp) (hq : left buf q = left buf cp)
    (hprocesses : q.processes buf = cp.processes buf) : Between rounds buf slot pp q :=
  ⟨h.fine, h.copies, hq ▸ h.processed, hprocesses ▸ h.isProcessing⟩

theorem Between.copyIn (h : Between rounds buf slot (.proTest buf i) cp)
    (hempty : slot.isEmpty = true) (hidle : slot.isProcessing = false) :
    Between rounds buf (copyIn slot) (.proUnlock buf i) cp := by
  have hcopies := h.copies
  refine ⟨h.fine.copyIn hempty hidle, ?_, h.processed, h.isProcessing⟩
  simp only [left, if_true, PcOcm.copyIn] at hcopies ⊢
  omega

theorem Between.beginProcess (h : Between rounds buf slot pp (.conTest buf i))
    (hfull : slot.isEmpty = false) :
    Between rounds buf (beginProcess slot) pp (.conProcess buf i) := by
  have hprocessed := h.processed
  have hidle : slot.isProcessing = false := h.isProcessing
  refine ⟨h.fine.beginProcess hfull hidle, h.copies, ?_, by simp [PcOcm.beginProcess,
    Point.processes]⟩
  simp only [left, if_true, PcOcm.beginProcess, List.length_append, List.length_singleton]
    at hprocessed ⊢
  omega

theorem Between.endProcess (h : Between rounds buf slot pp (.conProcess buf i)) :
    Between rounds buf (endProcess slot) pp (.conUnlock buf i) := by
  have hbusy : slot.isProcessing = true := by
    rw [h.isProcessing]
    simp [Point.processes]
  exact ⟨h.fine.endProcess hbusy, h.copies, h.processed, rfl⟩

/-! ## The mutexes -/

def inside : Point → Mutex → Prop
  | .proTest buf _, m | .proUnlock buf _, m | .conTest buf _, m | .conProcess buf _, m
  | .conUnlock buf _, m => m = .mutex buf
  | _, _ => False

def Resting (p : Point) : Prop := ∃ buf i, p = .proTest buf i ∨ p = .conTest buf i

theorem not_inside_loop (lock : Buffer → ℕ → Point) (hlock : ∀ buf i m, ¬ inside (lock buf i) m)
    (buf : Buffer) (i : ℕ) (m : Mutex) : ¬ inside (loop lock buf i) m := by
  cases buf with
  | a => exact hlock _ _ m
  | b =>
      cases i with
      | zero => exact id
      | succ i => exact hlock _ _ m

theorem tracks_code (s : Shared) (p : Point) : Tracks inside p (code s p) := by
  cases p with
  | proTest buf i | conTest buf i =>
      simp only [code]
      split
      · exact ⟨rfl, fun _ => Iff.rfl⟩
      · exact fun _ => Iff.rfl
  | proSignal buf i =>
      exact fun m => iff_of_false (not_inside_loop .proLock (fun _ _ _ => id) buf i m) id
  | conSignal buf i =>
      exact fun m => iff_of_false (not_inside_loop .conLock (fun _ _ _ => id) buf i m) id
  | _ => simp [code, Tracks, inside]

theorem resting_of_wait (s : Shared) (p : Point) (cond : Cond) (m : Mutex) (q : Point)
    (h : code s p = .wait cond m q) : Resting q := by
  cases p with
  | proTest buf i =>
      simp only [code] at h
      split at h <;> cases h
      exact ⟨buf, i, .inl rfl⟩
  | conTest buf i =>
      simp only [code] at h
      split at h <;> cases h
      exact ⟨buf, i, .inr rfl⟩
  | _ => cases h

theorem not_inside_start (t : Tid) (m : Mutex) : ¬ inside (start rounds t) m := by
  cases t <;> exact not_inside_loop _ (fun _ _ _ => id) _ _ m

/-! ## The invariant of the runs whose copies go into empty buffers -/

structure Sound (rounds : ℕ) (s : Shared) (ps : Tid → Point) (sl : Tid → Option Cond) : Prop where
  producer : (ps .producer).IsProducer
  consumer : (ps .consumer).IsConsumer
  between : ∀ buf, Between rounds buf (s buf) (ps .producer) (ps .consumer)
  awake : sl .producer = none

theorem sound_start : Sound rounds queueInit (start rounds) fun _ => none := by
  have hleft : ∀ buf, left buf (start rounds .producer) = rounds ∧
      left buf (start rounds .consumer) = rounds :=
    fun buf => ⟨left_loop_pro buf .b rounds, left_loop_con buf .b rounds⟩
  have hkind : (start rounds .producer).IsProducer ∧ (start rounds .consumer).IsConsumer ∧
      ∀ buf, (start rounds .consumer).processes buf = false := by
    cases rounds <;> exact ⟨trivial, trivial, fun _ => rfl⟩
  refine ⟨hkind.1, hkind.2.1, fun buf => ⟨⟨rfl, fun _ => rfl, fun hfull => by cases hfull⟩, ?_, ?_,
    (hkind.2.2 buf).symm⟩, rfl⟩
  · exact (Nat.zero_add _).trans (hleft buf).1
  · exact (Nat.zero_add _).trans (hleft buf).2

/-- While the producer holds the mutex of a buffer, the consumer does not process the buffer. -/
theorem Sound.idle (h : Sound rounds s ps sl) (halone : Alone inside Resting ps .producer)
    (hp : ps .producer = .proTest buf i) : (s buf).isProcessing = false := by
  rw [(h.between buf).isProcessing]
  cases hc : ps .consumer <;> simp only [Point.processes]
  case conProcess buf' j =>
    rw [decide_eq_false_iff_not]
    rintro rfl
    obtain ⟨buf, k, hrest⟩ := halone .consumer (.mutex buf') (by simp) (by rw [hp]; rfl)
      (by rw [hc]; rfl)
    rw [hc] at hrest
    rcases hrest with hrest | hrest <;> cases hrest

/-- A step of the producer that leaves the buffers alone. -/
theorem Sound.move_producer (h : Sound rounds s ps sl) {sl' : Tid → Option Cond}
    (hq : q.IsProducer) (hleft : ∀ buf, left buf q = left buf (ps .producer))
    (hawake : sl' .producer = none) : Sound rounds s (Function.update ps .producer q) sl' := by
  have hconsumer : Function.update ps .producer q .consumer = ps .consumer :=
    Function.update_of_ne (by simp) _ _
  refine ⟨by rwa [Function.update_self], by rw [hconsumer]; exact h.consumer, fun buf => ?_, hawake⟩
  rw [Function.update_self, hconsumer]
  exact (h.between buf).producer (hleft buf)

/-- A step of the consumer that leaves the buffers alone. -/
theorem Sound.move_consumer (h : Sound rounds s ps sl) {sl' : Tid → Option Cond}
    (hq : q.IsConsumer) (hleft : ∀ buf, left buf q = left buf (ps .consumer))
    (hprocesses : ∀ buf, q.processes buf = (ps .consumer).processes buf)
    (hawake : sl' .producer = none) : Sound rounds s (Function.update ps .consumer q) sl' := by
  have hproducer : Function.update ps .consumer q .producer = ps .producer :=
    Function.update_of_ne (by simp) _ _
  refine ⟨by rw [hproducer]; exact h.producer, by rwa [Function.update_self], fun buf => ?_, hawake⟩
  rw [Function.update_self, hproducer]
  exact (h.between buf).consumer (hleft buf) (hprocesses buf)

theorem awake_of_sleeps {sl sl' : Tid → Option Cond} {cond : Cond} (h : sl .producer = none)
    (hsleeps : sl' = sl ∨ ∃ j, sl j = some cond ∧ sl' = Function.update sl j none) :
    sl' .producer = none := by
  rcases hsleeps with rfl | ⟨j, -, rfl⟩
  · exact h
  · cases j with
    | producer => rw [Function.update_self]
    | consumer => rwa [Function.update_of_ne (by simp)]

theorem Sound.step_producer (h : Sound rounds s ps sl) {sl' : Tid → Option Cond}
    (hgood : Emptied s ps .producer) (halone : Alone inside Resting ps .producer)
    (hq : (code s (ps .producer)).next? = some q)
    (hsleeps : Sleeps .producer sl sl' (code s (ps .producer))) :
    Sound rounds ((code s (ps .producer)).after s) (Function.update ps .producer q) sl' := by
  have hkind := h.producer
  cases hp : ps .producer with
  | proLock buf i | proUnlock buf i =>
      rw [hp] at hq hsleeps
      cases hq
      cases hsleeps
      exact h.move_producer trivial (fun buf => by rw [hp]; rfl) h.awake
  | proSignal buf i =>
      rw [hp] at hq hsleeps
      cases hq
      refine h.move_producer ?_ (fun buf' => ?_) (awake_of_sleeps h.awake hsleeps)
      · cases buf <;> cases i <;> trivial
      · rw [hp, left_loop_pro]
        rfl
  | proTest buf i =>
      have hidle := h.idle halone hp
      rw [Emptied, hp] at hgood
      rw [hp] at hq hsleeps
      simp only [code, hidle, Bool.false_eq_true, if_false] at hq hsleeps ⊢
      cases hq
      cases hsleeps
      have hconsumer : Function.update ps .producer (Point.proUnlock buf i) .consumer =
          ps .consumer := Function.update_of_ne (by simp) _ _
      refine ⟨by rw [Function.update_self]; trivial, by rw [hconsumer]; exact h.consumer,
        fun buf' => ?_, h.awake⟩
      have hbetween := h.between buf'
      rw [hp] at hbetween
      rw [Function.update_self, hconsumer]
      by_cases hbuf : buf' = buf
      · subst hbuf
        simpa only [Op.after, Function.update_self] using hbetween.copyIn (hgood hidle) hidle
      · simp only [Op.after, Function.update_of_ne hbuf]
        exact hbetween.producer (q := .proUnlock buf i) (by simp [left, Ne.symm hbuf])
  | exited =>
      rw [hp] at hq
      cases hq
  | _ =>
      rw [hp] at hkind
      exact hkind.elim

theorem Sound.step_consumer (h : Sound rounds s ps sl) {sl' : Tid → Option Cond}
    (hq : (code s (ps .consumer)).next? = some q)
    (hsleeps : Sleeps .consumer sl sl' (code s (ps .consumer))) :
    Sound rounds ((code s (ps .consumer)).after s) (Function.update ps .consumer q) sl' := by
  have hkind := h.consumer
  have hproducer : ∀ q, Function.update ps .consumer q .producer = ps .producer :=
    fun q => Function.update_of_ne (by simp) _ _
  cases hp : ps .consumer with
  | conLock buf i | conUnlock buf i =>
      rw [hp] at hq hsleeps
      cases hq
      cases hsleeps
      exact h.move_consumer trivial (fun buf => by rw [hp]; rfl) (fun buf => by rw [hp]; rfl)
        h.awake
  | conSignal buf i =>
      rw [hp] at hq hsleeps
      cases hq
      refine h.move_consumer ?_ (fun buf' => ?_) (fun buf' => ?_)
        (awake_of_sleeps h.awake hsleeps)
      · cases buf <;> cases i <;> trivial
      · rw [hp, left_loop_con]
        rfl
      · rw [hp]
        cases buf <;> cases i <;> rfl
  | conTest buf i =>
      rw [hp] at hq hsleeps
      simp only [code] at hq hsleeps ⊢
      split at hq
      · next hempty =>
          cases hq
          rw [if_pos hempty] at hsleeps ⊢
          cases hsleeps
          refine h.move_consumer trivial (fun buf => by rw [hp]) (fun buf => by rw [hp]) ?_
          rw [Function.update_of_ne (by simp)]
          exact h.awake
      · next hfull =>
          cases hq
          rw [if_neg hfull] at hsleeps ⊢
          cases hsleeps
          refine ⟨by rw [hproducer]; exact h.producer, by rw [Function.update_self]; trivial,
            fun buf' => ?_, h.awake⟩
          have hbetween := h.between buf'
          rw [hp] at hbetween
          rw [Function.update_self, hproducer]
          by_cases hbuf : buf' = buf
          · subst hbuf
            simpa only [Op.after, Function.update_self] using
              hbetween.beginProcess (Bool.eq_false_iff.mpr hfull)
          · simp only [Op.after, Function.update_of_ne hbuf]
            exact hbetween.consumer (q := .conProcess buf i) (by simp [left, Ne.symm hbuf])
              (by simp [Point.processes, Ne.symm hbuf])
  | conProcess buf i =>
      rw [hp] at hq hsleeps
      cases hq
      cases hsleeps
      refine ⟨by rw [hproducer]; exact h.producer, by rw [Function.update_self]; trivial,
        fun buf' => ?_, h.awake⟩
      have hbetween := h.between buf'
      rw [hp] at hbetween
      rw [Function.update_self, hproducer]
      by_cases hbuf : buf' = buf
      · subst hbuf
        simpa only [code, Op.after, Function.update_self] using hbetween.endProcess
      · simp only [code, Op.after, Function.update_of_ne hbuf]
        exact hbetween.consumer (q := .conUnlock buf i) rfl
          (by simp [Point.processes, Ne.symm hbuf])
  | exited =>
      rw [hp] at hq
      cases hq
  | _ =>
      rw [hp] at hkind
      exact hkind.elim

theorem sound_of_emptied
    (h : (program rounds).ReachableBy (Meets Emptied fun _ _ _ => True) c) :
    Sound rounds c.shared (points c) (sleepers c) := by
  apply conditional_invariant tracks_code resting_of_wait not_inside_start h sound_start
  · intro s ps sl sl' t q hinv _ hgood halone hq hsleeps
    cases t with
    | producer => exact hinv.step_producer hgood halone hq hsleeps
    | consumer => exact hinv.step_consumer hq hsleeps
  · intro s ps sl t cond hinv _ hcond
    refine ⟨hinv.producer, hinv.consumer, hinv.between, ?_⟩
    cases t with
    | producer => rw [Function.update_self]
    | consumer =>
        rw [Function.update_of_ne (by simp)]
        exact hinv.awake

/-! ## No lost wakeup -/

/-- The producer has still to signal, or the consumer to test. -/
def wakeupCredit (buf : Buffer) : Point → ℕ
  | .proUnlock buf' _ | .proSignal buf' _ | .conTest buf' _ | .conProcess buf' _ =>
    if buf' = buf then 1 else 0
  | _ => 0

theorem isProducer_of_next (h : p.IsProducer) (hq : (code s p).next? = some q) :
    q.IsProducer := by
  cases p with
  | proTest buf i =>
      simp only [code] at hq
      split at hq <;> cases hq <;> trivial
  | proSignal buf i =>
      cases hq
      cases buf <;> cases i <;> trivial
  | proLock buf i | proUnlock buf i =>
      cases hq
      trivial
  | exited => cases hq
  | _ => exact h.elim

theorem isConsumer_of_next (h : p.IsConsumer) (hq : (code s p).next? = some q) :
    q.IsConsumer := by
  cases p with
  | conTest buf i =>
      simp only [code] at hq
      split at hq <;> cases hq <;> trivial
  | conSignal buf i =>
      cases hq
      cases buf <;> cases i <;> trivial
  | conLock buf i | conProcess buf i | conUnlock buf i =>
      cases hq
      trivial
  | exited => cases hq
  | _ => exact h.elim

/-- The producer empties no buffer. -/
theorem isEmpty_after (h : p.IsProducer) (hfull : (s buf).isEmpty = false) :
    ((code s p).after s buf).isEmpty = false := by
  cases p with
  | proTest buf' i =>
      simp only [code]
      split
      · exact hfull
      · by_cases hbuf : buf = buf'
        · subst hbuf
          simp [Op.after, copyIn]
        · simpa [Op.after, Function.update_of_ne hbuf] using hfull
  | proLock buf i | proUnlock buf i | proSignal buf i | exited => exact hfull
  | _ => exact h.elim

/-- What is about to be processed is not empty. -/
theorem isEmpty_of_conTest {j : ℕ} (hq : (code s p).next? = some (.conProcess buf j)) :
    ((code s p).after s buf).isEmpty = false := by
  cases p with
  | conTest buf' i =>
      simp only [code] at hq ⊢
      split at hq
      · cases hq
      · next hfull =>
          cases hq
          rw [if_neg hfull]
          simpa [Op.after, beginProcess] using hfull
  | proTest buf' i =>
      simp only [code] at hq
      split at hq <;> cases hq
  | proSignal buf' i | conSignal buf' i => cases buf' <;> cases i <;> cases hq
  | _ => cases hq

/-- Each thread stays at its own points, and what is processed is not empty. -/
structure Kept (s : Shared) (ps : Tid → Point) : Prop where
  producer : (ps .producer).IsProducer
  consumer : (ps .consumer).IsConsumer
  full : ∀ buf i, ps .consumer = .conProcess buf i → (s buf).isEmpty = false

theorem kept_of_reachable (h : (program rounds).Reachable c) : Kept c.shared (points c) := by
  refine points_invariant (P := Kept) h ?_ ?_
  · cases rounds <;> exact ⟨trivial, trivial, fun _ _ hp => by cases hp⟩
  · rintro s ps t q ⟨hproducer, hconsumer, hfull⟩ hq
    cases t with
    | producer =>
        have hother : Function.update ps .producer q .consumer = ps .consumer :=
          Function.update_of_ne (by simp) _ _
        refine ⟨?_, by rwa [hother], fun buf i hp => ?_⟩
        · rw [Function.update_self]
          exact isProducer_of_next hproducer hq
        · rw [hother] at hp
          exact isEmpty_after hproducer (hfull buf i hp)
    | consumer =>
        refine ⟨by rwa [Function.update_of_ne (by simp)], ?_, fun buf i hp => ?_⟩
        · rw [Function.update_self]
          exact isConsumer_of_next hconsumer hq
        · rw [Function.update_self] at hp
          exact isEmpty_of_conTest (hp ▸ hq)

theorem pays_isReady (buf : Buffer) (s : Shared) (p : Point)
    (hfull : ∀ buf i, p = .conProcess buf i → (s buf).isEmpty = false) :
    Pays (.isReady buf) (fun s => if (s buf).isEmpty then 0 else 1) (wakeupCredit buf) s p
      (code s p) := by
  cases p with
  | proTest buf' i =>
      simp only [code]
      split
      · simp [Pays, wakeupCredit]
      · by_cases hbuf : buf' = buf
        · subst hbuf
          simp [Pays, wakeupCredit, copyIn]
        · simp [Pays, wakeupCredit, hbuf, Function.update_of_ne (Ne.symm hbuf)]
  | conTest buf' i =>
      simp only [code]
      split
      · next hempty =>
          by_cases hbuf : buf' = buf
          · subst hbuf
            simp [Pays, wakeupCredit, hempty]
          · simp [Pays, wakeupCredit, hbuf]
      · by_cases hbuf : buf' = buf
        · subst hbuf
          simp [Pays, wakeupCredit, beginProcess]
        · simp [Pays, wakeupCredit, hbuf, Function.update_of_ne (Ne.symm hbuf)]
  | conProcess buf' i =>
      by_cases hbuf : buf' = buf
      · subst hbuf
        simp [code, Pays, wakeupCredit, endProcess, hfull _ _ rfl]
      · simp [code, Pays, wakeupCredit, hbuf, Function.update_of_ne (Ne.symm hbuf)]
  | _ => simp [code, Pays, wakeupCredit]

theorem covered_isReady (h : (program rounds).Reachable c) (buf : Buffer) :
    Covered (.isReady buf) (fun s : Shared => if (s buf).isEmpty then 0 else 1) (wakeupCredit buf)
      c.shared c.threads := by
  refine covered_of_pays (fun c hc t p ht => pays_isReady buf c.shared p fun buf i hp => ?_) h
  have hkept := kept_of_reachable hc
  have hpoint : points c t = .conProcess buf i := (points_of_running ht).trans hp
  cases t with
  | consumer => exact hkept.full buf i hpoint
  | producer =>
      have hproducer := hkept.producer
      rw [hpoint] at hproducer
      exact hproducer.elim

/-- Behind a producer that has finished, the consumer sleeps on empty buffers only. -/
theorem isEmpty_of_asleep (h : (program rounds).Reachable c)
    (hproducer : c.threads .producer = .running .exited) {m : Mutex}
    (hconsumer : c.threads .consumer = .asleep (.isReady buf) m (.conTest buf i)) :
    (c.shared buf).isEmpty = true := by
  have hasleep : AsleepOn (.isReady buf) (c.threads .consumer) := by
    rw [hconsumer]
    rfl
  have hneed := (covered_isReady h buf).need_le hasleep
  have hzero : weight (credit (wakeupCredit buf)) c.threads = 0 := by
    rw [weight_eq_zero_iff]
    intro t
    cases t with
    | producer => rw [hproducer]; rfl
    | consumer => rw [hconsumer]; rfl
  by_contra hfull
  simp only [hzero, if_neg hfull] at hneed
  omega

/-- Where a thread sleeps, and on what. -/
def SleepsAt (cond : Cond) (_ : Mutex) (q : Point) : Prop :=
  ∃ buf i, (cond = .isReady buf ∧ q = .conTest buf i) ∨
    (cond = .isntProcessing buf ∧ q = .proTest buf i)

theorem sleepsAt_of_wait (s : Shared) (p : Point) (cond : Cond) (m : Mutex) (q : Point)
    (h : code s p = .wait cond m q) : SleepsAt cond m q := by
  cases p with
  | proTest buf i =>
      simp only [code] at h
      split at h <;> cases h
      exact ⟨buf, i, .inr ⟨rfl, rfl⟩⟩
  | conTest buf i =>
      simp only [code] at h
      split at h <;> cases h
      exact ⟨buf, i, .inl ⟨rfl, rfl⟩⟩
  | _ => cases h

/-! ## Results -/

theorem handOff_of_emptied
    (h : (program rounds).ReachableBy (Meets Emptied fun _ _ _ => True) c) : HandOff c := by
  have hsound := sound_of_emptied h
  refine ⟨fun buf => (hsound.between buf).fine.processed,
    fun buf => (hsound.between buf).fine.copies_le, fun hexited cond hasleep => ?_,
    fun _ cond hasleep => ?_⟩
  · obtain ⟨m, q, hconsumer⟩ := exists_asleep hasleep
    have hkind := hsound.consumer
    have hwaits := waits_of_reachable sleepsAt_of_wait h.reachable .consumer
    rw [hconsumer] at hwaits
    rw [points_of_asleep hconsumer] at hkind
    obtain ⟨buf, i, ⟨rfl, rfl⟩ | ⟨-, rfl⟩⟩ := hwaits
    · -- all copies have been made, and the consumer has still to process one
      have hempty := isEmpty_of_asleep h.reachable hexited hconsumer
      have hbetween := hsound.between buf
      simp only [points, hexited, hconsumer, point] at hbetween
      have hdone := hbetween.fine.done (.inl hempty)
      have hcopies := hbetween.copies
      have hprocessed := hbetween.processed
      simp only [left, if_true] at hcopies hprocessed
      omega
    · exact hkind
  · obtain ⟨m, q, hproducer⟩ := exists_asleep hasleep
    have hawake := hsound.awake
    simp only [sleepers, hproducer, sleeping, reduceCtorEq] at hawake

/-- A copy into a buffer that is not empty overwrites a copy that has not been processed. -/
theorem not_handOff_of_not_emptied {a : Action Tid}
    (h : (program rounds).ReachableBy (Meets Emptied fun _ _ _ => True) c)
    (hs : (program rounds).step c a = some c') (hbad : ¬ Meets Emptied (fun _ _ _ => True) c a) :
    ¬ HandOff c' := by
  obtain ⟨t, p, q, -, hlack, -, -, hshared⟩ := exists_of_not_meets hs hbad
  cases hp : points c t <;> simp only [Emptied, hp, Point.Emptied, not_true_eq_false] at hlack
  case proTest buf i =>
    simp only [Classical.not_imp, Bool.not_eq_true] at hlack
    obtain ⟨hidle, hfull⟩ := hlack
    intro hhandoff
    have hle := hhandoff.copies buf
    obtain ⟨hcopies, -⟩ := ((sound_of_emptied h).between buf).fine.full hfull hidle
    rw [hshared, hp] at hle
    simp only [code, hidle, Bool.false_eq_true, if_false, Op.after, Function.update_self,
      copyIn] at hle
    omega

/-- In a single round each buffer is empty when it is filled. -/
theorem emptied_of_one_round (hrounds : rounds ≤ 1) (h : (program rounds).Reachable c) :
    (program rounds).ReachableBy (Meets Emptied fun _ _ _ => True) c := by
  refine reachableBy_of_good (fun c t p hc _ => ?_) h
  have hsound := sound_of_emptied hc
  cases hp : points c t <;> simp only [Emptied, hp, Point.Emptied]
  case proTest buf i =>
    intro hidle
    by_contra hfull
    have hbetween := hsound.between buf
    have hfine := hbetween.fine.full (Bool.eq_false_iff.mpr hfull) hidle
    have hcopies := hbetween.copies
    cases t with
    | producer =>
        rw [hp] at hcopies
        simp only [left, if_true] at hcopies
        omega
    | consumer =>
        have hkind := hsound.consumer
        rw [hp] at hkind
        exact hkind

/-- With more rounds the producer may copy into A twice before the consumer starts. -/
theorem exists_not_handOff_of_two_le (n : ℕ) :
    ∃ c, (program (n + 2)).Reachable c ∧ ¬ HandOff c := by
  obtain ⟨c, hexec, hcopies, hprocessed⟩ : ∃ c, (program (n + 2)).exec (program (n + 2)).init
      (List.replicate 10 (Action.run .producer none)) = some c ∧ (c.shared .a).copies = 2 ∧
      (c.shared .a).processed = [] := ⟨_, rfl, rfl, rfl⟩
  refine ⟨c, System.Reachable.init.exec hexec, fun hhandoff => ?_⟩
  have hle := hhandoff.copies .a
  rw [hcopies, hprocessed] at hle
  simp at hle

/-- For any number of rounds and any interleaving: where the producer copies only into empty
buffers, the `k`-th copy processed is the `k`-th one made, none is overwritten before, and no thread
sleeps behind one that has finished; the first copy into a buffer that is not empty breaks this. So
all runs are right if there is at most one round, and not if there are more. -/
theorem hand_off_correct (rounds : ℕ) :
    (∀ c, (program rounds).ReachableBy (Meets Emptied fun _ _ _ => True) c → HandOff c ∧
      ∀ a c', (program rounds).step c a = some c' → ¬ Meets Emptied (fun _ _ _ => True) c a →
        ¬ HandOff c') ∧
    ((∀ c, (program rounds).Reachable c → HandOff c) ↔ rounds ≤ 1) := by
  refine ⟨fun c h => ⟨handOff_of_emptied h, fun a c' => not_handOff_of_not_emptied h⟩,
    fun hall => ?_, fun hrounds c h => handOff_of_emptied (emptied_of_one_round hrounds h)⟩
  by_contra hlt
  obtain ⟨n, rfl⟩ : ∃ n, rounds = n + 2 := ⟨rounds - 2, by omega⟩
  obtain ⟨c, hreach, hbad⟩ := exists_not_handOff_of_two_le n
  exact hbad (hall c hreach)

/-- Two rounds in which the consumer follows the producer. -/
def twoRounds : Option (Config Tid Shared Point Mutex Cond) :=
  ((program 2).guarded (Meets Emptied fun _ _ _ => True)).exec (program 2).init
    (List.replicate 8 (Action.run .producer none) ++
      List.replicate 10 (Action.run .consumer none) ++
      List.replicate 8 (Action.run .producer none) ++
      List.replicate 10 (Action.run .consumer none))

theorem hand_off_correct_two : ∃ c, twoRounds = some c ∧ HandOff c ∧
    (c.shared .a).processed = [0, 1] ∧ (c.shared .b).processed = [0, 1] := by
  have hrun : twoRounds.isSome = true := by decide
  have hreach : (program 2).ReachableBy (Meets Emptied fun _ _ _ => True)
      (twoRounds.get hrun) := .of_exec (Option.some_get hrun).symm
  exact ⟨twoRounds.get hrun, (Option.some_get hrun).symm,
    ((hand_off_correct 2).1 _ hreach).1, rfl, rfl⟩

/-- The producer fills A twice. -/
def filledTwice : Option (Config Tid Shared Point Mutex Cond) :=
  (program 2).exec (program 2).init (List.replicate 10 (Action.run .producer none))

/-- Two rounds: the first copy into A is gone before the consumer starts. -/
theorem hand_off_fails : ∃ c, (program 2).Reachable c ∧ ¬ HandOff c ∧
    (c.shared .a).mem = 1 ∧ (c.shared .a).processed = [] := by
  have hrun : filledTwice.isSome = true := by decide
  refine ⟨filledTwice.get hrun, System.Reachable.init.exec (Option.some_get hrun).symm,
    fun h => ?_, rfl, rfl⟩
  have hle : 2 ≤ 0 + 1 := h.copies .a
  omega

end PthreadBenchmark.PcOcm
