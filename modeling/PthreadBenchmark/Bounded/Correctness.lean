import PthreadBenchmark.Bounded.Model
import PthreadBenchmark.Shared.PthreadRules
import PthreadBenchmark.Shared.Ring
import Mathlib.Data.List.TakeWhile

/-! # The bounded buffer is first in, first out, and neither side sleeps forever -/

namespace PthreadBenchmark.Bounded

open Pthread

variable {bsize numItems : ℕ} {item : List UInt8} {c : Config Tid Buffer Point Mutex Cond}

/-! ## Moves -/

/-- What the operation at a point does to the point and to the buffer. -/
inductive Edge (bsize numItems : ℕ) (item : List UInt8) (b : Buffer) :
    Point → Point → Buffer → Prop where
  | producerEnd (i : ℕ) (h : i < numItems → item.getD i 0 = 0) :
      Edge bsize numItems item b (.producerLoop i) .producerExit b
  | producerLock (i : ℕ) (h : i < numItems) :
      Edge bsize numItems item b (.producerLoop i) (.producerTest i) b
  | producerWait (i : ℕ) : Edge bsize numItems item b (.producerTest i) (.producerTest i) b
  | produce (i : ℕ) (h : b.occupied < bsize) :
      Edge bsize numItems item b (.producerTest i) (.producerSignal i)
        (insertItem bsize b (item.getD i 0))
  | producerSignal (i : ℕ) : Edge bsize numItems item b (.producerSignal i) (.producerUnlock i) b
  | producerUnlock (i : ℕ) :
      Edge bsize numItems item b (.producerUnlock i) (.producerLoop (i + 1)) b
  | consumerEnd (i : ℕ) (h : numItems ≤ i) :
      Edge bsize numItems item b (.consumerLoop i) .consumerExit b
  | consumerLock (i : ℕ) (h : i < numItems) :
      Edge bsize numItems item b (.consumerLoop i) (.consumerTest i) b
  | consumerWait (i : ℕ) : Edge bsize numItems item b (.consumerTest i) (.consumerTest i) b
  | consume (i : ℕ) (h : 0 < b.occupied) :
      Edge bsize numItems item b (.consumerTest i) (.consumerSignal i) (consumeItem bsize b)
  | consumerSignal (i : ℕ) : Edge bsize numItems item b (.consumerSignal i) (.consumerUnlock i) b
  | consumerUnlock (i : ℕ) :
      Edge bsize numItems item b (.consumerUnlock i) (.consumerLoop (i + 1)) b

theorem edge_of_next {b : Buffer} {p q : Point}
    (h : (code bsize numItems item b p).next? = some q) :
    Edge bsize numItems item b p q ((code bsize numItems item b p).after b) := by
  cases p with
  | producerLoop i =>
      simp only [code] at h ⊢
      split_ifs at h with hi hnul <;> cases h
      · simp only [hi, hnul, if_true]
        exact .producerEnd i fun _ => hnul
      · simp only [hi, hnul, if_true, if_false]
        exact .producerLock i hi
      · simp only [hi, if_false]
        exact .producerEnd i fun hlt => absurd hlt hi
  | producerTest i =>
      simp only [code] at h ⊢
      split_ifs at h with hfull <;> cases h
      · rw [if_pos hfull]
        exact .producerWait i
      · rw [if_neg hfull]
        exact .produce i (by omega)
  | producerSignal i => cases h; exact .producerSignal i
  | producerUnlock i => cases h; exact .producerUnlock i
  | producerExit => cases h
  | consumerLoop i =>
      simp only [code] at h ⊢
      split_ifs at h with hi <;> cases h
      · rw [if_pos hi]
        exact .consumerLock i hi
      · rw [if_neg hi]
        exact .consumerEnd i (by omega)
  | consumerTest i =>
      simp only [code] at h ⊢
      split_ifs at h with hempty <;> cases h
      · rw [if_pos hempty]
        exact .consumerWait i
      · rw [if_neg hempty]
        exact .consume i (by omega)
  | consumerSignal i => cases h; exact .consumerSignal i
  | consumerUnlock i => cases h; exact .consumerUnlock i
  | consumerExit => cases h

/-! ## The ring -/

/-- The buffer holds what was produced and not consumed, in the window from `nextout`. -/
structure Ring (bsize : ℕ) (b : Buffer) : Prop where
  window : b.produced = b.consumed ++ window b.buf bsize b.nextout b.occupied
  occupied_le : b.occupied ≤ bsize
  nextin : b.nextin = b.produced.length % bsize
  nextout : b.nextout = b.consumed.length % bsize

theorem Ring.length_eq {b : Buffer} (h : Ring bsize b) :
    b.produced.length = b.consumed.length + b.occupied := by
  have hlength := congrArg List.length h.window
  simpa using hlength

theorem Ring.nextin_eq {b : Buffer} (h : Ring bsize b) :
    b.nextin = (b.nextout + b.occupied) % bsize := by
  rw [h.nextin, h.nextout, h.length_eq, Nat.mod_add_mod]

theorem Ring.insertItem {b : Buffer} (h : Ring bsize b) (hroom : b.occupied < bsize)
    (x : UInt8) : Ring bsize (insertItem bsize b x) := by
  refine ⟨?_, hroom, ?_, h.nextout⟩
  · simp only [Bounded.insertItem]
    rw [window_succ, h.nextin_eq, window_update_end _ _ _ hroom, Function.update_self,
      ← List.append_assoc, ← h.window]
  · simp only [Bounded.insertItem, List.length_append, List.length_singleton]
    rw [h.nextin, Nat.mod_add_mod]

theorem Ring.consumeItem {b : Buffer} (h : Ring bsize b) (hpos : 0 < b.occupied) :
    Ring bsize (consumeItem bsize b) := by
  have hcap : 0 < bsize := lt_of_lt_of_le hpos h.occupied_le
  have hfront : b.nextout < bsize := by
    rw [h.nextout]
    exact Nat.mod_lt _ hcap
  have hwindow := h.window
  obtain ⟨n, hn⟩ := Nat.exists_eq_succ_of_ne_zero hpos.ne'
  rw [hn, window_succ_eq_cons _ _ hfront] at hwindow
  refine ⟨?_, (Nat.sub_le _ _).trans h.occupied_le, h.nextin, ?_⟩
  · simp only [Bounded.consumeItem, hn, Nat.succ_sub_one]
    rw [hwindow, List.append_assoc, List.singleton_append]
  · simp only [Bounded.consumeItem, List.length_append, List.length_singleton]
    rw [h.nextout, Nat.mod_add_mod]

theorem ring_of_reachable (h : (program bsize numItems item).Reachable c) :
    Ring bsize c.shared := by
  refine points_invariant (P := fun b _ => Ring bsize b) h
    ⟨rfl, Nat.zero_le _, (Nat.zero_mod _).symm, (Nat.zero_mod _).symm⟩ ?_
  intro b ps i q hb hq
  have hedge := edge_of_next hq
  generalize (code bsize numItems item b (ps i)).after b = b' at hedge
  generalize ps i = p at hedge
  cases hedge with
  | produce i hroom => exact hb.insertItem hroom _
  | consume i hpos => exact hb.consumeItem hpos
  | _ => exact hb

/-! ## Counts -/

theorem getElem?_of_lt_strlen {i : ℕ} (h : i < strlen item) :
    ∃ x, item[i]? = some x ∧ item.getD i 0 = x ∧ x ≠ 0 := by
  have hget : (item.takeWhile (· ≠ 0))[i]? = some (item.takeWhile (· ≠ 0))[i] :=
    List.getElem?_eq_getElem h
  have hx := List.mem_takeWhile_imp (List.getElem_mem h)
  obtain ⟨rest, hrest⟩ := List.takeWhile_prefix (p := (· ≠ 0)) (l := item)
  have hitem : item[i]? = some (item.takeWhile (· ≠ 0))[i] := by
    rw [← hget]
    conv_lhs => rw [← hrest]
    exact List.getElem?_append_left h
  exact ⟨_, hitem, by rw [List.getD_eq_getElem?_getD, hitem]; rfl, by simpa using hx⟩

def Point.thread : Point → Tid
  | .producerLoop _ | .producerTest _ | .producerSignal _ | .producerUnlock _ | .producerExit =>
    .producer
  | .consumerLoop _ | .consumerTest _ | .consumerSignal _ | .consumerUnlock _ | .consumerExit =>
    .consumer

/-- A thread at this point has handled `k` items. -/
def Handled (numItems k : ℕ) : Point → Prop
  | .producerLoop i | .consumerLoop i => k = i ∧ i ≤ numItems
  | .producerTest i | .consumerTest i => k = i ∧ i < numItems
  | .producerSignal i | .producerUnlock i | .consumerSignal i | .consumerUnlock i =>
    k = i + 1 ∧ i < numItems
  | .producerExit | .consumerExit => k = numItems

/-- Each thread is at its own points, where it has handled what the history says. -/
structure Counted (numItems : ℕ) (item : List UInt8) (b : Buffer) (ps : Tid → Point) : Prop where
  thread : ∀ i, (ps i).thread = i
  produced : Handled numItems b.produced.length (ps .producer)
  consumed : Handled numItems b.consumed.length (ps .consumer)
  eq_take : b.produced = item.take b.produced.length

theorem Edge.thread_eq {b b' : Buffer} {p q : Point} (h : Edge bsize numItems item b p q b') :
    q.thread = p.thread := by
  cases h <;> rfl

theorem Counted.producer {b b' : Buffer} {ps : Tid → Point} {q : Point}
    (h : Counted numItems item b ps) (hlen : strlen item = numItems)
    (hedge : Edge bsize numItems item b (ps .producer) q b') :
    Counted numItems item b' (Function.update ps .producer q) := by
  have hthread := h.thread .producer
  have hproduced := h.produced
  have hkeep : ∀ i, (Function.update ps .producer q i).thread = i := by
    intro i
    by_cases hi : i = .producer
    · rw [hi, Function.update_self, hedge.thread_eq, hthread]
    · rw [Function.update_of_ne hi, h.thread i]
  generalize ps .producer = p at hedge hthread hproduced
  cases hedge with
  | producerEnd i hnul =>
      refine ⟨hkeep, ?_, h.consumed, h.eq_take⟩
      obtain ⟨hi, hle⟩ := hproduced
      rw [Function.update_self, Handled]
      by_contra hne
      obtain ⟨x, -, hx, hzero⟩ := getElem?_of_lt_strlen (show i < strlen item by omega)
      exact hzero (hx ▸ hnul (by omega))
  | producerLock i hlt => exact ⟨hkeep, ⟨hproduced.1, hlt⟩, h.consumed, h.eq_take⟩
  | producerWait i => exact ⟨hkeep, hproduced, h.consumed, h.eq_take⟩
  | produce i hroom =>
      obtain ⟨hi, hlt⟩ := hproduced
      obtain ⟨x, hget, hx, -⟩ := getElem?_of_lt_strlen (show i < strlen item by omega)
      refine ⟨hkeep, ⟨by simp [insertItem, hi], hlt⟩, h.consumed, ?_⟩
      have htake := h.eq_take
      rw [hi] at htake
      simp only [insertItem, List.length_append, List.length_singleton, hi, List.take_add_one, hget,
        hx, Option.toList_some]
      rw [← htake]
  | producerSignal i => exact ⟨hkeep, hproduced, h.consumed, h.eq_take⟩
  | producerUnlock i => exact ⟨hkeep, hproduced, h.consumed, h.eq_take⟩
  | _ => simp [Point.thread] at hthread

theorem Counted.consumer {b b' : Buffer} {ps : Tid → Point} {q : Point}
    (h : Counted numItems item b ps) (hedge : Edge bsize numItems item b (ps .consumer) q b') :
    Counted numItems item b' (Function.update ps .consumer q) := by
  have hthread := h.thread .consumer
  have hconsumed := h.consumed
  have hkeep : ∀ i, (Function.update ps .consumer q i).thread = i := by
    intro i
    by_cases hi : i = .consumer
    · rw [hi, Function.update_self, hedge.thread_eq, hthread]
    · rw [Function.update_of_ne hi, h.thread i]
  generalize ps .consumer = p at hedge hthread hconsumed
  cases hedge with
  | consumerEnd i hge =>
      refine ⟨hkeep, h.produced, ?_, h.eq_take⟩
      obtain ⟨hi, hle⟩ := hconsumed
      rw [Function.update_self, Handled]
      omega
  | consumerLock i hlt => exact ⟨hkeep, h.produced, ⟨hconsumed.1, hlt⟩, h.eq_take⟩
  | consumerWait i => exact ⟨hkeep, h.produced, hconsumed, h.eq_take⟩
  | consume i hpos =>
      exact ⟨hkeep, h.produced, ⟨by simp [consumeItem, hconsumed.1], hconsumed.2⟩, h.eq_take⟩
  | consumerSignal i => exact ⟨hkeep, h.produced, hconsumed, h.eq_take⟩
  | consumerUnlock i => exact ⟨hkeep, h.produced, hconsumed, h.eq_take⟩
  | _ => simp [Point.thread] at hthread

theorem counted_of_reachable (hlen : strlen item = numItems)
    (h : (program bsize numItems item).Reachable c) :
    Counted numItems item c.shared (points c) := by
  refine points_invariant (P := Counted numItems item) h
    ⟨fun i => by cases i <;> rfl, ⟨rfl, Nat.zero_le _⟩, ⟨rfl, Nat.zero_le _⟩, rfl⟩ ?_
  intro b ps i q hb hq
  cases i with
  | producer => exact hb.producer hlen (edge_of_next hq)
  | consumer => exact hb.consumer (edge_of_next hq)

/-! ## Wakeups -/

/-- Points that are still to signal `more` or to look for an item. -/
def moreCredit : Point → ℕ
  | .producerSignal _ | .consumerTest _ => 1
  | _ => 0

/-- Points that are still to signal `less` or to look for room. -/
def lessCredit : Point → ℕ
  | .consumerSignal _ | .producerTest _ => 1
  | _ => 0

theorem pays_more (bsize : ℕ) (b : Buffer) (p : Point) :
    Pays .more (fun b => b.occupied) moreCredit b p (code bsize numItems item b p) := by
  cases p with
  | producerLoop i =>
      simp only [code]
      split_ifs <;> exact le_rfl
  | producerTest i =>
      simp only [code]
      split_ifs
      · exact rfl
      · exact le_rfl
  | consumerLoop i =>
      simp only [code]
      split_ifs
      · exact Nat.zero_le _
      · exact le_rfl
  | consumerTest i =>
      simp only [code]
      split_ifs
      · exact ⟨Nat.le_zero.mp ‹_›, le_rfl⟩
      · simp only [Pays, consumeItem, moreCredit]
        omega
  | producerExit | consumerExit => trivial
  | producerSignal | producerUnlock | consumerSignal | consumerUnlock => exact le_rfl

theorem pays_less (bsize : ℕ) (b : Buffer) (p : Point) :
    Pays .less (fun b => bsize - b.occupied) lessCredit b p (code bsize numItems item b p) := by
  cases p with
  | producerLoop i =>
      simp only [code]
      split_ifs
      · exact le_rfl
      · exact Nat.zero_le _
      · exact le_rfl
  | producerTest i =>
      simp only [code]
      split_ifs
      · exact ⟨Nat.sub_eq_zero_of_le ‹_›, le_rfl⟩
      · simp only [Pays, insertItem, lessCredit]
        omega
  | consumerLoop i =>
      simp only [code]
      split_ifs <;> exact le_rfl
  | consumerTest i =>
      simp only [code]
      split_ifs
      · exact rfl
      · simp only [Pays, consumeItem, lessCredit]
        omega
  | producerExit | consumerExit => trivial
  | producerSignal | producerUnlock | consumerSignal | consumerUnlock => exact le_rfl

theorem weight_tid {α : Type*} (f : α → ℕ) (threads : Tid → α) :
    weight f threads = f (threads .producer) + f (threads .consumer) := by
  have huniv : (Finset.univ : Finset Tid) = {.producer, .consumer} := rfl
  rw [weight, huniv, Finset.sum_pair (by decide)]

theorem credit_of_asleep {g : Point → ℕ} {cond : Cond} {t : Status Point Mutex Cond}
    (h : AsleepOn cond t) : credit g t = 0 := by
  obtain ⟨m, q, rfl⟩ := exists_asleep h
  rfl

/-- The condition variable on which a thread waits. -/
def waitsOn : Tid → Cond
  | .producer => .less
  | .consumer => .more

def Finished (bsize numItems : ℕ) (item : List UInt8) (c : Config Tid Buffer Point Mutex Cond)
    (i : Tid) : Prop :=
  Halted (code bsize numItems item) c.shared (c.threads i)

theorem Finished.running {i : Tid} (h : Finished bsize numItems item c i) :
    c.threads i = .running .producerExit ∨ c.threads i = .running .consumerExit := by
  have hhalt := isHalt_of_halted h
  rw [running_of_halted h]
  cases hp : points c i <;> rw [hp] at hhalt
  case producerExit => exact .inl rfl
  case consumerExit => exact .inr rfl
  case producerLoop | producerTest | consumerLoop | consumerTest =>
    simp only [code] at hhalt
    split_ifs at hhalt <;> cases hhalt
  case producerSignal | producerUnlock | consumerSignal | consumerUnlock => cases hhalt

/-- A finished thread has handled all its items and has no credit. -/
theorem Counted.finished (h : Counted numItems item c.shared (points c)) {i : Tid}
    (hi : Finished bsize numItems item c i) :
    credit moreCredit (c.threads i) = 0 ∧ credit lessCredit (c.threads i) = 0 ∧
      (i = .producer → c.shared.produced.length = numItems) ∧
      (i = .consumer → c.shared.consumed.length = numItems) := by
  have hproduced := h.produced
  have hconsumed := h.consumed
  rcases hi.running with hrun | hrun
  · refine ⟨by rw [hrun]; rfl, by rw [hrun]; rfl, ?_, ?_⟩
    · intro heq
      subst heq
      rwa [points_of_running hrun] at hproduced
    · intro heq
      subst heq
      rwa [points_of_running hrun] at hconsumed
  · refine ⟨by rw [hrun]; rfl, by rw [hrun]; rfl, ?_, ?_⟩
    · intro heq
      subst heq
      rwa [points_of_running hrun] at hproduced
    · intro heq
      subst heq
      rwa [points_of_running hrun] at hconsumed

theorem Handled.le {k : ℕ} {p : Point} (h : Handled numItems k p) : k ≤ numItems := by
  cases p <;> simp only [Handled] at h <;> omega

/-- A sleeping consumer has still an item to wait for. -/
theorem consumed_lt_of_asleep (hlen : strlen item = numItems)
    (h : (program bsize numItems item).Reachable c)
    (hasleep : AsleepOn .more (c.threads .consumer)) : c.shared.consumed.length < numItems := by
  have hcounted := counted_of_reachable hlen h
  have hthread := hcounted.thread .consumer
  have hconsumed := hcounted.consumed
  obtain ⟨m, q, ht⟩ := exists_asleep hasleep
  have hcredit := (covered_of_reachable (pays_more bsize) h).sleeper ht
  rw [points_of_asleep ht] at hthread hconsumed
  cases q <;> simp only [Point.thread, reduceCtorEq] at hthread <;>
    simp only [moreCredit, Handled] at hcredit hconsumed <;> omega

/-- While the consumer sleeps, what is in the buffer is still to be signalled. -/
theorem occupied_le_of_asleep (h : (program bsize numItems item).Reachable c)
    (hasleep : AsleepOn .more (c.threads .consumer)) :
    c.shared.occupied ≤ credit moreCredit (c.threads .producer) := by
  have hneed := (covered_of_reachable (pays_more bsize) h).need_le hasleep
  rwa [weight_tid, credit_of_asleep hasleep, Nat.add_zero] at hneed

/-- While the producer sleeps, the room in the buffer is still to be signalled. -/
theorem room_le_of_asleep (h : (program bsize numItems item).Reachable c)
    (hasleep : AsleepOn .less (c.threads .producer)) :
    bsize - c.shared.occupied ≤ credit lessCredit (c.threads .consumer) := by
  have hneed := (covered_of_reachable (pays_less bsize) h).need_le hasleep
  rwa [weight_tid, credit_of_asleep hasleep, Nat.zero_add] at hneed

theorem not_both_asleep (hbsize : 1 ≤ bsize) (h : (program bsize numItems item).Reachable c)
    (hproducer : AsleepOn .less (c.threads .producer)) :
    ¬ AsleepOn .more (c.threads .consumer) := by
  intro hconsumer
  have hroom := room_le_of_asleep h hproducer
  have hempty := occupied_le_of_asleep h hconsumer
  rw [credit_of_asleep hconsumer] at hroom
  rw [credit_of_asleep hproducer] at hempty
  omega

/-! ## Result -/

/-- For any capacity, string and interleaving: the consumer has received a prefix of what
the producer has sent, which is a prefix of the string; counter and indices say how many
items that is; and neither thread sleeps while the other one sleeps or has finished. -/
theorem bounded_correct (bsize numItems : ℕ) (hbsize : 1 ≤ bsize) (item : List UInt8)
    (hlen : strlen item = numItems) (c : Config Tid Buffer Point Mutex Cond)
    (h : (program bsize numItems item).Reachable c) :
    (c.shared.consumed <+: c.shared.produced ∧ c.shared.produced <+: item ∧
      0 ≤ c.shared.occupied ∧ c.shared.occupied ≤ bsize ∧
      (c.shared.occupied : ℤ) = c.shared.produced.length - c.shared.consumed.length ∧
      c.shared.nextin = c.shared.produced.length % bsize ∧
      c.shared.nextout = c.shared.consumed.length % bsize) ∧
    ¬ ∃ i j, i ≠ j ∧ AsleepOn (waitsOn i) (c.threads i) ∧
      (AsleepOn (waitsOn j) (c.threads j) ∨ Finished bsize numItems item c j) := by
  have hring := ring_of_reachable h
  have hcounted := counted_of_reachable hlen h
  have hlength := hring.length_eq
  refine ⟨⟨⟨_, hring.window.symm⟩, ?_, Nat.zero_le _, hring.occupied_le, by omega, hring.nextin,
    hring.nextout⟩, ?_⟩
  · rw [hcounted.eq_take]
    exact List.take_prefix _ _
  rintro ⟨i, j, hij, hasleep, hother⟩
  cases i with
  | producer =>
      obtain rfl : j = .consumer := by
        cases j
        · exact absurd rfl hij
        · rfl
      rcases hother with hother | hfinished
      · exact not_both_asleep hbsize h hasleep hother
      · have hroom := room_le_of_asleep h hasleep
        obtain ⟨-, hcredit, -, hall⟩ := hcounted.finished hfinished
        have hconsumed := hall rfl
        have hproduced := hcounted.produced.le
        omega
  | consumer =>
      obtain rfl : j = .producer := by
        cases j
        · rfl
        · exact absurd rfl hij
      rcases hother with hother | hfinished
      · exact not_both_asleep hbsize h hother hasleep
      · have hempty := occupied_le_of_asleep h hasleep
        obtain ⟨hcredit, -, hall, -⟩ := hcounted.finished hfinished
        have hproduced := hall rfl
        have hconsumed := consumed_lt_of_asleep hlen h hasleep
        omega

/-- One cell, three items: the consumer has to wait, is woken and takes the first item. -/
def shortRun : Option (Config Tid Buffer Point Mutex Cond) :=
  (program 1 3 [72, 101, 121]).exec (program 1 3 [72, 101, 121]).init
    [.run .consumer none, .run .consumer none, .run .producer none, .run .producer none,
      .run .producer (some .consumer), .run .producer none, .run .consumer none,
      .run .consumer none]

theorem bounded_correct_short : ∃ c, shortRun = some c ∧ c.shared.consumed = [72] ∧
    c.shared.consumed <+: c.shared.produced := by
  have hrun : shortRun.isSome = true := by decide
  exact ⟨shortRun.get hrun, (Option.some_get hrun).symm, rfl,
    (bounded_correct 1 3 (by decide) [72, 101, 121] (by decide) _
      (System.Reachable.init.exec (Option.some_get hrun).symm)).1.1⟩

end PthreadBenchmark.Bounded
