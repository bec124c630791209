import PthreadBenchmark.ProCon.Model
import PthreadBenchmark.Shared.PthreadConditions
import PthreadBenchmark.Shared.PthreadRest

/-! # The consumer starves where it takes too much in one round -/

namespace PthreadBenchmark.ProCon

open Pthread

variable {rounds data : ℕ} {s s' : Shared} {ps : Tid → Point} {p q : Point}
  {c c' : Config Tid Shared Point Mutex Cond}

theorem drain_eq (data : ℕ) : drain data = 0 := by
  induction data with
  | zero => rfl
  | succ data ih => exact ih

/-! ## Supply and demand -/

/-- The units that the producer has still to make. -/
def Point.supply : Point → ℕ
  | .proIncrement i => i + 1
  | .proLock i | .proUnlock i | .proSignal i => i
  | _ => 0

/-- The rounds for which the consumer has still to find a unit. -/
def Point.demand : Point → ℕ
  | .conTest i => i + 1
  | .conLock i | .conUnlock i => i
  | _ => 0

def Point.thread : Point → Tid
  | .proLock _ | .proIncrement _ | .proUnlock _ | .proSignal _ => .pro
  | .conLock _ | .conTest _ | .conUnlock _ => .con
  | .joinPro | .joinCon | .exited => .main

def Point.Supplied (data supply : ℕ) : Point → Prop
  | .conTest i => data ≠ 0 → i ≤ supply
  | _ => True

instance (data supply : ℕ) (p : Point) : Decidable (p.Supplied data supply) :=
  match p with
  | .conTest i => inferInstanceAs (Decidable (data ≠ 0 → i ≤ supply))
  | .proLock _ | .proIncrement _ | .proUnlock _ | .proSignal _ | .conLock _ | .conUnlock _
  | .joinPro | .joinCon | .exited => isTrue trivial

/-- The consumer may take the stock only while the producer has still to make a unit for each of
the rounds behind the current one. -/
def Supplied (s : Shared) (ps : Tid → Point) (t : Tid) : Prop :=
  (ps t).Supplied s.data (ps .pro).supply

instance (s : Shared) (ps : Tid → Point) (t : Tid) : Decidable (Supplied s ps t) :=
  inferInstanceAs (Decidable ((ps t).Supplied s.data (ps .pro).supply))

/-- The condition is about the consumer only. -/
theorem exists_of_not_supplied {t : Tid} (h : ∀ t, (ps t).thread = t) (hbad : ¬ Supplied s ps t) :
    t = .con ∧ ∃ i, ps .con = .conTest i ∧ s.data ≠ 0 ∧ (ps .pro).supply < i := by
  have ht := h t
  cases hp : ps t <;> simp only [Supplied, hp, Point.Supplied, not_true_eq_false] at hbad
  case conTest i =>
    rw [hp] at ht
    obtain rfl : t = .con := ht.symm
    exact ⟨rfl, i, hp, by simpa using hbad⟩

/-- The producer has finished and the consumer sleeps with rounds left. -/
structure Starved (c : Config Tid Shared Point Mutex Cond) : Prop where
  pro : c.threads .pro = .running (.proLock 0)
  con : ∃ i, c.threads .con = .asleep .cond .mutex (.conTest i)
  data : c.shared.data = 0

/-- Both joins have been made. -/
def Finished (c : Config Tid Shared Point Mutex Cond) : Prop :=
  ∀ t, Halted code c.shared (c.threads t)

theorem thread_of_next (h : (code s p).next? = some q) : q.thread = p.thread := by
  cases p with
  | proLock i | conLock i =>
      cases i <;> cases h
      rfl
  | conTest i =>
      simp only [code] at h
      split at h <;> cases h <;> rfl
  | _ => cases h <;> rfl

theorem thread_update {t : Tid} (h : ∀ t, (ps t).thread = t)
    (hq : (code s (ps t)).next? = some q) (t' : Tid) :
    (Function.update ps t q t').thread = t' := by
  by_cases ht : t' = t
  · subst ht
    rw [Function.update_self, thread_of_next hq, h]
  · rw [Function.update_of_ne ht, h]

theorem thread_of_reachable (h : (program rounds data).Reachable c) (t : Tid) :
    (points c t).thread = t :=
  points_invariant (P := fun _ ps => ∀ t, (ps t).thread = t) h (fun t => by cases t <;> rfl)
    (fun _ _ _ _ hP hq => thread_update hP hq) t

/-- What a step does to the stock, the supply and the demand. -/
theorem balance_of_next {t : Tid} (h : ∀ t, (ps t).thread = t)
    (hq : (code s (ps t)).next? = some q) :
    (∃ i, ps t = .conTest i ∧ s.data ≠ 0 ∧ ((code s (ps t)).after s).data = 0 ∧
      (Function.update ps t q .pro).supply = (ps .pro).supply ∧
      (Function.update ps t q .con).demand = i) ∨
    (((code s (ps t)).after s).data + (Function.update ps t q .pro).supply =
        s.data + (ps .pro).supply ∧
      (Function.update ps t q .con).demand = (ps .con).demand) := by
  have ht := h t
  cases hp : ps t with
  | conTest i =>
      rw [hp] at hq ht
      obtain rfl : t = .con := ht.symm
      simp only [code] at hq ⊢
      split at hq
      · next hempty =>
          cases hq
          rw [if_pos hempty, Function.update_of_ne (by simp), Function.update_self, hp]
          exact .inr ⟨rfl, rfl⟩
      · next hdata =>
          cases hq
          rw [if_neg hdata, Function.update_of_ne (by simp), Function.update_self]
          exact .inl ⟨i, rfl, hdata, drain_eq _, rfl, rfl⟩
  | conLock i =>
      rw [hp] at hq ht
      obtain rfl : t = .con := ht.symm
      cases i <;> cases hq
      rw [Function.update_of_ne (by simp), Function.update_self, hp]
      exact .inr ⟨rfl, rfl⟩
  | conUnlock i =>
      rw [hp] at hq ht
      obtain rfl : t = .con := ht.symm
      cases hq
      rw [Function.update_of_ne (by simp), Function.update_self, hp]
      exact .inr ⟨rfl, rfl⟩
  | proLock i =>
      rw [hp] at hq ht
      obtain rfl : t = .pro := ht.symm
      cases i <;> cases hq
      rw [Function.update_self, Function.update_of_ne (by simp), hp]
      exact .inr ⟨rfl, rfl⟩
  | proIncrement i =>
      rw [hp] at hq ht
      obtain rfl : t = .pro := ht.symm
      cases hq
      rw [Function.update_self, Function.update_of_ne (by simp), hp]
      refine .inr ⟨?_, rfl⟩
      simp only [code, Op.after, Point.supply]
      omega
  | proUnlock i | proSignal i =>
      rw [hp] at hq ht
      obtain rfl : t = .pro := ht.symm
      cases hq
      rw [Function.update_self, Function.update_of_ne (by simp), hp]
      exact .inr ⟨rfl, rfl⟩
  | joinPro | joinCon =>
      rw [hp] at hq ht
      obtain rfl : t = .main := ht.symm
      cases hq
      rw [Function.update_of_ne (by simp), Function.update_of_ne (by simp)]
      exact .inr ⟨rfl, rfl⟩
  | exited =>
      rw [hp] at hq
      cases hq

/-! ## The mutex -/

def inside : Point → Mutex → Prop
  | .proIncrement _, _ | .proUnlock _, _ | .conTest _, _ | .conUnlock _, _ => True
  | _, _ => False

theorem flat : Flat inside code where
  tracks s p := by
    cases p with
    | proLock i | conLock i => cases i <;> simp [code, Tracks, inside]
    | conTest i =>
        simp only [code]
        split
        · exact ⟨trivial, fun _ => Iff.rfl⟩
        · exact fun _ => Iff.rfl
    | _ => simp [code, Tracks, inside]
  proper s p := by
    cases p with
    | proLock i | conLock i => cases i <;> trivial
    | conTest i =>
        simp only [code]
        split <;> trivial
    | _ => trivial
  unique _ _ := rfl
  flows {s p m} h := by
    cases p with
    | conTest i =>
        simp only [code]
        split <;> trivial
    | proIncrement i | proUnlock i | conUnlock i => trivial
    | _ => exact h.elim

theorem not_inside_start (t : Tid) (m : Mutex) : ¬ inside (start rounds t) m := by
  cases t <;> exact id

theorem resting_of_wait (s : Shared) (p : Point) (cv : Cond) (m : Mutex) (q : Point)
    (h : code s p = .wait cv m q) : ∃ i, q = .conTest i := by
  cases p with
  | proLock i | conLock i => cases i <;> cases h
  | conTest i =>
      simp only [code] at h
      split at h <;> cases h
      exact ⟨i, rfl⟩
  | _ => cases h

/-! ## No lost wakeup -/

/-- The consumer tests when it is awake, and the producer signals behind each increment. -/
def wakeupCredit : Point → ℕ
  | .proUnlock _ | .proSignal _ | .conLock _ | .conTest _ | .conUnlock _ => 1
  | _ => 0

theorem pays_cond (s : Shared) (p : Point) :
    Pays .cond (fun s => s.data) wakeupCredit s p (code s p) := by
  cases p with
  | proLock i | conLock i => cases i <;> simp [code, Pays, wakeupCredit]
  | conTest i =>
      simp only [code]
      split
      · exact ⟨‹_›, le_rfl⟩
      · simp [Pays, wakeupCredit, drain_eq]
  | _ => simp [code, Pays, wakeupCredit]

/-! ## Where the program stops -/

/-- A stuck program has finished, or its consumer sleeps behind a producer that has finished. -/
theorem finished_or_asleep (h : (program rounds data).Reachable c) (hstuck : Stuck code c) :
    Finished c ∨ (c.threads .pro = .running (.proLock 0) ∧
      ∃ i, c.threads .con = .asleep .cond .mutex (.conTest i)) := by
  have howned := owned_of_reachable flat.tracks not_inside_start h
  have hthread := thread_of_reachable h
  have hwaits := waits_of_reachable (W := fun _ _ q => ∃ i, q = Point.conTest i)
    resting_of_wait h
  have hblocked := fun t => blocked_of_no_step flat.tracks flat.proper howned (hstuck t)
  have hfree : ∀ {m t}, c.owner m ≠ some t := by
    intro m t hown
    rw [hstuck.free flat howned m] at hown
    cases hown
  -- only `main` joins, and only the consumer sleeps
  have hjoin : ∀ {t p q t'}, c.threads t = .running p → code c.shared p = .join t' q →
      t = .main ∧ (t' = .pro ∨ t' = .con) := by
    intro t p q t' hrunning hop
    have ht := hthread t
    rw [points_of_running hrunning] at ht
    subst ht
    cases p with
    | proLock i | conLock i => cases i <;> cases hop
    | conTest i =>
        simp only [code] at hop
        split at hop <;> cases hop
    | joinPro =>
        cases hop
        exact ⟨rfl, .inl rfl⟩
    | joinCon =>
        cases hop
        exact ⟨rfl, .inr rfl⟩
    | _ => cases hop
  have hsleeper : ∀ {t cv}, AsleepOn cv (c.threads t) →
      t = .con ∧ ∃ i, c.threads t = .asleep .cond .mutex (.conTest i) := by
    intro t cv hasleep
    obtain ⟨m, q, hsleep⟩ := exists_asleep hasleep
    have ht := hthread t
    have hw := hwaits t
    rw [hsleep] at hw
    obtain ⟨i, rfl⟩ := hw
    rw [points_of_asleep hsleep] at ht
    exact ⟨ht.symm, i, hsleep⟩
  have hpro : Halted code c.shared (c.threads .pro) := by
    cases hblocked .pro with
    | halted hhalt => exact hhalt
    | asleep hasleep => cases (hsleeper hasleep).1
    | mutex wants own => exact absurd own hfree
    | join thread op running => cases (hjoin thread op).1
  cases hblocked .con with
  | mutex wants own => exact absurd own hfree
  | join thread op running => cases (hjoin thread op).1
  | asleep hasleep =>
      obtain ⟨-, hsleep⟩ := hsleeper hasleep
      refine .inr ⟨?_, hsleep⟩
      have ht := hthread .pro
      have hhalt := isHalt_of_halted hpro
      rw [running_of_halted hpro]
      cases hp : points c .pro <;> rw [hp] at ht hhalt
      case proLock i =>
        cases i with
        | zero => rfl
        | succ i => cases hhalt
      case conLock | conTest | exited => cases ht
      all_goals cases hhalt
  | halted hcon =>
      refine .inl fun t => ?_
      cases t with
      | pro => exact hpro
      | con => exact hcon
      | main =>
          cases hblocked .main with
          | halted hhalt => exact hhalt
          | asleep hasleep => cases (hsleeper hasleep).1
          | mutex wants own => exact absurd own hfree
          | join thread op running =>
              rcases (hjoin thread op).2 with rfl | rfl
              · exact absurd hpro running
              · exact absurd hcon running

/-- Where the consumer sleeps for good there is nothing to take. -/
theorem data_eq_zero (h : (program rounds data).Reachable c)
    (hpro : c.threads .pro = .running (.proLock 0))
    (hcon : ∃ i, c.threads .con = .asleep .cond .mutex (.conTest i)) : c.shared.data = 0 := by
  obtain ⟨i, hcon⟩ := hcon
  have hasleep : AsleepOn .cond (c.threads .con) := by
    rw [hcon]
    rfl
  have hneed := (covered_of_reachable pays_cond h).need_le hasleep
  have hmain := thread_of_reachable h .main
  have hzero : weight (credit wakeupCredit) c.threads = 0 := by
    rw [weight_eq_zero_iff]
    intro t
    cases t with
    | pro => rw [hpro]; rfl
    | con => rw [hcon]; rfl
    | main =>
        cases hm : c.threads .main with
        | asleep cv m q => rfl
        | running q | woken m q =>
            simp only [points, hm, point] at hmain
            cases q <;> first | rfl | cases hmain
  omega

/-! ## Runs that never lack supply -/

theorem demand_le_of_supplied
    (h : (program rounds data).ReachableBy (Meets Supplied fun _ _ _ => True) c) :
    (points c .con).demand ≤ c.shared.data + (points c .pro).supply := by
  refine (conditional_invariant (P := fun s ps _ => (∀ t, (ps t).thread = t) ∧
    (ps .con).demand ≤ s.data + (ps .pro).supply) flat.tracks resting_of_wait not_inside_start h
    ⟨fun t => by cases t <;> rfl, Nat.le_add_left _ _⟩ ?_ ?_).2
  · rintro s ps sl sl' t q ⟨hthread, hdemand⟩ _ hgood _ hq _
    refine ⟨thread_update hthread hq, ?_⟩
    rcases balance_of_next hthread hq with ⟨i, hp, hdata, hdata', hsupply, hdemand'⟩ | hbalance
    · rw [hdata', hsupply, hdemand', Nat.zero_add]
      rw [Supplied, hp] at hgood
      exact hgood hdata
    · rw [hbalance.1, hbalance.2]
      exact hdemand
  · exact fun _ _ _ _ _ hP _ _ => hP

theorem not_starved_of_supplied
    (h : (program rounds data).ReachableBy (Meets Supplied fun _ _ _ => True) c) :
    ¬ Starved c := by
  intro hstarved
  have hdemand := demand_le_of_supplied h
  obtain ⟨i, hcon⟩ := hstarved.con
  simp [points, hcon, hstarved.pro, hstarved.data, point, Point.demand, Point.supply] at hdemand

/-! ## Runs that lack supply -/

/-- The consumer cannot find a unit in each of its rounds any more. -/
def Short (s : Shared) (ps : Tid → Point) : Prop :=
  s.data + (ps .pro).supply < (ps .con).demand

theorem Short.step {a : Action Tid} (h : Short c.shared (points c))
    (hreach : (program rounds data).Reachable c) (hs : step code c a = some c') :
    Short c'.shared (points c') := by
  rcases (move_of_step hs).project with ⟨hpoints, hshared⟩ | ⟨t, p, q, hi, hq, hpoints, hshared⟩
  · rwa [hpoints, hshared]
  · obtain rfl : points c t = p := points_of_running hi
    rw [hpoints, hshared]
    rcases balance_of_next (thread_of_reachable hreach) hq with
      ⟨i, hp, hdata, hdata', hsupply, hdemand⟩ | hbalance
    · have hcon : t = .con := by
        have ht := thread_of_reachable hreach t
        rw [hp] at ht
        exact ht.symm
      subst hcon
      rw [Short, hp] at h
      rw [Short, hdata', hsupply, hdemand]
      simp only [Point.demand] at h
      omega
    · rw [Short, hbalance.1, hbalance.2]
      exact h

/-- Taking the stock with too little supply behind it leaves the consumer short. -/
theorem short_of_not_supplied {a : Action Tid} (hreach : (program rounds data).Reachable c)
    (hs : step code c a = some c') (hbad : ¬ Meets Supplied (fun _ _ _ => True) c a) :
    Short c'.shared (points c') := by
  obtain ⟨t, p, q, -, hlack, hq, hpoints, hshared⟩ := exists_of_not_meets hs hbad
  obtain ⟨rfl, i, hp, hdata, hlt⟩ := exists_of_not_supplied (thread_of_reachable hreach) hlack
  rcases balance_of_next (thread_of_reachable hreach) hq with
    ⟨j, hp', -, hdata', hsupply, hdemand⟩ | ⟨hbalance, -⟩
  · obtain rfl : j = i := by
      rw [hp] at hp'
      exact (Point.conTest.inj hp').symm
    rw [Short, hpoints, hshared, hdata', hsupply, hdemand]
    omega
  · rw [hp, Function.update_of_ne (by simp)] at hbalance
    simp only [code, if_neg hdata, Op.after, drain_eq] at hbalance
    omega

/-! ## The program comes to rest -/

def restSteps : Point → ℕ
  | .proLock i => 6 * i
  | .proIncrement i => 6 * i + 5
  | .proUnlock i => 6 * i + 4
  | .proSignal i => 6 * i + 3
  | .conLock i => 3 * i
  | .conTest i => 3 * i + 2
  | .conUnlock i => 3 * i + 1
  | .joinPro => 2
  | .joinCon => 1
  | .exited => 0

theorem lowers_code (c : Config Tid Shared Point Mutex Cond) (p : Point) :
    Lowers restSteps (fun p => restSteps p - 1) (fun _ => 0) c p (code c.shared p) := by
  cases p with
  | proLock i | conLock i =>
      cases i with
      | zero => trivial
      | succ i =>
          simp only [code, Lowers, restSteps]
          omega
  | proSignal i => refine ⟨?_, fun j m x _ => ?_⟩ <;> simp only [restSteps] <;> omega
  | conTest i =>
      simp only [code]
      split <;> simp only [Lowers, restSteps] <;> omega
  | exited => trivial
  | _ => simp [code, Lowers, restSteps]

theorem finished_or_starved (h : (program rounds data).Reachable c) (hstuck : Stuck code c) :
    Finished c ∨ Starved c :=
  (finished_or_asleep h hstuck).imp_right fun hasleep =>
    ⟨hasleep.1, hasleep.2, data_eq_zero h hasleep.1 hasleep.2⟩

/-- A consumer that is short starves. -/
theorem exists_starved (h : (program rounds data).Reachable c)
    (hshort : Short c.shared (points c)) :
    ∃ ls c', (program rounds data).exec c ls = some c' ∧ Starved c' := by
  obtain ⟨ls, c', hexec, hstuck⟩ := exists_stuck (fun _ : Shared => 0)
    (fun c _ _ p _ => lowers_code c p) h
  obtain ⟨hreach, hshort'⟩ := System.exec_invariant
    (P := fun c => (program rounds data).Reachable c ∧ Short c.shared (points c))
    (fun _ a _ hP hs => ⟨hP.1.step a hs, hP.2.step hP.1 hs⟩) ⟨h, hshort⟩ hexec
  refine ⟨ls, c', hexec, (finished_or_starved hreach hstuck).resolve_left fun hfinished => ?_⟩
  have hhalt := isHalt_of_halted (hfinished .con)
  have hthread := thread_of_reachable hreach .con
  cases hp : points c' .con <;> rw [hp] at hthread hhalt
  case conLock i =>
    cases i with
    | zero => simp [Short, hp, Point.demand] at hshort'
    | succ i => cases hhalt
  case proLock | exited => cases hthread
  case conTest i =>
    simp only [code] at hhalt
    split at hhalt <;> cases hhalt
  all_goals cases hhalt

/-! ## Few rounds and many -/

theorem demand_le_rounds (h : (program rounds data).Reachable c) :
    (points c .con).demand ≤ rounds := by
  refine (points_invariant (P := fun _ ps => (∀ t, (ps t).thread = t) ∧
    (ps .con).demand ≤ rounds) h ⟨fun t => by cases t <;> rfl, le_rfl⟩ ?_).2
  rintro s ps t q ⟨hthread, hdemand⟩ hq
  refine ⟨thread_update hthread hq, ?_⟩
  rcases balance_of_next hthread hq with ⟨i, hp, -, -, -, hdemand'⟩ | ⟨-, hdemand'⟩
  · have hcon : t = .con := by
      have ht := hthread t
      rw [hp] at ht
      exact ht.symm
    subst hcon
    rw [hp] at hdemand
    rw [hdemand']
    exact (Nat.le_succ i).trans hdemand
  · rwa [hdemand']

/-- With a single round there is no round behind it to be supplied. -/
theorem supplied_of_one_round (h : (program 1 data).Reachable c) :
    (program 1 data).ReachableBy (Meets Supplied fun _ _ _ => True) c := by
  refine reachableBy_of_good (fun c t p hc _ => ?_) h
  by_contra hlack
  obtain ⟨-, i, hp, -, hlt⟩ :=
    exists_of_not_supplied (thread_of_reachable hc.reachable) hlack
  have hdemand := demand_le_rounds hc.reachable
  rw [hp] at hdemand
  simp only [Point.demand] at hdemand
  omega

/-- With more rounds the producer may be two rounds ahead when the consumer takes its first
stock. -/
theorem exists_starved_of_two_le (n data : ℕ) :
    ∃ c, (program (n + 2) data).Reachable c ∧ Starved c := by
  obtain ⟨c, c', hexec, hstep, hpro, hcon, hdata⟩ : ∃ c c',
      (program (n + 2) data).exec (program (n + 2) data).init
        (List.replicate 8 (Action.run .pro none) ++ [.run .con none]) = some c ∧
      (program (n + 2) data).step c (.run .con none) = some c' ∧ points c .pro = .proLock n ∧
      c.threads .con = .running (.conTest (n + 1)) ∧ c.shared.data = data + 2 :=
    ⟨_, _, rfl, rfl, rfl, rfl, rfl⟩
  have hreach := System.Reachable.init.exec hexec
  have hbad : ¬ Meets Supplied (fun _ _ _ => True) c (.run .con none) := by
    intro hgood
    have hle := hgood (by rw [hcon]; trivial)
    have hpoint : points c .con = .conTest (n + 1) := points_of_running hcon
    rw [Supplied, hpoint, hpro] at hle
    have hlt : n + 1 ≤ n := hle (by omega)
    omega
  obtain ⟨ls, c'', hexec', hstarved⟩ := exists_starved (hreach.step _ hstep)
    (short_of_not_supplied (a := .run .con none) hreach hstep hbad)
  exact ⟨c'', (hreach.step _ hstep).exec hexec', hstarved⟩

/-! ## Results -/

/-- For any number of rounds, any initial stock and any interleaving: where the consumer takes the
stock only while the producer has still to make a unit for each of the rounds behind, it never
starves and a program that stops has finished; where it takes the stock otherwise, it can starve.
So all runs reach both joins if there is one round, and not if there are more. -/
theorem pro_con_correct (rounds data : ℕ) :
    (∀ c, (program rounds data).ReachableBy (Meets Supplied fun _ _ _ => True) c →
      ¬ Starved c ∧ (Stuck code c → Finished c)) ∧
    (∀ c c' a, (program rounds data).Reachable c → (program rounds data).step c a = some c' →
      ¬ Meets Supplied (fun _ _ _ => True) c a →
      ∃ ls c'', (program rounds data).exec c' ls = some c'' ∧ Starved c'') ∧
    (1 ≤ rounds → ((∀ c, (program rounds data).Reachable c →
      ¬ Starved c ∧ (Stuck code c → Finished c)) ↔ rounds = 1)) := by
  have hsupplied : ∀ {rounds c}, (program rounds data).ReachableBy
      (Meets Supplied fun _ _ _ => True) c → ¬ Starved c ∧ (Stuck code c → Finished c) := by
    intro rounds c h
    refine ⟨not_starved_of_supplied h, fun hstuck => ?_⟩
    exact (finished_or_starved h.reachable hstuck).resolve_right (not_starved_of_supplied h)
  refine ⟨fun c h => hsupplied h, fun c c' a hreach hs hbad => ?_, fun hpos => ⟨fun hall => ?_, ?_⟩⟩
  · exact exists_starved (hreach.step a hs) (short_of_not_supplied hreach hs hbad)
  · by_contra hne
    obtain ⟨n, rfl⟩ : ∃ n, rounds = n + 2 := ⟨rounds - 2, by omega⟩
    obtain ⟨c, hreach, hstarved⟩ := exists_starved_of_two_le n data
    exact (hall c hreach).1 hstarved
  · rintro rfl c hreach
    exact hsupplied (supplied_of_one_round hreach)

/-- Two rounds in which the consumer follows the producer. -/
def twoRounds : Option (Config Tid Shared Point Mutex Cond) :=
  ((program 2 3).guarded (Meets Supplied fun _ _ _ => True)).exec (program 2 3).init
    (List.replicate 4 (Action.run .pro none) ++ List.replicate 3 (Action.run .con none) ++
      List.replicate 4 (Action.run .pro none) ++ List.replicate 3 (Action.run .con none) ++
      List.replicate 2 (Action.run .main none))

theorem pro_con_correct_two : ∃ c, twoRounds = some c ∧ ¬ Starved c ∧ Finished c ∧
    ∀ c, (program 1 0).Reachable c → ¬ Starved c := by
  have hrun : twoRounds.isSome = true := by decide
  have hreach : (program 2 3).ReachableBy (Meets Supplied fun _ _ _ => True)
      (twoRounds.get hrun) := .of_exec (Option.some_get hrun).symm
  refine ⟨twoRounds.get hrun, (Option.some_get hrun).symm,
    ((pro_con_correct 2 3).1 _ hreach).1, fun t => by cases t <;> rfl, fun c hc => ?_⟩
  exact (((pro_con_correct 1 0).2.2 le_rfl).mpr rfl c hc).1

/-- Two rounds in which the consumer follows only when the producer has finished. -/
def lateConsumer : Option (Config Tid Shared Point Mutex Cond) :=
  (program 2 3).exec (program 2 3).init
    (List.replicate 8 (Action.run .pro none) ++ List.replicate 5 (Action.run .con none))

/-- The consumer takes all units in its first round. -/
theorem consumer_starves : ∃ c, (program 2 3).Reachable c ∧ Starved c := by
  have hrun : lateConsumer.isSome = true := by decide
  exact ⟨lateConsumer.get hrun, System.Reachable.init.exec (Option.some_get hrun).symm,
    rfl, ⟨0, rfl⟩, rfl⟩

end PthreadBenchmark.ProCon
