import PthreadBenchmark.Tickets.Locked

/-! # Tickets that are sold more than once

Without the lock a thread may load a number that other threads have loaded too, and may take back
what they have counted. But no ticket is left out: each number is stored by a thread that sells the
ticket above it. -/

namespace PthreadBenchmark.Tickets

open Pthread

variable {sellers tickets : ℕ} {s s' : Shared sellers} {ps : Fin sellers → Thread sellers}
  {i : Fin sellers} {q : Thread sellers} {k : ℤ}
  {c : Config (Fin sellers) (Shared sellers) (Thread sellers) Empty Empty}

/-! ## The tickets are an interval -/

/-- The ticket is printed, or a thread is about to print it. -/
def Called (s : Shared sellers) (ps : Fin sellers → Thread sellers) (k : ℤ) : Prop :=
  k ∈ s.printed.map Prod.snd ∨ ∃ i, (ps i).point = .print k

/-- All tickets above `k` are called. -/
def AllAbove (tickets : ℕ) (called : ℤ → Prop) (k : ℤ) : Prop :=
  k ≤ tickets ∧ ∀ j, k < j → j ≤ tickets → called j

def UnlockedFits (tickets : ℕ) (called : ℤ → Prop) (t : Thread sellers) : Prop :=
  match t.point with
  | .store ticket => AllAbove tickets called ticket
  | .unlockEmpty | .exited => ∀ j : ℤ, 0 < j → j ≤ tickets → called j
  | .lock | .test | .load | .print _ | .unlockSold => True

structure Interval (tickets : ℕ) (s : Shared sellers) (ps : Fin sellers → Thread sellers) :
    Prop where
  seller : ∀ i, (ps i).seller = i
  left : AllAbove tickets (Called s ps) s.tickets
  called : ∀ k, Called s ps k → AllAbove tickets (Called s ps) k
  fits : ∀ i, UnlockedFits tickets (Called s ps) (ps i)

theorem AllAbove.mono {called called' : ℤ → Prop} (h : AllAbove tickets called k)
    (hmono : ∀ k, called k → called' k) : AllAbove tickets called' k :=
  ⟨h.1, fun j hj hle => hmono j (h.2 j hj hle)⟩

theorem UnlockedFits.mono {called called' : ℤ → Prop} (h : UnlockedFits tickets called q)
    (hmono : ∀ k, called k → called' k) : UnlockedFits tickets called' q := by
  obtain ⟨i, point⟩ := q
  cases point with
  | store ticket => exact AllAbove.mono h hmono
  | unlockEmpty | exited => exact fun j hj hle => hmono j (h j hj hle)
  | _ => trivial

theorem called_update (hlist : ∀ k, k ∈ s.printed.map Prod.snd → k ∈ s'.printed.map Prod.snd)
    (hpoint : ∀ k, (ps i).point = .print k → k ∈ s'.printed.map Prod.snd) (k : ℤ)
    (h : Called s ps k) : Called s' (Function.update ps i q) k := by
  rcases h with hk | ⟨j, hj⟩
  · exact .inl (hlist k hk)
  · by_cases hji : j = i
    · subst hji
      exact .inl (hpoint k hj)
    · exact .inr ⟨j, by rwa [Function.update_of_ne hji]⟩

/-- A step after which the same tickets are called. -/
theorem Interval.move (h : Interval tickets s ps) (hq : q.seller = i)
    (hcalled : ∀ k, Called s' (Function.update ps i q) k ↔ Called s ps k)
    (htickets : s'.tickets = s.tickets) (hfits : UnlockedFits tickets (Called s ps) q) :
    Interval tickets s' (Function.update ps i q) := by
  have hmono : ∀ k, Called s ps k → Called s' (Function.update ps i q) k :=
    fun k => (hcalled k).mpr
  constructor
  · apply (Function.forall_update_iff ps fun i t => t.seller = i).mpr
    exact ⟨hq, fun j _ => h.seller j⟩
  · rw [htickets]
    exact h.left.mono hmono
  · exact fun k hk => (h.called k ((hcalled k).mp hk)).mono hmono
  · apply (Function.forall_update_iff ps fun _ t => UnlockedFits tickets _ t).mpr
    exact ⟨hfits.mono hmono, fun j _ => (h.fits j).mono hmono⟩

theorem called_of_point (hi : ∀ k, (ps i).point ≠ .print k) (hq : ∀ k, q.point ≠ .print k)
    (k : ℤ) : Called s (Function.update ps i q) k ↔ Called s ps k := by
  refine ⟨fun h => ?_, called_update (fun _ => id) (fun k hk => absurd hk (hi k)) k⟩
  rcases h with hk | ⟨j, hj⟩
  · exact .inl hk
  · by_cases hji : j = i
    · subst hji
      rw [Function.update_self] at hj
      exact absurd hj (hq k)
    · rw [Function.update_of_ne hji] at hj
      exact .inr ⟨j, hj⟩

theorem Interval.store {ticket : ℤ} (h : Interval tickets s ps)
    (hp : ps i = ⟨i, .store ticket⟩) :
    Interval tickets { s with tickets := ticket - 1 }
      (Function.update ps i ⟨i, .print ticket⟩) := by
  have hfits := h.fits i
  rw [hp] at hfits
  have hmono : ∀ k, Called s ps k →
      Called { s with tickets := ticket - 1 } (Function.update ps i ⟨i, .print ticket⟩) k :=
    called_update (fun _ => id) fun k hk => by
      rw [hp] at hk
      cases hk
  have hself : Called { s with tickets := ticket - 1 } (Function.update ps i ⟨i, .print ticket⟩)
      ticket := .inr ⟨i, by rw [Function.update_self]⟩
  have habove := AllAbove.mono hfits hmono
  constructor
  · apply (Function.forall_update_iff ps fun i t => t.seller = i).mpr
    exact ⟨rfl, fun j _ => h.seller j⟩
  · refine ⟨(Int.sub_le_self _ Int.one_nonneg).trans habove.1, fun j hj hle => ?_⟩
    rcases (Int.sub_one_lt_iff.mp hj).eq_or_lt with rfl | hlt
    · exact hself
    · exact habove.2 j hlt hle
  · rintro k (hk | ⟨j, hj⟩)
    · exact (h.called k (.inl hk)).mono hmono
    · by_cases hji : j = i
      · subst hji
        rw [Function.update_self] at hj
        cases hj
        exact habove
      · rw [Function.update_of_ne hji] at hj
        exact (h.called k (.inr ⟨j, hj⟩)).mono hmono
  · apply (Function.forall_update_iff ps fun _ t => UnlockedFits tickets _ t).mpr
    exact ⟨trivial, fun j _ => (h.fits j).mono hmono⟩

theorem called_print {ticket : ℤ} (hp : ps i = ⟨i, .print ticket⟩) (k : ℤ) :
    Called { s with printed := s.printed ++ [(i, ticket)] }
      (Function.update ps i ⟨i, .unlockSold⟩) k ↔ Called s ps k := by
  have hlist : ∀ k, k ∈ (s.printed ++ [(i, ticket)]).map Prod.snd ↔
      k ∈ s.printed.map Prod.snd ∨ k = ticket := by
    intro k
    rw [List.map_append, List.mem_append]
    exact or_congr_right List.mem_singleton
  refine ⟨fun h => ?_, called_update (fun k hk => (hlist k).mpr (.inl hk)) (fun k hk => ?_) k⟩
  · rcases h with hk | ⟨j, hj⟩
    · rcases (hlist k).mp hk with hk | rfl
      · exact .inl hk
      · exact .inr ⟨i, by rw [hp]⟩
    · by_cases hji : j = i
      · subst hji
        rw [Function.update_self] at hj
        cases hj
      · rw [Function.update_of_ne hji] at hj
        exact .inr ⟨j, hj⟩
  · rw [hp] at hk
    cases hk
    exact (hlist ticket).mpr (.inr rfl)

theorem Interval.step (h : Interval tickets s ps)
    (hq : (unlocked (mythread (ι := Fin sellers)) s (ps i)).next? = some q) :
    Interval tickets ((unlocked (mythread (ι := Fin sellers)) s (ps i)).after s)
      (Function.update ps i q) := by
  have hfits := h.fits i
  have hseller := h.seller i
  obtain ⟨seller, point, hp⟩ : ∃ seller point, ps i = ⟨seller, point⟩ := ⟨_, _, rfl⟩
  rw [hp] at hseller
  obtain rfl : seller = i := hseller
  rw [hp] at hq hfits ⊢
  -- most steps call no ticket
  have hquiet : ∀ q : Point, (∀ k, point ≠ .print k) → (∀ k, q ≠ .print k) →
      UnlockedFits tickets (Called s ps) ⟨seller, q⟩ →
      Interval tickets s (Function.update ps seller ⟨seller, q⟩) := by
    intro q hpoint hq hfits
    exact h.move rfl (called_of_point (fun k => by rw [hp]; exact hpoint k) hq) rfl hfits
  cases point with
  | lock | unlockSold =>
      cases hq
      exact hquiet _ (by simp) (by simp) trivial
  | test =>
      cases hq
      by_cases hpos : 0 < s.tickets
      · rw [if_pos hpos]
        exact hquiet _ (by simp) (by simp) trivial
      · rw [if_neg hpos]
        refine hquiet _ (by simp) (by simp) fun j hj hle => ?_
        exact h.left.2 j ((not_lt.mp hpos).trans_lt hj) hle
  | load =>
      cases hq
      exact hquiet _ (by simp) (by simp) h.left
  | store ticket =>
      cases hq
      exact h.store hp
  | print ticket =>
      cases hq
      exact h.move rfl (called_print hp) rfl trivial
  | unlockEmpty =>
      cases hq
      exact hquiet _ (by simp) (by simp) hfits
  | exited => cases hq

theorem interval_of_reachable (h : (unlockedProgram sellers tickets).Reachable c) :
    Interval tickets c.shared (points c) := by
  refine points_invariant h ⟨fun _ => rfl, ⟨le_rfl, fun j hj hle => absurd hj hle.not_gt⟩,
    fun k hk => ?_, fun _ => trivial⟩ fun _ _ _ _ hinterval hq => hinterval.step hq
  rcases hk with hk | ⟨i, hi⟩
  · cases hk
  · cases hi

def numbers {μ : Type} (c : Config (Fin sellers) (Shared sellers) (Thread sellers) μ Empty) :
    List ℤ :=
  c.shared.printed.map Prod.snd

/-- At the end all tickets have been sold, and perhaps some below. -/
theorem numbers_of_allExited (hsellers : 0 < sellers)
    (h : (unlockedProgram sellers tickets).Reachable c) (hexited : AllExited c) :
    (∀ j : ℤ, 0 < j → j ≤ tickets → j ∈ numbers c) ∧
      ∀ k ∈ numbers c, k ≤ tickets ∧ ∀ j, k < j → j ≤ tickets → j ∈ numbers c := by
  have hinterval := interval_of_reachable h
  have hpoint : ∀ i, points c i = ⟨i, .exited⟩ := fun i => points_of_running (hexited i)
  have hcalled : ∀ k, Called c.shared (points c) k → k ∈ numbers c := by
    rintro k (hk | ⟨i, hi⟩)
    · exact hk
    · rw [hpoint] at hi
      cases hi
  have hlast := hinterval.fits ⟨0, hsellers⟩
  rw [hpoint] at hlast
  refine ⟨fun j hj hle => hcalled j (hlast j hj hle), fun k hk => ?_⟩
  exact (hinterval.called k (.inl hk)).mono hcalled

/-! ## Runs that sell a ticket more than once -/

section Runs

variable {G : Config (Fin sellers) (Shared sellers) (Thread sellers) Empty Empty → Prop}
  {f : Fin sellers → Point} {l : Finset (Fin sellers)} {a b : Point} {n : ℕ} {times : ℕ → ℕ}

/-- All threads, each with its seller. -/
def sellersAt (s : Shared sellers) (f : Fin sellers → Point) :
    Config (Fin sellers) (Shared sellers) (Thread sellers) Empty Empty :=
  placed (fun _ => none) s fun i => ⟨i, f i⟩

theorem leads_point (i : Fin sellers)
    (hop : unlocked (mythread (ι := Fin sellers)) s ⟨i, f i⟩ = .run s' ⟨i, b⟩)
    (h : (unlockedProgram sellers tickets).Leads G (sellersAt s' (Function.update f i b))) :
    (unlockedProgram sellers tickets).Leads G (sellersAt s f) := by
  refine leads_placed_run i hop ?_
  have hpoints : Function.update (fun j => (⟨j, f j⟩ : Thread sellers)) i ⟨i, b⟩ =
      fun j => ⟨j, Function.update f i b j⟩ := by
    funext j
    by_cases hj : j = i
    · subst hj
      simp only [Function.update_self]
    · simp only [Function.update_of_ne hj]
  rwa [hpoints]

theorem leads_test (hi : f i = .lock) (hpos : 0 < s.tickets)
    (h : (unlockedProgram sellers tickets).Leads G (sellersAt s (Function.update f i .load))) :
    (unlockedProgram sellers tickets).Leads G (sellersAt s f) := by
  have hlock : unlocked (mythread (ι := Fin sellers)) s ⟨i, f i⟩ = .run s ⟨i, .test⟩ := by
    rw [hi]
    rfl
  have htest : unlocked (mythread (ι := Fin sellers)) s ⟨i, Function.update f i .test i⟩ =
      .run s ⟨i, .load⟩ := by
    rw [Function.update_self, unlocked, mythread, if_pos hpos]
    rfl
  refine leads_point i hlock (leads_point i htest ?_)
  rwa [Function.update_idem]

theorem leads_load (hi : f i = .load)
    (h : (unlockedProgram sellers tickets).Leads G
      (sellersAt s (Function.update f i (.store s.tickets)))) :
    (unlockedProgram sellers tickets).Leads G (sellersAt s f) :=
  leads_point i (by rw [hi]; rfl) h

theorem leads_sell (hi : f i = .store k)
    (h : (unlockedProgram sellers tickets).Leads G
      (sellersAt ⟨k - 1, s.printed ++ [(i, k)]⟩ (Function.update f i .lock))) :
    (unlockedProgram sellers tickets).Leads G (sellersAt s f) := by
  refine leads_point i (b := .print k) (by rw [hi]; rfl) ?_
  refine leads_point i (b := .unlockSold) (by rw [Function.update_self]; rfl) ?_
  refine leads_point i (b := .lock) (by rw [Function.update_self]; rfl) ?_
  rwa [Function.update_idem, Function.update_idem]

theorem leads_leave (hi : f i = .lock) (hempty : s.tickets ≤ 0)
    (h : (unlockedProgram sellers tickets).Leads G (sellersAt s (Function.update f i .exited))) :
    (unlockedProgram sellers tickets).Leads G (sellersAt s f) := by
  have hlock : unlocked (mythread (ι := Fin sellers)) s ⟨i, f i⟩ = .run s ⟨i, .test⟩ := by
    rw [hi]
    rfl
  have htest : unlocked (mythread (ι := Fin sellers)) s ⟨i, Function.update f i .test i⟩ =
      .run s ⟨i, .unlockEmpty⟩ := by
    rw [Function.update_self, unlocked, mythread, if_neg (not_lt.mpr hempty)]
    rfl
  refine leads_point i hlock (leads_point i htest ?_)
  refine leads_point i (b := .exited) (by rw [Function.update_self]; rfl) ?_
  rwa [Function.update_idem, Function.update_idem]

theorem update_ite (ha : i ∉ l) :
    (fun j => if j ∈ insert i l then b else f j) =
      fun j => if j ∈ l then b else Function.update f i b j := by
  funext j
  by_cases hj : j = i
  · subst hj
    simp [ha]
  · simp [hj]

/-- The threads of `l` go from `a` to `b`, one after the other. -/
theorem leads_each
    (hmove : ∀ f i, f i = a →
      (unlockedProgram sellers tickets).Leads G (sellersAt s (Function.update f i b)) →
      (unlockedProgram sellers tickets).Leads G (sellersAt s f))
    (hf : ∀ i ∈ l, f i = a)
    (h : (unlockedProgram sellers tickets).Leads G
      (sellersAt s fun i => if i ∈ l then b else f i)) :
    (unlockedProgram sellers tickets).Leads G (sellersAt s f) := by
  induction l using Finset.induction_on generalizing f with
  | empty => simpa using h
  | insert i l hi ih =>
      rw [update_ite hi] at h
      refine hmove f i (hf i (Finset.mem_insert_self i l)) (ih (fun j hj => ?_) h)
      have hji : j ≠ i := by
        rintro rfl
        exact hi hj
      rw [Function.update_of_ne hji]
      exact hf j (Finset.mem_insert_of_mem hj)

/-- The threads of `l` sell a ticket that others have sold before. -/
theorem leads_resell (hk : s.tickets = k - 1) (hf : ∀ i ∈ l, f i = .store k)
    (h : ∀ printed, printed.map Prod.snd = s.printed.map Prod.snd ++ List.replicate l.card k →
      (unlockedProgram sellers tickets).Leads G
        (sellersAt ⟨s.tickets, printed⟩ fun i => if i ∈ l then .lock else f i)) :
    (unlockedProgram sellers tickets).Leads G (sellersAt s f) := by
  induction l using Finset.induction_on generalizing s f with
  | empty => simpa using h s.printed (List.append_nil _).symm
  | insert i l hi ih =>
      refine leads_sell (hf i (Finset.mem_insert_self i l)) (ih rfl (fun j hj => ?_) ?_)
      · have hji : j ≠ i := by
          rintro rfl
          exact hi hj
        rw [Function.update_of_ne hji]
        exact hf j (Finset.mem_insert_of_mem hj)
      · intro printed hprinted
        rw [update_ite hi, Finset.card_insert_of_notMem hi, hk] at h
        refine h printed (hprinted.trans ?_)
        rw [List.map_append, List.append_assoc, List.replicate_succ]
        rfl

/-- All threads of `l` load the number of the same ticket and sell it. -/
theorem leads_batch (hl : l.Nonempty) (hpos : 0 < s.tickets)
    (h : ∀ printed, printed.map Prod.snd =
        s.printed.map Prod.snd ++ List.replicate l.card s.tickets →
      (unlockedProgram sellers tickets).Leads G
        (sellersAt ⟨s.tickets - 1, printed⟩ fun _ => .lock)) :
    (unlockedProgram sellers tickets).Leads G (sellersAt s fun _ => .lock) := by
  refine leads_each (l := l) (fun f i hi => leads_test hi hpos) (fun _ _ => rfl) ?_
  refine leads_each (l := l) (fun f i hi => leads_load hi) (fun i hi => if_pos hi) ?_
  obtain ⟨a, ha⟩ := hl
  refine leads_sell (i := a) (k := s.tickets) (if_pos ha) ?_
  refine leads_resell (l := l.erase a) (k := s.tickets) rfl (fun i hi => ?_)
    fun printed hprinted => ?_
  · obtain ⟨hia, hi⟩ := Finset.mem_erase.mp hi
    rw [Function.update_of_ne hia, if_pos hi]
  · have hcard : l.card = (l.erase a).card + 1 := (Finset.card_erase_add_one ha).symm
    have hnumbers : printed.map Prod.snd =
        s.printed.map Prod.snd ++ List.replicate l.card s.tickets := by
      rw [hprinted, List.map_append, List.append_assoc, hcard, List.replicate_succ]
      rfl
    convert h printed hnumbers using 3 with i
    by_cases hia : i = a
    · subst hia
      simp
    · by_cases hi : i ∈ l
      · simp [hia, hi]
      · simp [hia, hi]

/-- The threads of `l` have seen that there is a ticket, and sell one each. -/
theorem leads_oversell (hf : ∀ i ∈ l, f i = .load)
    (h : ∀ printed, printed.map Prod.snd =
        s.printed.map Prod.snd ++ countdown s.tickets l.card →
      (unlockedProgram sellers tickets).Leads G
        (sellersAt ⟨s.tickets - l.card, printed⟩ fun i => if i ∈ l then .lock else f i)) :
    (unlockedProgram sellers tickets).Leads G (sellersAt s f) := by
  induction l using Finset.induction_on generalizing s f with
  | empty => simpa using h s.printed (List.append_nil _).symm
  | insert i l hi ih =>
      refine leads_load (hf i (Finset.mem_insert_self i l)) (leads_sell (i := i) (k := s.tickets)
        (Function.update_self ..) ?_)
      rw [Function.update_idem]
      refine ih (fun j hj => ?_) fun printed hprinted => ?_
      · have hji : j ≠ i := by
          rintro rfl
          exact hi hj
        rw [Function.update_of_ne hji]
        exact hf j (Finset.mem_insert_of_mem hj)
      · rw [update_ite hi, Finset.card_insert_of_notMem hi] at h
        have hleft : s.tickets - 1 - (l.card : ℤ) = s.tickets - ((l.card + 1 : ℕ) : ℤ) := by omega
        rw [hleft]
        refine h printed (hprinted.trans ?_)
        rw [List.map_append, List.append_assoc, countdown]
        rfl

/-- Where nothing is left all threads leave their loops. -/
theorem leads_end (hempty : s.tickets ≤ 0) (h : ∀ c, AllExited c → c.shared = s → G c) :
    (unlockedProgram sellers tickets).Leads G (sellersAt s fun _ => .lock) := by
  refine leads_each (l := Finset.univ) (fun f i hi => leads_leave hi hempty) (fun _ _ => rfl)
    (.here (h _ (fun i => ?_) rfl))
  simp only [sellersAt, placed, Finset.mem_univ, if_true]

/-- `n` tickets down to the one above `k`, each as often as `times` says. -/
def soldTimes (times : ℕ → ℕ) (k : ℕ) : ℕ → List ℤ
  | 0 => []
  | n + 1 => List.replicate (times (k + n + 1)) (k + n + 1 : ℤ) ++ soldTimes times k n

theorem leads_times {k : ℕ} (htimes : ∀ k, 1 ≤ times k ∧ times k ≤ sellers)
    (h : ∀ printed, printed.map Prod.snd = s.printed.map Prod.snd ++ soldTimes times k n →
      (unlockedProgram sellers tickets).Leads G (sellersAt ⟨k, printed⟩ fun _ => .lock))
    (hs : s.tickets = k + n) :
    (unlockedProgram sellers tickets).Leads G (sellersAt s fun _ => .lock) := by
  induction n generalizing s with
  | zero =>
      have hk : s.tickets = k := by omega
      have hsame := h s.printed (List.append_nil _).symm
      rwa [← hk] at hsame
  | succ n ih =>
      obtain ⟨hlow, hhigh⟩ := htimes (k + n + 1)
      obtain ⟨l, -, hcard⟩ := Finset.exists_subset_card_eq
        (s := (Finset.univ : Finset (Fin sellers))) (hhigh.trans_eq (Finset.card_fin sellers).symm)
      have hl : l.Nonempty := Finset.card_pos.mp (by omega)
      refine leads_batch hl (by omega) fun printed hprinted => ?_
      refine ih (fun printed' hprinted' => ?_) (by simp only; omega)
      refine h printed' (hprinted'.trans ?_)
      have hticket : s.tickets = k + n + 1 := by omega
      rw [hprinted, List.append_assoc, hcard, hticket]
      rfl

end Runs

/-! ## Results -/

/-- Without the lock the sellers may still sell each ticket once. At the end none is left out, and
what is sold below them goes down without a gap. But each ticket may be sold as often as there
are sellers, and at the last one each seller may sell one more. -/
theorem unlocked_printed (hsellers : 0 < sellers) (tickets : ℕ) :
    (∀ printed : List (Fin sellers × ℤ), printed.map Prod.snd = countdown tickets tickets →
      ∃ c, (unlockedProgram sellers tickets).Reachable c ∧ AllExited c ∧
        c.shared.printed = printed) ∧
    (∀ c, (unlockedProgram sellers tickets).Reachable c → AllExited c →
      (∀ j : ℤ, 0 < j → j ≤ tickets → j ∈ numbers c) ∧
        ∀ k ∈ numbers c, k ≤ tickets ∧ ∀ j, k < j → j ≤ tickets → j ∈ numbers c) ∧
    (∀ times : ℕ → ℕ, (∀ k, 1 ≤ times k ∧ times k ≤ sellers) →
      ∃ c, (unlockedProgram sellers tickets).Reachable c ∧ AllExited c ∧
        numbers c = soldTimes times 0 tickets) ∧
    (∀ (times : ℕ → ℕ) (n : ℕ), (∀ k, 1 ≤ times k ∧ times k ≤ sellers) → 0 < tickets →
      1 ≤ n → n ≤ sellers →
      ∃ c, (unlockedProgram sellers tickets).Reachable c ∧ AllExited c ∧
        numbers c = soldTimes times 1 (tickets - 1) ++ countdown 1 n) := by
  refine ⟨fun printed hprinted => ?_, fun c hc hexited => numbers_of_allExited hsellers hc hexited,
    fun times htimes => ?_, fun times n htimes htickets hn hle => ?_⟩
  · have hleads : (program sellers tickets).Leads _ (between ⟨tickets, []⟩ ∅) :=
      leads_sales hprinted
    obtain ⟨c, hc, hexited, hshared⟩ := hleads.reachable .init
    exact ⟨forget c, reachable_forget hc, fun i => forget_threads (hexited i), hshared⟩
  · have hleads : (unlockedProgram sellers tickets).Leads
        (fun c => AllExited c ∧ numbers c = soldTimes times 0 tickets)
        (sellersAt ⟨tickets, []⟩ fun _ => .lock) := by
      refine leads_times htimes (fun printed hprinted => leads_end le_rfl ?_) (zero_add _).symm
      intro c hexited hshared
      exact ⟨hexited, by rw [numbers, hshared, hprinted]; rfl⟩
    exact hleads.reachable .init
  · obtain ⟨l, -, hcard⟩ := Finset.exists_subset_card_eq
      (s := (Finset.univ : Finset (Fin sellers))) (hle.trans_eq (Finset.card_fin sellers).symm)
    have hleads : (unlockedProgram sellers tickets).Leads
        (fun c => AllExited c ∧
          numbers c = soldTimes times 1 (tickets - 1) ++ countdown 1 n)
        (sellersAt ⟨tickets, []⟩ fun _ => .lock) := by
      refine leads_times (k := 1) (n := tickets - 1) htimes (fun printed hprinted => ?_)
        (by simp only; omega)
      refine leads_each (l := l) (fun f i hi => leads_test hi Int.one_pos) (fun _ _ => rfl) ?_
      refine leads_oversell (l := l) (fun i hi => if_pos hi) fun printed' hprinted' => ?_
      have hlock : (fun i => if i ∈ l then Point.lock else if i ∈ l then .load else .lock) =
          fun _ => .lock := by
        funext i
        by_cases hi : i ∈ l
        · rw [if_pos hi]
        · rw [if_neg hi, if_neg hi]
      rw [hlock]
      refine leads_end (by simp only; omega) fun c hexited hshared => ⟨hexited, ?_⟩
      rw [numbers, hshared, hprinted', hprinted, hcard]
      rfl
    exact hleads.reachable .init

/-- The two threads of `main` may sell each of the 20 tickets twice. -/
theorem unlocked_printed_main : ∃ c, (unlockedProgram 2 20).Reachable c ∧ AllExited c ∧
    numbers c = soldTimes (fun _ => 2) 0 20 :=
  (unlocked_printed (by decide) 20).2.2.1 (fun _ => 2) fun _ => ⟨by decide, by decide⟩

end PthreadBenchmark.Tickets
