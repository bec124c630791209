import PthreadBenchmark.UdpSplice.Model
import PthreadBenchmark.Shared.PthreadConditions
import PthreadBenchmark.Shared.PthreadRuns

/-! # Whose acknowledgement a call gets

A call that does not find its acknowledgement leaves it behind for the next one. -/

namespace PthreadBenchmark.UdpSplice

open Pthread

variable {n : ℕ} {calls : Calls n} {s s' : Shared n} {ps : Tid n → Point n} {p q : Point n}
  {t : Tid n} {call : CallId n} {pc pc' : AddPc n}
  {c c' : Config (Tid n) (Shared n) (Point n) Mutex Empty}

/-- A call that returns 0, or -1 with `errno` from an acknowledgement, has it from its own one. -/
def Matched (s : Shared n) : Prop :=
  ∀ r ∈ s.returned, ∀ ack ∈ r.ack, r.result ≠ .badMessage → ack = r.call

/-- The number of the first call that a thread at this point has still to send. -/
def Point.next : Point n → ℕ
  | .kernel => 0
  | .add call .lock | .add call .send => call.2
  | .add call _ => call.2 + 1

/-- No call that is still to be sent gets past its `sendto`. -/
def Over (calls : Calls n) (ps : Tid n → Point n) : Prop :=
  ∀ i, ∀ k < calls.count i, (ps (some i)).next ≤ k → calls.sendFails (i, k) = true

instance (calls : Calls n) (ps : Tid n → Point n) : Decidable (Over calls ps) :=
  inferInstanceAs (Decidable (∀ i, ∀ k < calls.count i,
    (ps (some i)).next ≤ k → calls.sendFails (i, k) = true))

/-- A `recv` is made when an acknowledgement is queued, or for the last request. -/
def AckQueued (calls : Calls n) (s : Shared n) (ps : Tid n → Point n) (t : Tid n) : Prop :=
  match ps t with
  | .add _ .recv => s.queue ≠ [] ∨ Over calls ps
  | _ => True

instance (calls : Calls n) (s : Shared n) (ps : Tid n → Point n) (t : Tid n) :
    Decidable (AckQueued calls s ps t) := by
  unfold AckQueued
  split <;> infer_instance

/-! ## Mutual exclusion -/

def inside (p : Point n) (_ : Mutex) : Prop :=
  match p with
  | .add _ .send | .add _ .sendUnlock | .add _ .recv | .add _ (.recvUnlock _) => True
  | _ => False

theorem tracks_code (s : Shared n) (p : Point n) : Tracks inside p (code calls s p) := by
  cases p with
  | kernel => exact fun _ => Iff.rfl
  | add call pc =>
      cases pc with
      | lock =>
          simp only [code, udpSpliceAdd]
          split
          · intro m
            simp [inside]
          · trivial
      | send =>
          simp only [code, udpSpliceAdd]
          split <;> exact fun _ => Iff.rfl
      | sendUnlock | recvUnlock ack =>
          intro m
          simp [inside]
      | sendFailed | recv => exact fun _ => Iff.rfl
      | result ack => cases ack <;> exact fun _ => Iff.rfl

theorem not_inside_start (t : Tid n) (m : Mutex) : ¬ inside (start t) m := by
  cases t <;> exact id

/-! ## Runs in which the acknowledgements are in time -/

/-- The thread waits for an acknowledgement. -/
def Receiving (p : Point n) : Prop := ∃ call, p = .add call .recv

/-- The points of a thread. -/
def Point.Fits (calls : Calls n) : Tid n → Point n → Prop
  | none, p => p = .kernel
  | some i, p => ∃ k pc, p = .add (i, k) pc ∧ (pc = .send → k < calls.count i) ∧
      ∀ ack, pc = .recvUnlock (some ack) ∨ pc = .result (some ack) → ack = (i, k)

/-- The only acknowledgement outstanding is that of the thread that receives. -/
structure Clean (s : Shared n) (ps : Tid n → Point n) : Prop where
  receiving : ∀ t call, ps t = .add call .recv → s.queue ++ s.unanswered = [call]
  idle : (∀ t, ¬ Receiving (ps t)) → s.queue ++ s.unanswered = []

structure InOrder (calls : Calls n) (s : Shared n) (ps : Tid n → Point n) : Prop where
  fits : ∀ t, (ps t).Fits calls t
  matched : Matched s
  books : Clean s ps ∨ Over calls ps ∧ ∀ t, ¬ Receiving (ps t)

theorem inOrder_start : InOrder calls ⟨[], [], []⟩ start where
  fits t := by
    cases t with
    | none => rfl
    | some i => exact ⟨0, .lock, rfl, by simp, by simp⟩
  matched r hr := by cases hr
  books := .inl ⟨fun t call ht => (by cases t <;> cases ht), fun _ => rfl⟩

theorem Over.update (h : Over calls ps) (hnext : (ps t).next ≤ q.next) :
    Over calls (Function.update ps t q) := by
  intro i k hk hle
  apply h i k hk
  by_cases hi : some i = t
  · subst hi
    rw [Function.update_self] at hle
    exact hnext.trans hle
  · rwa [Function.update_of_ne hi] at hle

theorem not_receiving_update (h : ∀ t', t' ≠ t → ¬ Receiving (ps t')) (hq : ¬ Receiving q)
    (t' : Tid n) : ¬ Receiving (Function.update ps t q t') := by
  by_cases ht : t' = t
  · subst ht
    rwa [Function.update_self]
  · rw [Function.update_of_ne ht]
    exact h t' ht

/-- A step that has nothing to do with the socket. -/
theorem InOrder.move (h : InOrder calls s ps) (hp : ¬ Receiving (ps t)) (hq : ¬ Receiving q)
    (hfits : q.Fits calls t) (hnext : (ps t).next ≤ q.next)
    (hbooks : s'.queue ++ s'.unanswered = s.queue ++ s.unanswered) (hmatched : Matched s') :
    InOrder calls s' (Function.update ps t q) := by
  refine ⟨?_, hmatched, ?_⟩
  · exact (Function.forall_update_iff ps fun t p => p.Fits calls t).mpr
      ⟨hfits, fun t' _ => h.fits t'⟩
  · rcases h.books with hclean | ⟨hover, hidle⟩
    · left
      constructor
      · intro t' call ht'
        rw [hbooks]
        by_cases heq : t' = t
        · subst heq
          rw [Function.update_self] at ht'
          exact absurd ⟨call, ht'⟩ hq
        · rw [Function.update_of_ne heq] at ht'
          exact hclean.receiving t' call ht'
      · intro hidle
        rw [hbooks]
        apply hclean.idle
        intro t'
        by_cases heq : t' = t
        · subst heq
          exact hp
        · have ht' := hidle t'
          rwa [Function.update_of_ne heq] at ht'
    · exact .inr ⟨hover.update hnext, not_receiving_update (fun t' _ => hidle t') hq⟩

theorem Matched.record (h : Matched s) {result : Result} {ack : Option (CallId n)}
    (hack : ∀ a ∈ ack, a = call) : Matched (s.record call result ack) := by
  intro r hr a ha _
  rcases List.mem_append.mp hr with hr | hr
  · exact h r hr a ha ‹_›
  · obtain rfl := List.mem_singleton.mp hr
    exact hack a ha

theorem books_acknowledge (s : Shared n) :
    s.acknowledge.queue ++ s.acknowledge.unanswered = s.queue ++ s.unanswered := by
  unfold Shared.acknowledge
  split
  · rfl
  · next request rest hrest => simp [hrest]

theorem matched_acknowledge (h : Matched s) : Matched s.acknowledge := by
  unfold Shared.acknowledge
  split <;> exact h

theorem not_receiving_of_alone (halone : Alone inside (fun _ => False) ps t)
    (hin : inside (ps t) .lock) (t' : Tid n) (hne : t' ≠ t) : ¬ Receiving (ps t') := by
  rintro ⟨call, hcall⟩
  exact halone t' .lock hne hin (by rw [hcall]; trivial)

theorem InOrder.step_send (h : InOrder calls s ps) {i : Fin n} {k : ℕ}
    (hp : ps (some i) = .add (i, k) .send) (hlt : k < calls.count i)
    (hsend : calls.sendFails (i, k) = false)
    (hothers : ∀ t, t ≠ some i → ¬ Receiving (ps t)) :
    InOrder calls { s with unanswered := s.unanswered ++ [(i, k)] }
      (Function.update ps (some i) (.add (i, k) .recv)) := by
  have hidle : ∀ t, ¬ Receiving (ps t) := by
    intro t
    by_cases ht : t = some i
    · subst ht
      rw [hp]
      rintro ⟨call, hcall⟩
      cases hcall
    · exact hothers t ht
  rcases h.books with hclean | ⟨hover, -⟩
  · have hnil := hclean.idle hidle
    refine ⟨?_, h.matched, .inl ⟨fun t call ht => ?_, fun hnone => ?_⟩⟩
    · exact (Function.forall_update_iff ps fun t p => p.Fits calls t).mpr
        ⟨⟨k, .recv, rfl, by simp, by simp⟩, fun t' _ => h.fits t'⟩
    · by_cases heq : t = some i
      · subst heq
        rw [Function.update_self] at ht
        cases ht
        simp [← List.append_assoc, hnil]
      · rw [Function.update_of_ne heq] at ht
        exact absurd ⟨call, ht⟩ (hidle t)
    · exact absurd ⟨(i, k), by rw [Function.update_self]⟩ (hnone (some i))
  · have hfails := hover i k hlt (by rw [hp]; exact le_rfl)
    rw [hsend] at hfails
    cases hfails

theorem InOrder.step_recv (h : InOrder calls s ps) {i : Fin n} {k : ℕ}
    (hp : ps (some i) = .add (i, k) .recv) (hgood : s.queue ≠ [] ∨ Over calls ps)
    (hothers : ∀ t, t ≠ some i → ¬ Receiving (ps t)) :
    InOrder calls { s with queue := s.queue.tail }
      (Function.update ps (some i) (.add (i, k) (.recvUnlock s.queue.head?))) := by
  have hbooks : s.queue ++ s.unanswered = [(i, k)] := by
    rcases h.books with hclean | ⟨-, hidle⟩
    · exact hclean.receiving _ _ hp
    · exact absurd ⟨_, hp⟩ (hidle (some i))
  have hown : ∀ ack, s.queue.head? = some ack → ack = (i, k) := by
    intro ack hack
    have hmem : ack ∈ s.queue ++ s.unanswered := by
      exact List.mem_append_left _ (List.mem_of_mem_head? hack)
    rw [hbooks] at hmem
    exact List.mem_singleton.mp hmem
  have hnot : ¬ Receiving (.add (i, k) (.recvUnlock s.queue.head?)) := by
    rintro ⟨call, hcall⟩
    cases hcall
  have hnone := not_receiving_update hothers hnot
  refine ⟨?_, h.matched, ?_⟩
  · apply (Function.forall_update_iff ps fun t p => p.Fits calls t).mpr
    refine ⟨⟨k, _, rfl, by simp, fun ack hack => hown ack ?_⟩, fun t' _ => h.fits t'⟩
    simpa using hack
  · by_cases hqueue : s.queue = []
    · have hover := hgood.resolve_left (not_not.mpr hqueue)
      refine .inr ⟨hover.update ?_, hnone⟩
      rw [hp]
      exact le_rfl
    · refine .inl ⟨fun t call ht => absurd ⟨call, ht⟩ (hnone t), fun _ => ?_⟩
      obtain ⟨a, rest, hcons⟩ := List.exists_cons_of_ne_nil hqueue
      rw [hcons] at hbooks ⊢
      simpa using (List.cons.inj hbooks).2

theorem InOrder.step_add (h : InOrder calls s ps) {i : Fin n}
    (hgood : AckQueued calls s ps (some i)) (halone : Alone inside (fun _ => False) ps (some i))
    (hq : (code calls s (ps (some i))).next? = some q) :
    InOrder calls ((code calls s (ps (some i))).after s) (Function.update ps (some i) q) := by
  obtain ⟨k, pc, hp, hlt, hown⟩ := h.fits (some i)
  have hothers := not_receiving_of_alone halone
  have hmove : ∀ {k' pc' s'}, pc ≠ .recv → pc' ≠ .recv →
      (pc' = .send → k' < calls.count i) →
      (∀ ack, pc' = .recvUnlock (some ack) ∨ pc' = .result (some ack) → ack = (i, k')) →
      (ps (some i)).next ≤ (Point.add (i, k') pc').next →
      s'.queue ++ s'.unanswered = s.queue ++ s.unanswered → Matched s' →
      InOrder calls s' (Function.update ps (some i) (.add (i, k') pc')) := by
    intro k' pc' s' hpc hpc' hlt' hown' hnext hbooks hmatched
    refine h.move ?_ ?_ ⟨k', pc', rfl, hlt', hown'⟩ hnext hbooks hmatched
    · rw [hp]
      rintro ⟨call, hcall⟩
      cases hcall
      exact hpc rfl
    · rintro ⟨call, hcall⟩
      cases hcall
      exact hpc' rfl
  rw [hp] at hq hothers hmove ⊢
  cases pc with
  | lock =>
      simp only [code, udpSpliceAdd] at hq ⊢
      split at hq
      · next hcount =>
          rw [if_pos hcount]
          cases hq
          exact hmove (by simp) (by simp) (fun _ => hcount) (by simp) le_rfl rfl h.matched
      · cases hq
  | send =>
      simp only [code, udpSpliceAdd] at hq ⊢
      by_cases hsend : calls.sendFails (i, k) = true
      · rw [if_pos hsend] at hq ⊢
        cases hq
        exact hmove (by simp) (by simp) (by simp) (by simp) (Nat.le_succ k) rfl h.matched
      · rw [if_neg hsend] at hq ⊢
        cases hq
        exact h.step_send hp (hlt rfl) (Bool.eq_false_iff.mpr hsend) (hothers trivial)
  | sendUnlock =>
      cases hq
      exact hmove (by simp) (by simp) (by simp) (by simp) le_rfl rfl h.matched
  | sendFailed =>
      cases hq
      exact hmove (by simp) (by simp) (by simp) (by simp) le_rfl rfl (h.matched.record (by simp))
  | recv =>
      cases hq
      have hready : s.queue ≠ [] ∨ Over calls ps := by simpa only [AckQueued, hp] using hgood
      exact h.step_recv hp hready (hothers trivial)
  | recvUnlock ack =>
      cases hq
      refine hmove (by simp) (by simp) (by simp) (fun a ha => hown a ?_) le_rfl rfl h.matched
      simpa using ha
  | result ack =>
      cases ack with
      | none =>
          cases hq
          exact hmove (by simp) (by simp) (by simp) (by simp) le_rfl rfl
            (h.matched.record (by simp))
      | some ack =>
          cases hq
          refine hmove (by simp) (by simp) (by simp) (by simp) le_rfl rfl
            (h.matched.record fun a ha => ?_)
          cases ha
          exact hown ack (.inr rfl)

theorem InOrder.step_kernel (h : InOrder calls s ps)
    (hq : (code calls s (ps none)).next? = some q) :
    InOrder calls ((code calls s (ps none)).after s) (Function.update ps none q) := by
  have hp : ps none = .kernel := h.fits none
  have hidle : ¬ Receiving (.kernel : Point n) := by
    rintro ⟨call, hcall⟩
    cases hcall
  rw [hp] at hq ⊢
  cases hq
  exact h.move (by rwa [hp]) hidle rfl (by rw [hp]) (books_acknowledge s)
    (matched_acknowledge h.matched)

abbrev InTimeRun (calls : Calls n) :
    Config (Tid n) (Shared n) (Point n) Mutex Empty → Prop :=
  (program calls).ReachableBy (Meets (AckQueued calls) fun _ _ _ => True)

theorem inOrder_of_inTime (h : InTimeRun calls c) : InOrder calls c.shared (points c) := by
  apply conditional_invariant (P := fun s ps _ => InOrder calls s ps) tracks_code not_wait
    not_inside_start h inOrder_start
  · intro s ps sl sl' t q hinorder _ hgood halone hq _
    cases t with
    | none => exact hinorder.step_kernel hq
    | some i => exact hinorder.step_add hgood halone hq
  · exact fun s ps sl t cond hinorder _ _ => hinorder

/-! ## Runs in which an acknowledgement is late -/

/-- The message of the kernel is an acknowledgement. -/
theorem result_message (calls : Calls n) (ack : CallId n) :
    result (calls.message ack) ≠ .badMessage := by
  have hmessage : ¬ ((calls.message ack).len ≠ sizeofRes ∨
      (calls.message ack).nlmsgType ≠ nlmsgError) := by simp [Calls.message]
  rw [result, if_neg hmessage]
  split <;> simp

theorem not_matched_record {ack : CallId n} (hne : ack ≠ call) :
    ¬ Matched (s.record call (result (calls.message ack)) (some ack)) := by
  intro hmatched
  exact hne (hmatched ⟨call, _, some ack⟩ (List.mem_append_right _ (List.mem_singleton_self _)) ack
    rfl (result_message calls ack))

variable {j : Fin n} {ack : CallId n} {k k₁ : ℕ} {o : Mutex → Option (Tid n)}
  {threads : Tid n → Status (Point n) Mutex Empty}

/-- A call that finds the acknowledgement of another one returns with it. -/
theorem leads_of_lock_sends (hfree : o .lock = none) (hqueue : s.queue = [ack])
    (hne : ack ≠ (j, k)) (hcount : k < calls.count j) (hsends : calls.sendFails (j, k) = false) :
    (program calls).Leads (fun c => ¬ Matched c.shared)
      (turn o s threads (some j) (.add (j, k) .lock)) := by
  refine leads_lock (if_pos hcount) hfree ?_
  refine leads_run (if_neg (Bool.eq_false_iff.mp hsends)) ?_
  refine leads_run rfl ?_
  refine leads_unlock rfl (Function.update_self ..) ?_
  rw [hqueue, List.head?_cons]
  refine leads_run rfl ?_
  exact .here (not_matched_record hne)

/-- A call whose `sendto` fails leaves the socket alone. -/
theorem leads_of_lock_fails (hfree : o .lock = none) (hcount : k < calls.count j)
    (hfails : calls.sendFails (j, k) = true)
    (h : (program calls).Leads (fun c => ¬ Matched c.shared)
      (turn o (s.record (j, k) .sendFailed none) threads (some j) (.add (j, k + 1) .lock))) :
    (program calls).Leads (fun c => ¬ Matched c.shared)
      (turn o s threads (some j) (.add (j, k) .lock)) := by
  refine leads_lock (if_pos hcount) hfree ?_
  refine leads_run (if_pos hfails) ?_
  refine leads_unlock rfl (Function.update_self ..) ?_
  rw [free_again hfree]
  exact leads_run rfl h

/-- The thread gets to a call that is sent. -/
theorem leads_of_lock (hfree : o .lock = none) (hqueue : s.queue = [ack])
    (hack : ∀ k' ≥ k, ack ≠ (j, k')) (hle : k ≤ k₁) (hcount : k₁ < calls.count j)
    (hsends : calls.sendFails (j, k₁) = false) :
    (program calls).Leads (fun c => ¬ Matched c.shared)
      (turn o s threads (some j) (.add (j, k) .lock)) := by
  obtain ⟨d, rfl⟩ := Nat.exists_eq_add_of_le hle
  induction d generalizing k s with
  | zero => exact leads_of_lock_sends hfree hqueue (hack k le_rfl) hcount hsends
  | succ d ih =>
      by_cases hfails : calls.sendFails (j, k) = true
      · apply leads_of_lock_fails hfree (by omega) hfails
        have hnext : k + 1 + d = k + (d + 1) := by omega
        rw [← hnext] at hcount hsends
        have hrecorded : (s.record (j, k) .sendFailed none).queue = [ack] := hqueue
        exact ih hrecorded (fun k' hk' => hack k' (by omega)) (by omega) hcount hsends
      · exact leads_of_lock_sends hfree hqueue (hack k le_rfl) (by omega)
          (Bool.eq_false_iff.mpr hfails)

/-- A thread that does not hold the lock gets to a call that is sent. -/
theorem leads_of_outside (hj : c.threads (some j) = .running (.add (j, k) pc))
    (hout : ¬ inside (.add (j, k) pc) .lock) (hfree : c.owner .lock = none)
    (hqueue : c.shared.queue = [ack])
    (hack : ∀ k' ≥ (Point.add (j, k) pc).next, ack ≠ (j, k'))
    (hle : (Point.add (j, k) pc).next ≤ k₁) (hcount : k₁ < calls.count j)
    (hsends : calls.sendFails (j, k₁) = false) :
    (program calls).Leads (fun c => ¬ Matched c.shared) c := by
  rw [← turn_self hj]
  cases pc with
  | lock => exact leads_of_lock hfree hqueue hack hle hcount hsends
  | send | sendUnlock | recv | recvUnlock ack => exact absurd trivial hout
  | sendFailed => exact leads_run rfl (leads_of_lock hfree hqueue hack hle hcount hsends)
  | result ack =>
      cases ack with
      | none => exact leads_run rfl (leads_of_lock hfree hqueue hack hle hcount hsends)
      | some ack => exact leads_run rfl (leads_of_lock hfree hqueue hack hle hcount hsends)

/-- The kernel acknowledges the request of the call that has given up. -/
theorem leads_of_given_up {i : Fin n} {l : ℕ} (hkernel : c.threads none = .running .kernel)
    (hi : c.threads (some i) = .running (.add (i, l) (.recvUnlock none)))
    (hown : c.owner .lock = some (some i)) (hqueue : c.shared.queue = [])
    (hunanswered : c.shared.unanswered = [(i, l)])
    (hothers : ∀ j, j ≠ i → ∃ k pc, c.threads (some j) = .running (.add (j, k) pc) ∧
      ¬ inside (.add (j, k) pc) .lock)
    (hlater : ∃ j k, k < calls.count j ∧ (points c (some j)).next ≤ k ∧
      calls.sendFails (j, k) = false) :
    (program calls).Leads (fun c => ¬ Matched c.shared) c := by
  obtain ⟨j, k, hcount, hle, hsends⟩ := hlater
  rw [← turn_self hi]
  refine leads_unlock rfl hown ?_
  have hround : (turn (Function.update c.owner .lock none) c.shared c.threads (some i)
      (Point.add (i, l) (.result none))).threads none = .running .kernel := by
    simpa [turn] using hkernel
  refine leads_round hround rfl ?_
  have hfree : Function.update c.owner .lock none .lock = none := Function.update_self ..
  have hack : c.shared.acknowledge.queue = [(i, l)] := by
    simp [Shared.acknowledge, hunanswered, hqueue]
  by_cases hj : j = i
  · subst hj
    have hnext : l + 1 ≤ k := by simpa [points_of_running hi, Point.next] using hle
    refine leads_run rfl (leads_of_lock hfree hack (fun k' hk' => ?_) hnext hcount hsends)
    simp only [ne_eq, Prod.mk.injEq, true_and]
    omega
  · obtain ⟨k', pc, hpc, hout⟩ := hothers j hj
    have hpc' : (turn (Function.update c.owner .lock none) c.shared.acknowledge c.threads (some i)
        (.add (i, l) (.result none))).threads (some j) = .running (.add (j, k') pc) := by
      simpa [turn, hj] using hpc
    refine leads_of_outside hpc' hout hfree hack (fun k'' _ => ?_) ?_ hcount hsends
    · simpa using fun h => absurd h.symm hj
    · simpa [points_of_running hpc] using hle

/-- A call that gives up although its acknowledgement is still to come, and a later call is sent,
leads to a wrong one. -/
theorem leads_of_late {w : Option (Tid n)} (h : InTimeRun calls c)
    (hs : (program calls).step c (.run t w) = some c')
    (hlate : ¬ AckQueued calls c.shared (points c) t) :
    (program calls).Leads (fun c => ¬ Matched c.shared) c' := by
  have hinorder := inOrder_of_inTime h
  have howned := owned_of_reachable tracks_code not_inside_start h.reachable
  have hrunning : ∀ {t p}, points c t = p → c.threads t = .running p :=
    running_of_points not_wait h.reachable
  cases t with
  | none =>
      have hkernel : points c none = .kernel := hinorder.fits none
      simp [AckQueued, hkernel] at hlate
  | some i =>
      obtain ⟨k, pc, hp, -⟩ := hinorder.fits (some i)
      obtain rfl : pc = .recv := by
        by_contra hpc
        cases pc <;> simp [AckQueued, hp] at hlate hpc
      simp only [AckQueued, hp, not_or, not_not] at hlate
      obtain ⟨hempty, hmore⟩ := hlate
      have hi := hrunning hp
      simp only [program, Pthread.program, step, hi, code, udpSpliceAdd, exec, hempty,
        List.tail_nil, List.head?_nil, Option.some.injEq] at hs
      subst hs
      have hbooks : c.shared.queue ++ c.shared.unanswered = [(i, k)] := by
        rcases hinorder.books with hclean | ⟨hover, -⟩
        · exact hclean.receiving _ _ hp
        · exact absurd hover hmore
      have hown : c.owner .lock = some (some i) := howned.owner_of_inside hi trivial
      apply leads_of_given_up (i := i) (l := k)
      · simpa using hrunning (hinorder.fits none)
      · exact Function.update_self ..
      · exact hown
      · rfl
      · simpa [hempty] using hbooks
      · intro j hj
        obtain ⟨k', pc, hpc, -⟩ := hinorder.fits (some j)
        have hj' := hrunning hpc
        refine ⟨k', pc, by simpa [hj] using hj', fun hin => hj ?_⟩
        have howner := hown.symm.trans (howned.owner_of_inside hj' hin)
        exact (Option.some.inj (Option.some.inj howner)).symm
      · simp only [Over, not_forall, Bool.not_eq_true] at hmore
        obtain ⟨j, k', hcount, hle, hsends⟩ := hmore
        refine ⟨j, k', hcount, ?_, hsends⟩
        by_cases hj : j = i
        · subst hj
          rw [hp] at hle
          have hnext : (Point.add (j, k) (.recvUnlock none)).next ≤ k' := hle
          simpa [points, point] using hnext
        · simpa [points, hj] using hle

/-- For any number of threads and calls, whose `sendto` fails or not, and any answers: in a run in
which each acknowledgement is queued when its call looks for it, but for that of the last request,
every call gets its own; the first `recv` before that leads to a call that returns with the
acknowledgement of another one. -/
theorem matched_until_late (calls : Calls n) (c) (h : InTimeRun calls c) :
    Matched c.shared ∧ ∀ t w c', (program calls).step c (.run t w) = some c' →
      ¬ AckQueued calls c.shared (points c) t →
      (program calls).Leads (fun c => ¬ Matched c.shared) c' :=
  ⟨(inOrder_of_inTime h).matched, fun _ _ _ hs hlate => leads_of_late h hs hlate⟩

/-- Two threads make one call each, and the kernel refuses that of the second one. -/
def oneEach : Calls 2 := ⟨fun _ => 1, fun _ => false, fun call => if call.1.val = 1 then -17 else 0⟩

def inTime (i j : Fin 2) : Option (Config (Tid 2) (Shared 2) (Point 2) Mutex Empty) :=
  ((program oneEach).guarded (Meets (AckQueued oneEach) fun _ _ _ => True)).exec
    (program oneEach).init
    (List.replicate 2 (Action.run (some i) none) ++ [Action.run none none] ++
      List.replicate 3 (Action.run (some i) none) ++ List.replicate 2 (Action.run (some j) none) ++
      [Action.run none none] ++ List.replicate 3 (Action.run (some j) none))

theorem acknowledged_one_each : ∃ c, inTime 0 1 = some c ∧ Matched c.shared ∧
    c.shared.returned = [⟨(0, 0), .ok, some (0, 0)⟩, ⟨(1, 0), .failed 17, some (1, 0)⟩] := by
  have hrun : (inTime 0 1).isSome = true := by decide
  have hreach : InTimeRun oneEach ((inTime 0 1).get hrun) := .of_exec (Option.some_get hrun).symm
  exact ⟨(inTime 0 1).get hrun, (Option.some_get hrun).symm,
    (matched_until_late oneEach _ hreach).1, rfl⟩

/-- The first thread gives up before its request has been acknowledged. -/
def tooEarly (i j : Fin 2) : Option (Config (Tid 2) (Shared 2) (Point 2) Mutex Empty) :=
  (program oneEach).exec (program oneEach).init
    (List.replicate 5 (Action.run (some i) none) ++ [Action.run none none] ++
      List.replicate 5 (Action.run (some j) none))

/-- The second call returns 0, with the acknowledgement of the first request. -/
theorem acknowledged_for_another : ∃ c, (program oneEach).Reachable c ∧ ¬ Matched c.shared ∧
    c.shared.returned = [⟨(0, 0), .recvFailed, none⟩, ⟨(1, 0), .ok, some (0, 0)⟩] := by
  have hrun : (tooEarly 0 1).isSome = true := by decide
  have hreturned : ((tooEarly 0 1).get hrun).shared.returned =
      [⟨(0, 0), .recvFailed, none⟩, ⟨(1, 0), .ok, some (0, 0)⟩] := rfl
  refine ⟨(tooEarly 0 1).get hrun, System.Reachable.init.exec (Option.some_get hrun).symm, ?_,
    hreturned⟩
  intro hmatched
  have hack : ((0, 0) : CallId 2) = (1, 0) :=
    hmatched ⟨(1, 0), .ok, some (0, 0)⟩ (by simp [hreturned]) (0, 0) rfl (by decide)
  exact absurd hack (by decide)

end PthreadBenchmark.UdpSplice
