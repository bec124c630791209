import PthreadBenchmark.MulthreadServer.Model
import PthreadBenchmark.Shared.PthreadConditions

/-! # Messages that are relayed one by one

A read is copied into the buffer whether or not the buffer is empty, and what it covers of an
earlier read is lost. -/

namespace PthreadBenchmark.MulthreadServer

open Pthread CString

variable {clients : ℕ → ℤ} {reads rs : List Read} {r : Read} {s : Shared} {ps : Tid → Point}
  {p q : Point} {i : ℕ} {t : Tid} {c c' : Config Tid Shared Point Mutex Empty}

/-! ## What the server is for -/

/-- Each client has been written all the messages that have come, one by one, but for a last one
that is still in the buffer. -/
structure Relayed (clients : ℕ → ℤ) (reads : List Read)
    (c : Config Tid Shared Point Mutex Empty) : Prop where
  received : c.shared.received <+: reads.map Read.str
  written : ∀ i < maxClients, 0 < clients i →
    c.shared.received = c.shared.written i ∨
      c.shared.received = c.shared.written i ++ [text c.shared.msg]

def Point.Cleared (s : Shared) : Point → Prop
  | .connectCopy _ _ => strlen s.msg = 0
  | _ => True

instance (s : Shared) (p : Point) : Decidable (p.Cleared s) :=
  match p with
  | .connectCopy _ _ => inferInstanceAs (Decidable (strlen s.msg = 0))
  | .connect _ | .connectUnlock _ | .procLock | .procTest | .procWrite _ _ | .procUnlock
  | .routeLock | .routePrint | .routeUnlock => isTrue trivial

/-- A read may be copied only into a buffer that is empty. -/
def Cleared (s : Shared) (ps : Tid → Point) (t : Tid) : Prop := (ps t).Cleared s

instance (s : Shared) (ps : Tid → Point) (t : Tid) : Decidable (Cleared s ps t) :=
  inferInstanceAs (Decidable ((ps t).Cleared s))

/-! ## Points -/

def Point.tid : Point → Tid
  | .connect _ | .connectCopy _ _ | .connectUnlock _ => .connect
  | .procLock | .procTest | .procWrite _ _ | .procUnlock => .proc
  | .routeLock | .routePrint | .routeUnlock => .route

theorem tid_of_next (h : (code clients s p).next? = some q) : q.tid = p.tid := by
  cases p with
  | connect reads =>
      cases reads <;> cases h
      rfl
  | procTest =>
      simp only [code, Op.next?, Option.some.injEq] at h
      subst h
      split <;> rfl
  | procWrite i len =>
      simp only [code] at h
      split at h <;> cases h <;> rfl
  | _ =>
      cases h
      rfl

/-- The reads that are still to be copied at a point of `thread_connect`. -/
def Point.toCome : Point → List Read
  | .connect reads | .connectUnlock reads => reads
  | .connectCopy r reads => r :: reads
  | _ => []

theorem toCome_of_next (h : (code clients s p).next? = some q) :
    ((code clients s p).after s).received ++ q.toCome.map Read.str =
      s.received ++ p.toCome.map Read.str := by
  cases p with
  | connect reads =>
      cases reads <;> cases h
      rfl
  | connectCopy r reads =>
      cases h
      simp [code, Op.after, copyMsg, Point.toCome]
  | procTest =>
      simp only [code, Op.next?, Option.some.injEq] at h
      subst h
      split <;> rfl
  | procWrite i len =>
      simp only [code] at h ⊢
      by_cases hi : i < maxClients
      · rw [if_pos hi] at h ⊢
        cases h
        simp only [Op.after]
        split <;> rfl
      · rw [if_neg hi] at h ⊢
        cases h
        rfl
  | _ =>
      cases h
      rfl

/-! ## The mutex -/

def inside : Point → Mutex → Prop
  | .connectCopy _ _, _ | .connectUnlock _, _ | .procTest, _ | .procWrite _ _, _ | .procUnlock, _
  | .routePrint, _ | .routeUnlock, _ => True
  | _, _ => False

theorem tracks_code (s : Shared) (p : Point) : Tracks inside p (code clients s p) := by
  cases p with
  | connect reads => cases reads <;> simp [code, Tracks, inside]
  | procTest =>
      intro m
      split <;> exact Iff.rfl
  | procWrite i len =>
      simp only [code]
      split <;> exact fun m => Iff.rfl
  | _ => simp [code, Tracks, inside]

theorem not_inside_start (t : Tid) (m : Mutex) : ¬ inside (start reads t) m := by
  cases t <;> exact id

/-! ## The invariant of the runs whose copies go into an empty buffer -/

/-- What the client in the place `i` has still to be written, with `thread_proc` at `p`. -/
def unwritten (msg : List UInt8) (i : ℕ) : Point → List (List UInt8)
  | .procWrite j _ => if i < j then [] else [text msg]
  | _ => if text msg = [] then [] else [text msg]

/-- The loop of `thread_proc` writes all of the buffer. -/
def Point.WritesAll (msg : List UInt8) : Point → Prop
  | .procWrite _ len => text msg ≠ [] ∧ len = strlen msg
  | _ => True

structure Sound (clients : ℕ → ℤ) (s : Shared) (ps : Tid → Point) : Prop where
  tid : ∀ t, (ps t).tid = t
  padded : Padded msgSize s.msg
  writesAll : (ps .proc).WritesAll s.msg
  received : ∀ i < maxClients, 0 < clients i →
    s.received = s.written i ++ unwritten s.msg i (ps .proc)

theorem sound_start : Sound clients initial (start reads) where
  tid t := by cases t <;> rfl
  padded := padded_replicate (by decide)
  writesAll := trivial
  received _ _ _ := rfl

theorem Sound.tid_update (h : Sound clients s ps) (hq : q.tid = (ps t).tid) (t' : Tid) :
    (Function.update ps t q t').tid = t' := by
  revert t'
  apply (Function.forall_update_iff ps fun t p => p.tid = t).mpr
  exact ⟨hq.trans (h.tid t), fun t' _ => h.tid t'⟩

/-- A step of another thread than `thread_proc` that leaves the variables alone. -/
theorem Sound.move (h : Sound clients s ps) (hq : q.tid = (ps t).tid) (ht : t ≠ .proc) :
    Sound clients s (Function.update ps t q) := by
  have hproc : Function.update ps t q .proc = ps .proc := Function.update_of_ne ht.symm _ _
  exact ⟨h.tid_update hq, h.padded, hproc.symm ▸ h.writesAll, hproc.symm ▸ h.received⟩

/-- A step of `thread_proc`. -/
theorem Sound.move_proc (h : Sound clients s ps) {s' : Shared} (hq : q.tid = .proc)
    (hpadded : Padded msgSize s'.msg) (hwrites : q.WritesAll s'.msg)
    (hreceived : ∀ i < maxClients, 0 < clients i →
      s'.received = s'.written i ++ unwritten s'.msg i q) :
    Sound clients s' (Function.update ps .proc q) := by
  refine ⟨h.tid_update (hq.trans (h.tid .proc).symm), hpadded, ?_, ?_⟩
  · rwa [Function.update_self]
  · rwa [Function.update_self]

/-- While another thread holds the mutex, `thread_proc` is not in its loop. -/
theorem Sound.not_procWrite (halone : Alone inside (fun _ => False) ps t) (ht : t ≠ .proc)
    (hinside : inside (ps t) .mut) (i len : ℕ) : ps .proc ≠ .procWrite i len := fun hp =>
  halone .proc .mut ht.symm hinside (by rw [hp]; trivial)

theorem unwritten_of_not_procWrite {msg : List UInt8} (h : ∀ i len, p ≠ .procWrite i len) :
    unwritten msg i p = if text msg = [] then [] else [text msg] := by
  cases p with
  | procWrite j len => exact absurd rfl (h j len)
  | _ => rfl

theorem Sound.copyMsg (h : Sound clients s ps) (hp : ps .connect = .connectCopy r rs)
    (hclear : strlen s.msg = 0) (halone : Alone inside (fun _ => False) ps .connect) :
    Sound clients (copyMsg s r) (Function.update ps .connect (.connectUnlock rs)) := by
  have hproc : Function.update ps .connect (Point.connectUnlock rs) .proc = ps .proc :=
    Function.update_of_ne (by simp) _ _
  have hloop := Sound.not_procWrite halone (by simp) (by rw [hp]; trivial)
  have hempty := strlen_eq_zero_iff.mp hclear
  have htext : text (MulthreadServer.copyMsg s r).msg = r.str := by
    rw [MulthreadServer.copyMsg, h.padded.text_strncpy r.zero_not_mem, hempty]
    simp
  refine ⟨h.tid_update (by rw [hp]; rfl), h.padded.strncpy r.zero_not_mem ?_, ?_,
    fun i hi hconnected => ?_⟩
  · exact lt_of_le_of_lt r.le_size (by decide)
  · rw [hproc]
    cases hpoint : ps .proc with
    | procWrite i len => exact absurd hpoint (hloop i len)
    | _ => trivial
  · have hreceived := h.received i hi hconnected
    rw [unwritten_of_not_procWrite hloop, if_pos hempty, List.append_nil] at hreceived
    rw [hproc, unwritten_of_not_procWrite hloop, htext,
      if_neg (List.ne_nil_of_length_pos r.pos)]
    simp only [MulthreadServer.copyMsg, hreceived]

theorem Sound.step_connect (h : Sound clients s ps) (hclear : Cleared s ps .connect)
    (halone : Alone inside (fun _ => False) ps .connect)
    (hq : (code clients s (ps .connect)).next? = some q) :
    Sound clients ((code clients s (ps .connect)).after s) (Function.update ps .connect q) := by
  have htid := tid_of_next hq
  have hkind := h.tid .connect
  cases hp : ps .connect with
  | connect reads =>
      cases reads <;> exact h.move htid (by simp)
  | connectCopy r rs =>
      rw [Cleared, hp] at hclear
      rw [hp] at hq
      cases hq
      exact h.copyMsg hp hclear halone
  | connectUnlock reads => exact h.move htid (by simp)
  | _ =>
      rw [hp] at hkind
      cases hkind

theorem Sound.writeMsg (h : Sound clients s ps) {j len : ℕ} (hp : ps .proc = .procWrite j len) :
    Sound clients (if 0 < clients j then writeMsg s j len else s)
      (Function.update ps .proc (.procWrite (j + 1) len)) := by
  obtain ⟨hne, hlen⟩ : (Point.procWrite j len).WritesAll s.msg := hp ▸ h.writesAll
  have hmsg : (if 0 < clients j then MulthreadServer.writeMsg s j len else s).msg = s.msg := by
    split <;> rfl
  refine h.move_proc rfl (hmsg.symm ▸ h.padded) (hmsg.symm ▸ ⟨hne, hlen⟩) fun i hi hconnected => ?_
  have hreceived := h.received i hi hconnected
  rw [hp] at hreceived
  by_cases hij : i = j
  · subst hij
    simp only [unwritten, lt_irrefl, if_false] at hreceived
    simp [MulthreadServer.writeMsg, unwritten, if_pos hconnected, hlen, take_strlen, hreceived]
  · have hwritten : (if 0 < clients j then MulthreadServer.writeMsg s j len else s).written i =
        s.written i := by
      split
      · exact Function.update_of_ne hij _ _
      · rfl
    have hlt : i < j + 1 ↔ i < j := by omega
    have hsame : (if 0 < clients j then MulthreadServer.writeMsg s j len else s).received =
        s.received := by
      split <;> rfl
    simp only [hmsg, hwritten, hsame, unwritten, hlt]
    exact hreceived

theorem Sound.clearMsg (h : Sound clients s ps) {j len : ℕ} (hp : ps .proc = .procWrite j len)
    (hj : ¬ j < maxClients) :
    Sound clients (clearMsg s) (Function.update ps .proc .procUnlock) := by
  refine h.move_proc rfl (padded_replicate (by decide)) trivial fun i hi hconnected => ?_
  have hreceived := h.received i hi hconnected
  have hij : i < j := by omega
  rw [hp, unwritten, if_pos hij] at hreceived
  have hempty : text (List.replicate msgSize 0) = [] :=
    text_append_replicate List.not_mem_nil msgSize
  simpa only [MulthreadServer.clearMsg, unwritten, hempty, if_true] using hreceived

theorem Sound.step_proc (h : Sound clients s ps)
    (hq : (code clients s (ps .proc)).next? = some q) :
    Sound clients ((code clients s (ps .proc)).after s) (Function.update ps .proc q) := by
  have hkind := h.tid .proc
  have hreceived := h.received
  cases hp : ps .proc with
  | procLock | procUnlock =>
      rw [hp] at hq hreceived
      cases hq
      exact h.move_proc rfl h.padded trivial hreceived
  | procTest =>
      rw [hp] at hq hreceived
      simp only [code, Op.next?, Option.some.injEq] at hq
      subst hq
      change Sound clients s _
      split
      · next hpos =>
          have hne : text s.msg ≠ [] := fun hnil => by
            rw [strlen_eq_zero_iff.mpr hnil] at hpos
            exact lt_irrefl 0 hpos
          refine h.move_proc rfl h.padded ⟨hne, rfl⟩ fun i hi hconnected => ?_
          have hi := hreceived i hi hconnected
          simp only [unwritten, if_neg hne] at hi
          simpa only [unwritten, Nat.not_lt_zero, if_false] using hi
      · exact h.move_proc rfl h.padded trivial hreceived
  | procWrite j len =>
      rw [hp] at hq
      simp only [code] at hq ⊢
      by_cases hj : j < maxClients
      · rw [if_pos hj] at hq ⊢
        cases hq
        exact h.writeMsg hp
      · rw [if_neg hj] at hq ⊢
        cases hq
        exact h.clearMsg hp hj
  | _ =>
      rw [hp] at hkind
      cases hkind

theorem Sound.step_route (h : Sound clients s ps)
    (hq : (code clients s (ps .route)).next? = some q) :
    Sound clients ((code clients s (ps .route)).after s) (Function.update ps .route q) := by
  have htid := tid_of_next hq
  have hkind := h.tid .route
  cases hp : ps .route with
  | routeLock | routePrint | routeUnlock => exact h.move htid (by simp)
  | _ =>
      rw [hp] at hkind
      cases hkind

theorem sound_of_cleared
    (h : (program clients reads).ReachableBy (Meets Cleared fun _ _ _ => True) c) :
    Sound clients c.shared (points c) := by
  apply conditional_invariant (P := fun s ps _ => Sound clients s ps) tracks_code
    (fun s p cond m q hop => absurd hop (not_wait s p cond m q)) not_inside_start h sound_start
  · intro s ps _ _ t q hinv _ hclear halone hq _
    cases t with
    | connect => exact hinv.step_connect hclear halone hq
    | proc => exact hinv.step_proc hq
    | route => exact hinv.step_route hq
  · exact fun _ _ _ _ _ hinv _ _ => hinv

/-! ## The reads -/

/-- Each thread stays at its own points, and the reads are copied one after the other. -/
structure Kept (reads : List Read) (s : Shared) (ps : Tid → Point) : Prop where
  tid : ∀ t, (ps t).tid = t
  received : s.received ++ (ps .connect).toCome.map Read.str = reads.map Read.str

theorem toCome_eq_nil (hp : p.tid ≠ .connect) : p.toCome = [] := by
  cases p with
  | connect _ | connectCopy _ _ | connectUnlock _ => exact absurd rfl hp
  | _ => rfl

theorem kept_of_reachable (h : (program clients reads).Reachable c) :
    Kept reads c.shared (points c) := by
  refine points_invariant (P := Kept reads) h ⟨fun t => by cases t <;> rfl, rfl⟩ ?_
  rintro s ps t q ⟨htid, hreceived⟩ hq
  have hkind := tid_of_next hq
  have hcome := toCome_of_next hq
  refine ⟨?_, ?_⟩
  · apply (Function.forall_update_iff ps fun t p => p.tid = t).mpr
    exact ⟨hkind.trans (htid t), fun t' _ => htid t'⟩
  · by_cases ht : t = .connect
    · subst ht
      rw [Function.update_self, hcome, hreceived]
    · have hp : (ps t).tid ≠ .connect := by rwa [htid t]
      rw [toCome_eq_nil hp, toCome_eq_nil (hkind ▸ hp), List.map_nil, List.append_nil,
        List.append_nil] at hcome
      rw [Function.update_of_ne (Ne.symm ht), hcome, hreceived]

/-! ## Results -/

theorem relayed_of_cleared
    (h : (program clients reads).ReachableBy (Meets Cleared fun _ _ _ => True) c) :
    Relayed clients reads c := by
  refine ⟨⟨_, (kept_of_reachable h.reachable).received⟩, fun i hi hconnected => ?_⟩
  have hreceived := (sound_of_cleared h).received i hi hconnected
  obtain hnil | hmsg : unwritten c.shared.msg i (points c .proc) = [] ∨
      unwritten c.shared.msg i (points c .proc) = [text c.shared.msg] := by
    cases points c .proc <;> simp only [unwritten] <;> split <;> simp
  · exact .inl (by rw [hreceived, hnil, List.append_nil])
  · exact .inr (by rw [hreceived, hmsg])

/-- A read that is not copied into an empty buffer comes behind a message that has not been written
to any client. -/
theorem pending_of_not_cleared
    (h : (program clients reads).ReachableBy (Meets Cleared fun _ _ _ => True) c)
    (ht : c.threads t = .running p) (hlack : ¬ Cleared c.shared (points c) t) :
    ∃ r rs, points c t = .connectCopy r rs ∧ ∀ i < maxClients, 0 < clients i →
      c.shared.received = c.shared.written i ++ [text c.shared.msg] := by
  have hsound := sound_of_cleared h
  cases hp : points c t <;> simp only [Cleared, hp, Point.Cleared, not_true_eq_false] at hlack
  case connectCopy r rs =>
    have hproc : t ≠ .proc := by
      rintro rfl
      have htid := hsound.tid .proc
      rw [hp] at htid
      cases htid
    have halone : Alone inside (fun _ => False) (points c) t :=
      alone_of_running tracks_code (fun s p cond m q hop => not_wait s p cond m q hop)
        not_inside_start h.reachable ht
    have hloop := Sound.not_procWrite halone hproc (by rw [hp]; trivial)
    refine ⟨r, rs, rfl, fun i hi hconnected => ?_⟩
    have hreceived := hsound.received i hi hconnected
    rwa [unwritten_of_not_procWrite hloop,
      if_neg fun hnil => hlack (strlen_eq_zero_iff.mpr hnil)] at hreceived

theorem not_relayed_of_not_cleared {a : Action Tid} (hi : i < maxClients)
    (hconnected : 0 < clients i)
    (h : (program clients reads).ReachableBy (Meets Cleared fun _ _ _ => True) c)
    (hs : (program clients reads).step c a = some c')
    (hbad : ¬ Meets Cleared (fun _ _ _ => True) c a) : ¬ Relayed clients reads c' := by
  obtain ⟨t, p, q, ht, hlack, -, -, hshared⟩ := exists_of_not_meets hs hbad
  obtain ⟨r, rs, hp, hpending⟩ := pending_of_not_cleared h ht hlack
  intro hrelayed
  have hwritten := hrelayed.written i hi hconnected
  rw [hshared, hp] at hwritten
  simp only [code, Op.after, copyMsg, hpending i hi hconnected] at hwritten
  rcases hwritten with heq | heq
  · simpa using congrArg List.length heq
  · simpa using congrArg List.length heq

/-- A single read finds the buffer empty. -/
theorem cleared_of_one_read (hreads : reads.length ≤ 1) (hi : i < maxClients)
    (hconnected : 0 < clients i) (h : (program clients reads).Reachable c) :
    (program clients reads).ReachableBy (Meets Cleared fun _ _ _ => True) c := by
  refine reachableBy_of_good (fun c t p hc ht => ?_) h
  by_contra hlack
  obtain ⟨r, rs, hp, hpending⟩ := pending_of_not_cleared hc ht hlack
  obtain ⟨htid, hreceived⟩ := kept_of_reachable hc.reachable
  obtain rfl : t = .connect := by
    rw [← htid t, hp]
    rfl
  have hlength := congrArg List.length hreceived
  rw [hp, hpending i hi hconnected] at hlength
  simp only [Point.toCome, List.map_cons, List.length_append, List.length_cons,
    List.length_nil, List.length_map] at hlength
  omega

/-- The second read may come before the first one has been written. -/
theorem exists_not_relayed (hi : i < maxClients) (hconnected : 0 < clients i) (r₁ r₂ : Read)
    (rs : List Read) :
    ∃ c, (program clients (r₁ :: r₂ :: rs)).Reachable c ∧
      ¬ Relayed clients (r₁ :: r₂ :: rs) c := by
  obtain ⟨c, hexec, hreceived, hwritten⟩ : ∃ c, (program clients (r₁ :: r₂ :: rs)).exec
      (program clients (r₁ :: r₂ :: rs)).init (List.replicate 5 (.run .connect none)) = some c ∧
      c.shared.received = [r₁.str, r₂.str] ∧ c.shared.written i = [] := ⟨_, rfl, rfl, rfl⟩
  refine ⟨c, System.Reachable.init.exec hexec, fun hrelayed => ?_⟩
  have hor := hrelayed.written i hi hconnected
  rw [hreceived, hwritten] at hor
  simp at hor

theorem relayed_of_no_clients (hclients : ∀ i < maxClients, clients i ≤ 0)
    (h : (program clients reads).Reachable c) : Relayed clients reads c :=
  ⟨⟨_, (kept_of_reachable h).received⟩, fun i hi hconnected =>
    absurd (hclients i hi) (not_le.mpr hconnected)⟩

/-- For any table of clients, any reads and any interleaving: where each read is copied into an
empty buffer, each client is written the reads one by one; the first read that is copied into a
buffer that is not empty breaks this as soon as there is a client. So all runs are right if there is
no client or at most one read, and not otherwise. -/
theorem messages_relayed (clients : ℕ → ℤ) (reads : List Read) :
    (∀ c, (program clients reads).ReachableBy (Meets Cleared fun _ _ _ => True) c →
      Relayed clients reads c ∧
      ∀ a c', (program clients reads).step c a = some c' →
        ¬ Meets Cleared (fun _ _ _ => True) c a → (∃ i < maxClients, 0 < clients i) →
          ¬ Relayed clients reads c') ∧
    ((∀ c, (program clients reads).Reachable c → Relayed clients reads c) ↔
      (∀ i < maxClients, clients i ≤ 0) ∨ reads.length ≤ 1) := by
  refine ⟨fun c h => ⟨relayed_of_cleared h, ?_⟩, fun hall => ?_, fun hor c h => ?_⟩
  · rintro a c' hs hbad ⟨i, hi, hconnected⟩
    exact not_relayed_of_not_cleared hi hconnected h hs hbad
  · by_contra hnor
    simp only [not_or, not_forall, not_le] at hnor
    obtain ⟨⟨i, hi, hconnected⟩, hreads⟩ := hnor
    obtain ⟨r₁, r₂, rs, rfl⟩ : ∃ r₁ r₂ rs, reads = r₁ :: r₂ :: rs := by
      match reads, hreads with
      | r₁ :: r₂ :: rs, _ => exact ⟨r₁, r₂, rs, rfl⟩
    obtain ⟨c, hreach, hbad⟩ := exists_not_relayed hi hconnected r₁ r₂ rs
    exact hbad (hall c hreach)
  · by_cases hclients : ∀ i < maxClients, clients i ≤ 0
    · exact relayed_of_no_clients hclients h
    · have hreads := hor.resolve_left hclients
      simp only [not_forall, not_le] at hclients
      obtain ⟨i, hi, hconnected⟩ := hclients
      exact relayed_of_cleared (cleared_of_one_read hreads hi hconnected h)

/-- The reads `abc` and `x`. -/
def twoReads : List Read :=
  [⟨[97, 98, 99], by decide, by decide, by decide⟩, ⟨[120], by decide, by decide, by decide⟩]

/-- One client, in the first place of the table. -/
def oneClient (i : ℕ) : ℤ := if i = 0 then 5 else 0

/-- `thread_proc` has the buffer in its loop before the second read comes. -/
def relayedInTurn : Option (Config Tid Shared Point Mutex Empty) :=
  ((program oneClient twoReads).guarded (Meets Cleared fun _ _ _ => True)).exec
    (program oneClient twoReads).init
    (List.replicate 3 (.run .connect none) ++ List.replicate 3 (.run .proc none))

theorem messages_relayed_in_turn : ∃ c, relayedInTurn = some c ∧ Relayed oneClient twoReads c ∧
    c.shared.written 0 = [[97, 98, 99]] := by
  have hrun : relayedInTurn.isSome = true := by decide
  have hreach : (program oneClient twoReads).ReachableBy (Meets Cleared fun _ _ _ => True)
      (relayedInTurn.get hrun) := .of_exec (Option.some_get hrun).symm
  exact ⟨relayedInTurn.get hrun, (Option.some_get hrun).symm,
    ((messages_relayed oneClient twoReads).1 _ hreach).1, rfl⟩

/-- Both reads come before `thread_proc` takes the mutex. -/
def spliced : Option (Config Tid Shared Point Mutex Empty) :=
  (program oneClient twoReads).exec (program oneClient twoReads).init
    (List.replicate 6 (.run .connect none) ++ List.replicate 3 (.run .proc none))

/-- What the client is written is none of the two reads: `xbc`. -/
theorem messages_spliced : ∃ c, (program oneClient twoReads).Reachable c ∧
    ¬ Relayed oneClient twoReads c ∧ c.shared.written 0 = [[120, 98, 99]] := by
  have hrun : spliced.isSome = true := by decide
  have hreceived : (spliced.get hrun).shared.received = [[97, 98, 99], [120]] := rfl
  have hwritten : (spliced.get hrun).shared.written 0 = [[120, 98, 99]] := rfl
  refine ⟨spliced.get hrun, System.Reachable.init.exec (Option.some_get hrun).symm,
    fun h => ?_, hwritten⟩
  have hor := h.written 0 (by decide) (by decide)
  rw [hreceived, hwritten] at hor
  rcases hor with heq | heq
  · cases heq
  · simp at heq

end PthreadBenchmark.MulthreadServer
