import PthreadBenchmark.MulthreadServer.Clients.Model
import PthreadBenchmark.Shared.PthreadRules

/-! # The table holds the clients that are connected

A descriptor leaves the table before it is closed, so that the kernel can hand it out again without
there being two entries for it. -/

namespace PthreadBenchmark.MulthreadServer.Clients

open Pthread

variable {listenfd fd : ℤ} {events es : List Event} {s : Shared} {k : Connections}
  {p q : Connect} {n : ℕ} {ps : Tid → Point} {c : Config Tid Shared Point Mutex Empty}

/-! ## What is kept -/

/-- The descriptor that is no longer in the table and not yet closed. -/
def Connect.removed : Connect → Option ℤ
  | .clearUnlock fd | .close fd => some fd
  | _ => none

/-- The descriptor whose close has begun. -/
def Connect.closing : Connect → Option ℤ
  | .clear _ fd | .clearUnlock fd | .close fd => some fd
  | _ => none

/-- The descriptor has been accepted, and has no slot. -/
structure New (k : Connections) (fd : ℤ) : Prop where
  pos : 0 < fd
  isOpen : k.isOpen fd = true
  given : k.given fd = false

/-- What a point says. -/
def Fits (k : Connections) : Connect → Prop
  | .memset => ∀ n, k.clients n = 0
  | .saveLock fd _ | .saveUnlock false fd _ => New k fd
  | .save n fd _ => New k fd ∧ ∀ i < n, k.clients i ≠ 0
  | .saveUnlock true fd _ | .add fd _ | .clearLock fd => k.given fd = true
  | .clear j fd => k.given fd = true ∧ ∀ i < j, k.clients i ≠ fd
  | .next | .clearUnlock _ | .close _ | .copyLock _ | .copy _ | .copyUnlock | .exited => True

structure Kept (k : Connections) (p : Connect) : Prop where
  distinct : ∀ i < maxClients, ∀ j < maxClients, k.clients i = k.clients j → k.clients i ≠ 0 → i = j
  entries : ∀ fd, fd ≠ 0 →
    ((∃ i < maxClients, k.clients i = fd) ↔ k.given fd = true ∧ p.removed ≠ some fd)
  given : ∀ fd, k.given fd = true → 0 < fd ∧ k.isOpen fd = true
  registered : ∀ fd, k.registered fd = true → k.given fd = true
  refused : ∀ table ∈ k.refused, ∀ i < maxClients, table i ≠ 0
  fits : Fits k p

theorem Kept.not_given (h : Kept k p) (hclosed : k.isOpen fd = false) : k.given fd = false := by
  cases hgiven : k.given fd with
  | false => rfl
  | true => exact absurd (h.given fd hgiven).2 (by simp [hclosed])

/-- All entries are open. -/
theorem Kept.isOpen (h : Kept k p) (hn : n < maxClients) (hpos : 0 < k.clients n) :
    k.isOpen (k.clients n) = true := by
  have hgiven := ((h.entries _ hpos.ne').mp ⟨n, hn, rfl⟩).1
  exact (h.given _ hgiven).2

/-! ## Steps -/

/-- A step that leaves the connections alone. -/
theorem Kept.move (h : Kept k p) (hremoved : q.removed = p.removed) (hfits : Fits k q) :
    Kept k q where
  distinct := h.distinct
  entries := by
    rw [hremoved]
    exact h.entries
  given := h.given
  registered := h.registered
  refused := h.refused
  fits := hfits

theorem Kept.accept (h : Kept k .next) (hpos : 0 < fd) (hclosed : k.isOpen fd = false)
    (epollCtl : ℤ) : Kept (k.accept fd) (.saveLock fd epollCtl) where
  distinct := h.distinct
  entries := h.entries
  given fd' hgiven := by
    obtain ⟨hpos', hopen⟩ := h.given fd' hgiven
    refine ⟨hpos', ?_⟩
    by_cases heq : fd' = fd
    · subst heq
      exact Function.update_self ..
    · exact (Function.update_of_ne heq ..).trans hopen
  registered := h.registered
  refused := h.refused
  fits := ⟨hpos, Function.update_self .., h.not_given hclosed⟩

theorem New.not_mem (hnew : New k fd) (h : Kept k p) (hn : n < maxClients) : k.clients n ≠ fd := by
  intro heq
  have hgiven := ((h.entries fd hnew.pos.ne').mp ⟨n, hn, heq⟩).1
  rw [hnew.given] at hgiven
  cases hgiven

theorem Kept.save {epollCtl : ℤ} (h : Kept k (.save n fd epollCtl)) (hn : n < maxClients)
    (hfree : k.clients n = 0) : Kept (k.save n fd) (.saveUnlock true fd epollCtl) := by
  obtain ⟨hnew, -⟩ : New k fd ∧ ∀ i < n, k.clients i ≠ 0 := h.fits
  have hself : (k.save n fd).clients n = fd := Function.update_self ..
  have hother : ∀ i, i ≠ n → (k.save n fd).clients i = k.clients i :=
    fun i hi => Function.update_of_ne hi ..
  have hgiven : ∀ fd', (k.save n fd).given fd' = true ↔ fd' = fd ∨ k.given fd' = true := by
    intro fd'
    by_cases heq : fd' = fd <;> simp [Connections.save, heq]
  constructor
  · intro i hi j hj heq hne
    by_cases hin : i = n
    · by_cases hjn : j = n
      · rw [hin, hjn]
      · rw [hin, hself, hother j hjn] at heq
        exact absurd heq.symm (hnew.not_mem h hj)
    · by_cases hjn : j = n
      · rw [hjn, hself, hother i hin] at heq
        exact absurd heq (hnew.not_mem h hi)
      · rw [hother i hin, hother j hjn] at heq
        rw [hother i hin] at hne
        exact h.distinct i hi j hj heq hne
  · intro fd' hne
    have hentries := h.entries fd' hne
    simp only [Connect.removed, ne_eq, reduceCtorEq, not_false_eq_true, and_true] at hentries ⊢
    rw [hgiven, ← hentries]
    constructor
    · rintro ⟨i, hi, hentry⟩
      by_cases hin : i = n
      · rw [hin, hself] at hentry
        exact .inl hentry.symm
      · rw [hother i hin] at hentry
        exact .inr ⟨i, hi, hentry⟩
    · rintro (rfl | ⟨i, hi, hentry⟩)
      · exact ⟨n, hn, hself⟩
      · have hin : i ≠ n := by
          rintro rfl
          exact hne (hentry.symm.trans hfree)
        exact ⟨i, hi, (hother i hin).trans hentry⟩
  · intro fd' hgiven'
    rcases (hgiven fd').mp hgiven' with rfl | hold
    · exact ⟨hnew.pos, hnew.isOpen⟩
    · exact h.given fd' hold
  · exact fun fd' hreg => (hgiven fd').mpr (.inr (h.registered fd' hreg))
  · exact h.refused
  · exact (hgiven fd).mpr (.inl rfl)

/-- All slots have been looked at. -/
theorem Kept.refuse {epollCtl : ℤ} (h : Kept k (.save n fd epollCtl)) (hn : ¬ n < maxClients) :
    Kept k.refuse (.saveUnlock false fd epollCtl) where
  distinct := h.distinct
  entries := h.entries
  given := h.given
  registered := h.registered
  refused table htable i hi := by
    rcases List.mem_append.mp htable with htable | htable
    · exact h.refused table htable i hi
    · obtain rfl : table = k.clients := List.mem_singleton.mp htable
      have hfull : New k fd ∧ ∀ i < n, k.clients i ≠ 0 := h.fits
      exact hfull.2 i (by omega)
  fits := by
    have hnew : New k fd ∧ ∀ i < n, k.clients i ≠ 0 := h.fits
    exact ⟨hnew.1.pos, hnew.1.isOpen, hnew.1.given⟩

/-- The descriptor that is refused is in no slot. -/
theorem Kept.drop {epollCtl : ℤ} (h : Kept k (.saveUnlock false fd epollCtl)) :
    Kept k (.close fd) where
  distinct := h.distinct
  entries fd' hne := by
    have hnew : New k fd := h.fits
    rw [h.entries fd' hne]
    simp only [Connect.removed, ne_eq, reduceCtorEq, not_false_eq_true, and_true,
      Option.some.injEq]
    refine (and_iff_left_of_imp ?_).symm
    rintro hgiven rfl
    rw [hnew.given] at hgiven
    cases hgiven
  given := h.given
  registered := h.registered
  refused := h.refused
  fits := trivial

theorem Kept.add {epollCtl : ℤ} (h : Kept k (.add fd epollCtl)) : Kept (k.add fd) .next where
  distinct := h.distinct
  entries := h.entries
  given := h.given
  registered fd' hreg := by
    by_cases heq : fd' = fd
    · subst heq
      exact h.fits
    · exact h.registered fd' ((Function.update_of_ne heq ..).symm.trans hreg)
  refused := h.refused
  fits := trivial

theorem Kept.clear {j : ℕ} (h : Kept k (.clear j fd)) (hj : j < maxClients)
    (hentry : k.clients j = fd) : Kept (k.clear j) (.clearUnlock fd) := by
  obtain ⟨hgiven, -⟩ : k.given fd = true ∧ ∀ i < j, k.clients i ≠ fd := h.fits
  have hpos : 0 < fd := (h.given fd hgiven).1
  have hself : (k.clear j).clients j = 0 := Function.update_self ..
  have hother : ∀ i, i ≠ j → (k.clear j).clients i = k.clients i :=
    fun i hi => Function.update_of_ne hi ..
  constructor
  · intro i hi i' hi' heq hne
    have hij : i ≠ j := by
      rintro rfl
      exact hne hself
    have hij' : i' ≠ j := by
      rintro rfl
      exact hne (heq.trans hself)
    rw [hother i hij] at hne
    rw [hother i hij, hother i' hij'] at heq
    exact h.distinct i hi i' hi' heq hne
  · intro fd' hne
    have hentries := h.entries fd' hne
    simp only [Connect.removed, ne_eq, reduceCtorEq, not_false_eq_true, and_true,
      Option.some.injEq] at hentries ⊢
    have hsame : (k.clear j).given = k.given := rfl
    rw [hsame, ← hentries]
    constructor
    · rintro ⟨i, hi, hclient⟩
      have hij : i ≠ j := by
        rintro rfl
        exact hne (hclient.symm.trans hself)
      rw [hother i hij] at hclient
      refine ⟨⟨i, hi, hclient⟩, ?_⟩
      rintro rfl
      exact hij (h.distinct i hi j hj (hclient.trans hentry.symm) (hclient ▸ hne))
    · rintro ⟨⟨i, hi, hclient⟩, hfd⟩
      have hij : i ≠ j := by
        rintro rfl
        exact hfd (hentry.symm.trans hclient)
      exact ⟨i, hi, (hother i hij).trans hclient⟩
  · exact h.given
  · exact h.registered
  · exact h.refused
  · trivial

/-- The descriptor that hangs up is found. -/
theorem Kept.found {j : ℕ} (h : Kept k (.clear j fd)) : j < maxClients := by
  obtain ⟨hgiven, hbefore⟩ : k.given fd = true ∧ ∀ i < j, k.clients i ≠ fd := h.fits
  have hpos : 0 < fd := (h.given fd hgiven).1
  obtain ⟨i, hi, hclient⟩ := (h.entries fd hpos.ne').mpr ⟨hgiven, by simp [Connect.removed]⟩
  by_contra hj
  exact hbefore i (by omega) hclient

theorem Kept.close (h : Kept k (.close fd)) : Kept (k.close fd) .next := by
  have hother {f : ℤ → Bool} {fd' : ℤ} :
      Function.update f fd false fd' = true ↔ f fd' = true ∧ fd ≠ fd' := by
    by_cases heq : fd' = fd
    · simp [heq]
    · simp [Function.update_of_ne heq, Ne.symm heq]
  constructor
  · exact h.distinct
  · intro fd' hne
    have hentries := h.entries fd' hne
    simp only [Connect.removed, ne_eq, reduceCtorEq, not_false_eq_true, and_true,
      Option.some.injEq, Connections.close, hother] at hentries ⊢
    exact hentries
  · intro fd' hgiven
    obtain ⟨hgiven, hne⟩ := hother.mp hgiven
    obtain ⟨hpos, hopen⟩ := h.given fd' hgiven
    exact ⟨hpos, hother.mpr ⟨hopen, hne⟩⟩
  · intro fd' hreg
    obtain ⟨hreg, hne⟩ := hother.mp hreg
    exact hother.mpr ⟨h.registered fd' hreg, hne⟩
  · exact h.refused
  · trivial

theorem Kept.memset (h : Kept k .memset) : Kept { k with clients := fun _ => 0 } .next := by
  have hzero : k.clients = fun _ => 0 := funext h.fits
  rw [← hzero]
  exact h.move rfl trivial

/-- An event is taken up. -/
theorem Kept.event {q : Point} (h : Kept s.connections .next)
    (hq : (threadConnect listenfd s es .next).next? = some q) :
    ∃ p' es', q = .connect p' es' ∧
      Kept ((threadConnect listenfd s es .next).after s).connections p' := by
  cases es with
  | nil => cases hq
  | cons e es =>
      simp only [threadConnect] at hq ⊢
      by_cases hpermits : Permits listenfd s.connections e
      · rw [if_pos hpermits] at hq ⊢
        unfold Permits at hpermits
        by_cases hlisten : e.fd = listenfd
        · rw [if_pos hlisten] at hq hpermits ⊢
          by_cases hfailed : e.accepted = -1
          · rw [if_pos hfailed] at hq ⊢
            cases hq
            exact ⟨_, _, rfl, h⟩
          · rw [if_neg hfailed] at hq ⊢
            cases hq
            obtain ⟨hpos, hclosed⟩ := hpermits.resolve_left hfailed
            exact ⟨_, _, rfl, h.accept hpos hclosed e.epollCtl⟩
        · rw [if_neg hlisten] at hq hpermits ⊢
          cases hread : e.read with
          | none =>
              simp only [hread] at hq ⊢
              cases hq
              exact ⟨_, _, rfl, h.move rfl (h.registered _ hpermits)⟩
          | some d =>
              simp only [hread] at hq ⊢
              cases hq
              exact ⟨_, _, rfl, h.move rfl trivial⟩
      · rw [if_neg hpermits] at hq
        cases hq

/-- A step of `thread_connect`. -/
theorem Kept.step {q : Point} (h : Kept s.connections p)
    (hq : (threadConnect listenfd s es p).next? = some q) :
    ∃ p' es', q = .connect p' es' ∧
      Kept ((threadConnect listenfd s es p).after s).connections p' := by
  cases p with
  | next => exact h.event hq
  | memset =>
      cases hq
      exact ⟨_, _, rfl, h.memset⟩
  | saveLock fd epollCtl =>
      cases hq
      have hnew : New s.connections fd := h.fits
      exact ⟨_, _, rfl, h.move rfl ⟨hnew, fun i hi => absurd hi (Nat.not_lt_zero i)⟩⟩
  | save n fd epollCtl =>
      obtain ⟨hnew, hbefore⟩ : New s.connections fd ∧ ∀ i < n, s.connections.clients i ≠ 0 :=
        h.fits
      simp only [threadConnect] at hq ⊢
      by_cases hn : n < maxClients
      · rw [if_pos hn] at hq ⊢
        by_cases hfree : s.connections.clients n = 0
        · rw [if_pos hfree] at hq ⊢
          cases hq
          exact ⟨_, _, rfl, h.save hn hfree⟩
        · rw [if_neg hfree] at hq ⊢
          cases hq
          have hnone : ∀ i < n + 1, s.connections.clients i ≠ 0 :=
            Nat.forall_lt_succ_right.mpr ⟨hbefore, hfree⟩
          exact ⟨_, _, rfl, h.move rfl ⟨hnew, hnone⟩⟩
      · rw [if_neg hn] at hq ⊢
        cases hq
        exact ⟨_, _, rfl, h.refuse hn⟩
  | saveUnlock saved fd epollCtl =>
      cases hq
      cases saved with
      | true => exact ⟨_, _, rfl, h.move rfl h.fits⟩
      | false => exact ⟨_, _, rfl, h.drop⟩
  | add fd epollCtl =>
      simp only [threadConnect] at hq ⊢
      by_cases hfailed : epollCtl = -1
      · rw [if_pos hfailed] at hq ⊢
        cases hq
        exact ⟨_, _, rfl, h.move rfl trivial⟩
      · rw [if_neg hfailed] at hq ⊢
        cases hq
        exact ⟨_, _, rfl, h.add⟩
  | clearLock fd =>
      cases hq
      exact ⟨_, _, rfl, h.move rfl ⟨h.fits, fun i hi => absurd hi (Nat.not_lt_zero i)⟩⟩
  | clear j fd =>
      obtain ⟨hgiven, hbefore⟩ : s.connections.given fd = true ∧
        ∀ i < j, s.connections.clients i ≠ fd := h.fits
      simp only [threadConnect, if_pos h.found] at hq ⊢
      by_cases hentry : s.connections.clients j = fd
      · rw [if_pos hentry] at hq ⊢
        cases hq
        exact ⟨_, _, rfl, h.clear h.found hentry⟩
      · rw [if_neg hentry] at hq ⊢
        cases hq
        have hnone : ∀ i < j + 1, s.connections.clients i ≠ fd :=
          Nat.forall_lt_succ_right.mpr ⟨hbefore, hentry⟩
        exact ⟨_, _, rfl, h.move rfl ⟨hgiven, hnone⟩⟩
  | clearUnlock fd =>
      cases hq
      exact ⟨_, _, rfl, h.move rfl trivial⟩
  | close fd =>
      cases hq
      exact ⟨_, _, rfl, h.close⟩
  | copyLock d | copy d | copyUnlock =>
      cases hq
      exact ⟨_, _, rfl, h.move rfl trivial⟩
  | exited => cases hq

/-! ## Runs -/

def Point.tid : Point → Tid
  | .connect _ _ => .connect
  | .procLock | .procTest | .procWrite _ _ | .procUnlock => .proc
  | .routeLock | .routePrint | .routeUnlock => .route

/-- What a point tells about the connections. -/
def Tells (k : Connections) : Point → Prop
  | .connect p _ => Kept k p
  | _ => True

/-- The points are those of their threads, what that of `thread_connect` tells is kept, and all
that has been written went to open descriptors. -/
structure Good (s : Shared) (ps : Tid → Point) : Prop where
  tid : ∀ t, (ps t).tid = t
  kept : ∀ t, Tells s.connections (ps t)
  writes : ∀ w ∈ s.writes, w.2 = true

theorem Good.connect (h : Good s ps) :
    ∃ p es, ps .connect = .connect p es ∧ Kept s.connections p := by
  have htid := h.tid .connect
  have hkept := h.kept .connect
  cases hp : ps .connect with
  | connect p es =>
      rw [hp] at hkept
      exact ⟨p, es, rfl, hkept⟩
  | _ =>
      rw [hp] at htid
      cases htid

/-- The other two threads leave the connections alone, and write to open descriptors. -/
theorem step_of_not_connect {p q : Point} (hp : p.tid ≠ .connect)
    (hopen : ∀ i < maxClients, 0 < s.connections.clients i →
      s.connections.isOpen (s.connections.clients i) = true)
    (hwrites : ∀ w ∈ s.writes, w.2 = true) (hq : (code listenfd s p).next? = some q) :
    q.tid = p.tid ∧ ((code listenfd s p).after s).connections = s.connections ∧
      ∀ w ∈ ((code listenfd s p).after s).writes, w.2 = true := by
  cases p with
  | connect place es => exact absurd rfl hp
  | procTest =>
      cases hq
      refine ⟨?_, rfl, hwrites⟩
      split <;> rfl
  | procWrite i len =>
      simp only [code] at hq ⊢
      by_cases hi : i < maxClients
      · rw [if_pos hi] at hq ⊢
        cases hq
        by_cases hpos : 0 < s.connections.clients i
        · rw [if_pos hpos]
          refine ⟨rfl, rfl, fun w hw => ?_⟩
          rcases List.mem_append.mp hw with hw | hw
          · exact hwrites w hw
          · rw [List.mem_singleton.mp hw]
            exact hopen i hi hpos
        · rw [if_neg hpos]
          exact ⟨rfl, rfl, hwrites⟩
      · rw [if_neg hi] at hq ⊢
        cases hq
        exact ⟨rfl, rfl, hwrites⟩
  | procLock | procUnlock | routeLock | routePrint | routeUnlock =>
      cases hq
      exact ⟨rfl, rfl, hwrites⟩

theorem good_start (listenfd : ℤ) (events : List Event) :
    Good (initial listenfd) (start events) where
  tid t := by cases t <;> rfl
  kept t := by
    cases t with
    | connect =>
        refine ⟨fun i _ j _ _ hne => absurd rfl hne, fun fd hne => ⟨?_, ?_⟩, fun fd hgiven => ?_,
          fun fd hreg => hreg, fun table htable => absurd htable List.not_mem_nil, fun _ => rfl⟩
        · rintro ⟨i, -, hclient⟩
          exact absurd hclient.symm hne
        · rintro ⟨hgiven, -⟩
          cases hgiven
        · cases hgiven
    | proc | route => trivial
  writes w hw := absurd hw List.not_mem_nil

theorem writes_threadConnect (p : Connect) :
    ((threadConnect listenfd s es p).after s).writes = s.writes := by
  cases p with
  | next =>
      cases es with
      | nil => rfl
      | cons e es =>
          simp only [threadConnect]
          split
          · split
            · split <;> rfl
            · split <;> rfl
          · rfl
  | save n fd epollCtl =>
      simp only [threadConnect]
      split
      · split <;> rfl
      · rfl
  | clear j fd =>
      simp only [threadConnect]
      split
      · split <;> rfl
      · rfl
  | add fd epollCtl =>
      simp only [threadConnect]
      split <;> rfl
  | _ => rfl

theorem Tells.of_ne {p : Point} (k : Connections) (hp : p.tid ≠ .connect) : Tells k p := by
  cases p with
  | connect place es => exact absurd rfl hp
  | _ => trivial

theorem Good.next {t : Tid} {q : Point} (h : Good s ps)
    (hq : (code listenfd s (ps t)).next? = some q) :
    Good ((code listenfd s (ps t)).after s) (Function.update ps t q) := by
  obtain ⟨p, es, hp, hkept⟩ := h.connect
  by_cases ht : t = .connect
  · subst ht
    rw [hp] at hq ⊢
    obtain ⟨p', es', rfl, hkept'⟩ := hkept.step hq
    refine ⟨?_, ?_, ?_⟩
    · apply (Function.forall_update_iff ps fun t p => p.tid = t).mpr
      exact ⟨rfl, fun t _ => h.tid t⟩
    · apply (Function.forall_update_iff ps fun _ p => Tells _ p).mpr
      refine ⟨hkept', fun t ht => Tells.of_ne _ ?_⟩
      rwa [h.tid t]
    · rw [code, writes_threadConnect]
      exact h.writes
  · have hother : (ps t).tid ≠ .connect := by rwa [h.tid t]
    obtain ⟨htid, hsame, hwrites⟩ := step_of_not_connect hother
      (fun i hi hpos => hkept.isOpen hi hpos) h.writes hq
    refine ⟨?_, ?_, hwrites⟩
    · apply (Function.forall_update_iff ps fun t p => p.tid = t).mpr
      exact ⟨htid.trans (h.tid t), fun t _ => h.tid t⟩
    · rw [hsame]
      apply (Function.forall_update_iff ps fun _ p => Tells s.connections p).mpr
      exact ⟨Tells.of_ne _ (htid ▸ hother), fun t _ => h.kept t⟩

theorem good_of_reachable (h : (program listenfd events).Reachable c) :
    Good c.shared (points c) :=
  points_invariant h (good_start listenfd events) fun _ _ _ _ hgood hq => hgood.next hq

/-! ## The mutex -/

def inside : Point → Mutex → Prop
  | .connect (.save _ _ _) _, _ | .connect (.saveUnlock _ _ _) _, _ | .connect (.clear _ _) _, _
  | .connect (.clearUnlock _) _, _ | .connect (.copy _) _, _ | .connect .copyUnlock _, _
  | .procTest, _ | .procWrite _ _, _ | .procUnlock, _ | .routePrint, _ | .routeUnlock, _ => True
  | _, _ => False

theorem tracks_code (s : Shared) (p : Point) : Tracks inside p (code listenfd s p) := by
  cases p with
  | connect place es =>
      cases place with
      | next =>
          cases es with
          | nil => trivial
          | cons e es =>
              simp only [code, threadConnect]
              split
              · split
                · split <;> exact fun _ => Iff.rfl
                · split <;> exact fun _ => Iff.rfl
              · trivial
      | save n fd epollCtl =>
          simp only [code, threadConnect]
          split
          · split <;> exact fun _ => Iff.rfl
          · exact fun _ => Iff.rfl
      | clear j fd =>
          simp only [code, threadConnect]
          split
          · split <;> exact fun _ => Iff.rfl
          · exact fun _ => Iff.rfl
      | add fd epollCtl =>
          simp only [code, threadConnect]
          split <;> exact fun _ => Iff.rfl
      | saveUnlock saved fd epollCtl => cases saved <;> simp [code, threadConnect, Tracks, inside]
      | memset | close | copy => exact fun _ => Iff.rfl
      | exited => trivial
      | saveLock | clearLock | clearUnlock | copyLock | copyUnlock =>
          simp [code, threadConnect, Tracks, inside]
  | procTest =>
      intro m
      split <;> exact Iff.rfl
  | procWrite i len =>
      simp only [code]
      split <;> exact fun _ => Iff.rfl
  | _ => simp [code, Tracks, inside]

theorem not_inside_start (t : Tid) (m : Mutex) : ¬ inside (start events t) m := by
  cases t <;> exact id

/-- While the mutex is free no entry is being cleared. -/
theorem removed_eq_closing (h : ¬ inside (.connect p es) .mut) : p.removed = p.closing := by
  cases p with
  | clear j fd => exact absurd trivial h
  | _ => rfl

/-! ## Result -/

/-- `thread_connect` has begun to close the descriptor. -/
def CloseBegun (c : Config Tid Shared Point Mutex Empty) (fd : ℤ) : Prop :=
  ∃ p es, points c .connect = .connect p es ∧ p.closing = some fd

/-- For any events of the listening socket and of sockets that are registered, where `accept`
returns positive descriptors that are not open, and any interleaving: while the mutex is free the
entries are distinct, and are the descriptors that have been given a slot and whose close has not
begun; a connection is refused only with a full table; and all writes go to open descriptors. -/
theorem clients_kept (listenfd : ℤ) (events : List Event)
    (c : Config Tid Shared Point Mutex Empty) (h : (program listenfd events).Reachable c) :
    (c.owner .mut = none →
      (∀ i < maxClients, ∀ j < maxClients, c.shared.connections.clients i ≠ 0 →
        c.shared.connections.clients i = c.shared.connections.clients j → i = j) ∧
      ∀ fd, fd ≠ 0 → ((∃ i < maxClients, c.shared.connections.clients i = fd) ↔
        c.shared.connections.given fd = true ∧ ¬ CloseBegun c fd)) ∧
      (∀ table ∈ c.shared.connections.refused, ∀ i < maxClients, table i ≠ 0) ∧
      ∀ w ∈ c.shared.writes, w.2 = true := by
  have hgood := good_of_reachable h
  obtain ⟨p, es, hp, hkept⟩ := hgood.connect
  refine ⟨fun hfree => ⟨?_, fun fd hne => ?_⟩, hkept.refused, hgood.writes⟩
  · exact fun i hi j hj hne heq => hkept.distinct i hi j hj heq hne
  · have hout : ¬ inside (.connect p es) .mut := by
      have howned := owned_of_reachable tracks_code not_inside_start h
      have hrunning := running_of_points not_wait h hp
      have hnot := howned.not_holds_of_free hfree Tid.connect
      rw [hrunning] at hnot
      exact hnot
    have hbegun : CloseBegun c fd ↔ p.removed = some fd := by
      rw [removed_eq_closing hout]
      constructor
      · rintro ⟨p', es', hp', hclosing⟩
        rw [hp] at hp'
        cases hp'
        exact hclosing
      · exact fun hclosing => ⟨p, es, hp, hclosing⟩
    rw [hkept.entries fd hne, hbegun]

/-- The server has taken in one client. -/
def oneClient : Option (Config Tid Shared Point Mutex Empty) :=
  (program 3 [⟨3, 5, 0, none⟩]).exec (program 3 [⟨3, 5, 0, none⟩]).init
    (List.replicate 6 (Action.run .connect none))

theorem clients_kept_one : ∃ c, oneClient = some c ∧
    c.shared.connections.given 5 = true ∧ ¬ CloseBegun c 5 := by
  have hrun : oneClient.any (fun c => (c.owner .mut).isNone &&
      decide (c.shared.connections.clients 0 = 5)) = true := by decide
  obtain ⟨c, hexec, hclient⟩ := (Option.any_eq_true _ _).mp hrun
  rw [Bool.and_eq_true, Option.isNone_iff_eq_none, decide_eq_true_iff] at hclient
  have hkept := clients_kept 3 [⟨3, 5, 0, none⟩] c (System.Reachable.init.exec hexec)
  exact ⟨c, hexec, ((hkept.1 hclient.1).2 5 (by decide)).mp ⟨0, by decide, hclient.2⟩⟩

end PthreadBenchmark.MulthreadServer.Clients
