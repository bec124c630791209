import PthreadBenchmark.Shared.PthreadUnlocked
import PthreadBenchmark.Shared.PthreadRest

/-! # Threads that sell tickets (`PThread-synchronization.c`)

The threads sell tickets under one mutex until there are none left. One of the two files of this
name has lost the calls that lock and unlock. -/

namespace PthreadBenchmark.Tickets

inductive Mutex where
  | mutex
  deriving DecidableEq, Repr

/-- `tickets--` is a load and a store, and is done before the ticket is printed. -/
inductive Point where
  | lock
  | test
  | load
  | store (ticket : ℤ)
  | print (ticket : ℤ)
  | unlockSold
  | unlockEmpty
  | exited
  deriving DecidableEq, Repr

/-- The seller stands for the text that the thread prints with its tickets. -/
structure Thread (sellers : ℕ) where
  seller : Fin sellers
  point : Point
  deriving DecidableEq, Repr

/-- `printed` are the tickets in the order in which they are printed, with their sellers. -/
structure Shared (sellers : ℕ) where
  tickets : ℤ
  printed : List (Fin sellers × ℤ)
  deriving DecidableEq, Repr

/-- `mythread1` and `mythread2`. -/
def mythread {ι : Type} {sellers : ℕ} (s : Shared sellers) :
    Thread sellers → Op ι (Shared sellers) (Thread sellers) Mutex Empty
  | ⟨i, .lock⟩ => .lock .mutex ⟨i, .test⟩
  | ⟨i, .test⟩ => .run s ⟨i, if 0 < s.tickets then .load else .unlockEmpty⟩
  | ⟨i, .load⟩ => .run s ⟨i, .store s.tickets⟩
  | ⟨i, .store ticket⟩ => .run { s with tickets := ticket - 1 } ⟨i, .print ticket⟩
  | ⟨i, .print ticket⟩ =>
    .run { s with printed := s.printed ++ [(i, ticket)] } ⟨i, .unlockSold⟩
  | ⟨i, .unlockSold⟩ => .unlock .mutex ⟨i, .lock⟩
  | ⟨i, .unlockEmpty⟩ => .unlock .mutex ⟨i, .exited⟩
  | ⟨_, .exited⟩ => .halt

def program (sellers : ℕ) (tickets : ℤ) :
    System (Config (Fin sellers) (Shared sellers) (Thread sellers) Mutex Empty)
      (Action (Fin sellers)) :=
  Pthread.program mythread ⟨tickets, []⟩ fun i => ⟨i, .lock⟩

/-- The file without the calls that lock and unlock. -/
def unlockedProgram (sellers : ℕ) (tickets : ℤ) :
    System (Config (Fin sellers) (Shared sellers) (Thread sellers) Empty Empty)
      (Action (Fin sellers)) :=
  Pthread.program (Pthread.unlocked mythread) ⟨tickets, []⟩ fun i => ⟨i, .lock⟩

/-- `main`, with two threads and 20 tickets. -/
def main : System (Config (Fin 2) (Shared 2) (Thread 2) Mutex Empty) (Action (Fin 2)) :=
  program 2 20

/-- All threads have left their loops. -/
def AllExited {sellers : ℕ} {μ : Type}
    (c : Config (Fin sellers) (Shared sellers) (Thread sellers) μ Empty) : Prop :=
  ∀ i, c.threads i = .running ⟨i, .exited⟩

/-! ## Every ticket is sold once -/

open Pthread

variable {sellers tickets : ℕ} {s s' : Shared sellers} {ps : Fin sellers → Thread sellers}
  {i : Fin sellers} {t q : Thread sellers}
  {c : Config (Fin sellers) (Shared sellers) (Thread sellers) Mutex Empty}

/-- `n` tickets from `k` down. -/
def countdown (k : ℤ) : ℕ → List ℤ
  | 0 => []
  | n + 1 => k :: countdown (k - 1) n

theorem length_countdown (k : ℤ) (n : ℕ) : (countdown k n).length = n := by
  induction n generalizing k with
  | zero => rfl
  | succ n ih => rw [countdown, List.length_cons, ih]

theorem countdown_getElem? {k : ℤ} {n j : ℕ} (h : j < n) :
    (countdown k n)[j]? = some (k - j) := by
  induction n generalizing k j with
  | zero => omega
  | succ n ih =>
      cases j with
      | zero => simp [countdown]
      | succ j =>
          rw [countdown, List.getElem?_cons_succ, ih (by omega)]
          simp only [Option.some.injEq]
          omega

/-! ## The lock -/

def inside (t : Thread sellers) (_ : Mutex) : Prop :=
  match t.point with
  | .lock | .exited => False
  | .test | .load | .store _ | .print _ | .unlockSold | .unlockEmpty => True

theorem tracks (s : Shared sellers) (t : Thread sellers) :
    Tracks inside t (mythread (ι := Fin sellers) s t) := by
  obtain ⟨i, point⟩ := t
  cases point with
  | lock | unlockSold | unlockEmpty => exact fun m => by cases m; simp [inside]
  | test =>
      simp only [mythread]
      split <;> exact fun _ => Iff.rfl
  | load | store ticket | print ticket => exact fun _ => Iff.rfl
  | exited => trivial

/-! ## The tickets that are sold -/

def Printing (t : Thread sellers) : Prop :=
  match t.point with
  | .print _ => True
  | _ => False

/-- What the threads know of the tickets. -/
def Fits (tickets : ℕ) (s : Shared sellers) (t : Thread sellers) : Prop :=
  match t.point with
  | .load => 0 < s.tickets
  | .store ticket => ticket = s.tickets ∧ 0 < ticket
  | .print ticket =>
    ticket = s.tickets + 1 ∧ ticket + s.printed.length = tickets ∧ 0 < ticket
  | .unlockEmpty | .exited => s.tickets ≤ 0
  | .lock | .test | .unlockSold => True

structure Sold (tickets : ℕ) (s : Shared sellers) (ps : Fin sellers → Thread sellers) :
    Prop where
  seller : ∀ i, (ps i).seller = i
  fits : ∀ i, Fits tickets s (ps i)
  nonneg : 0 ≤ s.tickets
  total : (∀ i, ¬ Printing (ps i)) → s.tickets + s.printed.length = tickets
  printed : s.printed.map Prod.snd = (countdown tickets tickets).take s.printed.length

theorem Fits.of_not_inside (h : Fits tickets s t) (hout : ¬ inside t .mutex)
    (hle : s'.tickets ≤ s.tickets) : Fits tickets s' t := by
  obtain ⟨i, point⟩ := t
  cases point with
  | lock => trivial
  | exited => exact hle.trans h
  | _ => exact absurd trivial hout

/-- The thread that moves is the only one inside of the mutex. -/
theorem Sold.fits_update (h : Sold tickets s ps)
    (hout : ∀ j, j ≠ i → ¬ inside (ps j) .mutex) (hle : s'.tickets ≤ s.tickets)
    (hfits : Fits tickets s' q) (j : Fin sellers) :
    Fits tickets s' (Function.update ps i q j) := by
  apply (Function.forall_update_iff ps fun _ t => Fits tickets s' t).mpr
  exact ⟨hfits, fun j hj => (h.fits j).of_not_inside (hout j hj) hle⟩

theorem Sold.seller_update (h : Sold tickets s ps) (hq : q.seller = i) (j : Fin sellers) :
    (Function.update ps i q j).seller = j := by
  apply (Function.forall_update_iff ps fun j t => t.seller = j).mpr
  exact ⟨hq, fun j _ => h.seller j⟩

theorem not_printing_of_not_inside (h : ¬ inside t .mutex) : ¬ Printing t := by
  obtain ⟨i, point⟩ := t
  cases point with
  | print ticket => exact absurd trivial h
  | _ => exact id

/-- A step that sells nothing. -/
theorem Sold.move (h : Sold tickets s ps) (hq : q.seller = i) (hprinting : ¬ Printing (ps i))
    (hfits : Fits tickets s q) : Sold tickets s (Function.update ps i q) where
  seller := h.seller_update hq
  fits := by
    apply (Function.forall_update_iff ps fun _ t => Fits tickets s t).mpr
    exact ⟨hfits, fun j _ => h.fits j⟩
  nonneg := h.nonneg
  total hnone := by
    refine h.total fun j => ?_
    by_cases hj : j = i
    · rwa [hj]
    · have hother := hnone j
      rwa [Function.update_of_ne hj] at hother
  printed := h.printed

theorem Sold.store {ticket : ℤ} (h : Sold tickets s ps) (hp : ps i = ⟨i, .store ticket⟩)
    (hout : ∀ j, j ≠ i → ¬ inside (ps j) .mutex) :
    Sold tickets { s with tickets := ticket - 1 } (Function.update ps i ⟨i, .print ticket⟩) := by
  have hfits := h.fits i
  rw [hp] at hfits
  obtain ⟨rfl, hpos⟩ := hfits
  have htotal : s.tickets + s.printed.length = tickets := by
    refine h.total fun j => ?_
    by_cases hj : j = i
    · subst hj
      rw [hp]
      exact id
    · exact not_printing_of_not_inside (hout j hj)
  constructor
  · exact h.seller_update rfl
  · refine h.fits_update hout (Int.sub_le_self _ Int.one_nonneg) ⟨?_, htotal, hpos⟩
    exact (Int.sub_add_cancel ..).symm
  · exact Int.sub_nonneg_of_le hpos
  · intro hnone
    refine absurd ?_ (hnone i)
    rw [Function.update_self]
    trivial
  · exact h.printed

theorem Sold.print {ticket : ℤ} (h : Sold tickets s ps) (hp : ps i = ⟨i, .print ticket⟩)
    (hout : ∀ j, j ≠ i → ¬ inside (ps j) .mutex) :
    Sold tickets { s with printed := s.printed ++ [(i, ticket)] }
      (Function.update ps i ⟨i, .unlockSold⟩) := by
  have hfits := h.fits i
  rw [hp] at hfits
  obtain ⟨hticket, htotal, hpos⟩ := hfits
  have hlength : s.printed.length < tickets := by omega
  constructor
  · exact h.seller_update rfl
  · exact h.fits_update hout le_rfl trivial
  · exact h.nonneg
  · intro _
    simp only [List.length_append, List.length_singleton]
    omega
  · have hnext : (tickets : ℤ) - s.printed.length = ticket := by omega
    rw [List.map_append, h.printed, List.length_append, List.length_singleton,
      List.take_add_one, countdown_getElem? hlength, hnext]
    rfl

theorem Sold.step (h : Sold tickets s ps)
    (hunique : ∀ j m, inside (ps i) m → inside (ps j) m → j = i)
    (hq : (mythread (ι := Fin sellers) s (ps i)).next? = some q) :
    Sold tickets ((mythread (ι := Fin sellers) s (ps i)).after s) (Function.update ps i q) := by
  have hfits := h.fits i
  have hseller := h.seller i
  have hout : inside (ps i) .mutex → ∀ j, j ≠ i → ¬ inside (ps j) .mutex :=
    fun hin j hj hinj => hj (hunique j .mutex hin hinj)
  obtain ⟨seller, point, hp⟩ : ∃ seller point, ps i = ⟨seller, point⟩ := ⟨_, _, rfl⟩
  rw [hp] at hseller
  obtain rfl : seller = i := hseller
  rw [hp] at hq hfits hout ⊢
  cases point with
  | lock | unlockSold =>
      cases hq
      exact h.move rfl (by rw [hp]; exact id) trivial
  | test =>
      cases hq
      by_cases hpos : 0 < s.tickets
      · rw [if_pos hpos]
        exact h.move rfl (by rw [hp]; exact id) hpos
      · rw [if_neg hpos]
        exact h.move rfl (by rw [hp]; exact id) (not_lt.mp hpos)
  | load =>
      cases hq
      exact h.move rfl (by rw [hp]; exact id) ⟨rfl, hfits⟩
  | store ticket =>
      cases hq
      exact h.store hp (hout trivial)
  | print ticket =>
      cases hq
      exact h.print hp (hout trivial)
  | unlockEmpty =>
      cases hq
      exact h.move rfl (by rw [hp]; exact id) hfits
  | exited => cases hq

theorem sold_of_reachable (h : (program sellers tickets).Reachable c) :
    Sold tickets c.shared (points c) := by
  refine exclusive_invariant tracks not_wait (fun _ _ => id) h ?_
    fun _ _ _ _ hsold hunique hq => hsold.step hunique hq
  exact ⟨fun _ => rfl, fun _ => trivial, Int.natCast_nonneg _, fun _ => Int.add_zero _, rfl⟩

/-! ## Runs to every order of sellers -/

section Runs

variable {G : Config (Fin sellers) (Shared sellers) (Thread sellers) Mutex Empty → Prop}
  {l : Finset (Fin sellers)}

/-- The mutex is free, the threads of `l` have left their loops and the others are at the lock. -/
def between (s : Shared sellers) (l : Finset (Fin sellers)) :
    Config (Fin sellers) (Shared sellers) (Thread sellers) Mutex Empty :=
  placed (fun _ => none) s fun i => ⟨i, if i ∈ l then .exited else .lock⟩

theorem turn_between (s s' : Shared sellers) (hi : i ∉ l) :
    turn (fun _ => none) s' (between s l).threads i ⟨i, .lock⟩ = between s' l := by
  have hself : (between s' l).threads i = .running ⟨i, .lock⟩ := by
    simp only [between, placed, if_neg hi]
  exact turn_self hself

theorem turn_between_exited :
    turn (fun _ => none) s (between s l).threads i ⟨i, .exited⟩ = between s (insert i l) := by
  rw [between, turn_placed, between]
  congr 1
  funext j
  by_cases hj : j = i
  · subst hj
    simp
  · simp [hj]

theorem leads_sale (i : Fin sellers) (hpos : 0 < s.tickets)
    (h : (program sellers tickets).Leads G
      (between ⟨s.tickets - 1, s.printed ++ [(i, s.tickets)]⟩ ∅)) :
    (program sellers tickets).Leads G (between s ∅) := by
  have htest : mythread (ι := Fin sellers) s ⟨i, .test⟩ = .run s ⟨i, .load⟩ := by
    rw [mythread, if_pos hpos]
  rw [← turn_between s s (Finset.notMem_empty i)]
  refine leads_lock rfl rfl (leads_run htest (leads_run rfl (leads_run rfl (leads_run rfl
    (leads_unlock rfl (Function.update_self ..) ?_)))))
  rwa [free_again rfl, turn_between _ _ (Finset.notMem_empty i)]

theorem leads_exit (hi : i ∉ l) (hempty : s.tickets ≤ 0)
    (h : (program sellers tickets).Leads G (between s (insert i l))) :
    (program sellers tickets).Leads G (between s l) := by
  have htest : mythread (ι := Fin sellers) s ⟨i, .test⟩ = .run s ⟨i, .unlockEmpty⟩ := by
    rw [mythread, if_neg (not_lt.mpr hempty)]
  rw [← turn_between s s hi]
  refine leads_lock rfl rfl (leads_run htest (leads_unlock rfl (Function.update_self ..) ?_))
  rwa [free_again rfl, turn_between_exited]

theorem leads_exits (hempty : s.tickets ≤ 0)
    (h : (program sellers tickets).Leads G (between s l)) :
    (program sellers tickets).Leads G (between s ∅) := by
  induction l using Finset.induction_on with
  | empty => exact h
  | insert i l hi ih => exact ih (leads_exit hi hempty h)

/-- The rest of the tickets is sold by any sellers. -/
theorem leads_sales {n : ℕ} {printed rest : List (Fin sellers × ℤ)}
    (hrest : rest.map Prod.snd = countdown n n) :
    (program sellers tickets).Leads (fun c => AllExited c ∧ c.shared.printed = printed ++ rest)
      (between ⟨n, printed⟩ ∅) := by
  induction n generalizing printed rest with
  | zero =>
      obtain rfl : rest = [] := List.map_eq_nil_iff.mp hrest
      refine leads_exits (l := Finset.univ) le_rfl (.here ⟨fun i => ?_, ?_⟩)
      · simp only [between, placed, Finset.mem_univ, if_true]
      · exact (List.append_nil printed).symm
  | succ n ih =>
      obtain ⟨⟨i, ticket⟩, rest', rfl, rfl, hrest'⟩ := List.map_eq_cons_iff.mp hrest
      refine leads_sale i (Int.natCast_pos.mpr n.succ_pos) ?_
      have hsub : ((n + 1 : ℕ) : ℤ) - 1 = n := by omega
      rw [hsub] at hrest'
      simp only [hsub]
      refine (ih hrest').imp ?_
      rintro c ⟨hexited, hprinted⟩
      exact ⟨hexited, by simpa using hprinted⟩

end Runs

/-! ## Results -/

/-- At the end each ticket has been sold once, in descending order. Any ticket may have been sold by
any of the sellers. -/
theorem printed_iff (hsellers : 0 < sellers) (tickets : ℕ) (printed : List (Fin sellers × ℤ)) :
    (∃ c, (program sellers tickets).Reachable c ∧ AllExited c ∧ c.shared.printed = printed) ↔
      printed.map Prod.snd = countdown tickets tickets := by
  constructor
  · rintro ⟨c, hc, hexited, rfl⟩
    have hsold := sold_of_reachable hc
    have hpoint : ∀ i, points c i = ⟨i, .exited⟩ := fun i => points_of_running (hexited i)
    have hempty := hsold.fits ⟨0, hsellers⟩
    rw [hpoint] at hempty
    have hnonneg := hsold.nonneg
    have htotal := hsold.total fun i => by
      rw [hpoint]
      exact id
    have hlength : c.shared.printed.length = tickets := by
      have hzero : c.shared.tickets = 0 := le_antisymm hempty hnonneg
      omega
    rw [hsold.printed, hlength]
    exact List.take_of_length_le (length_countdown tickets tickets).le
  · intro hprinted
    have hleads : (program sellers tickets).Leads _ (between ⟨tickets, []⟩ ∅) :=
      leads_sales hprinted
    exact hleads.reachable .init

/-- All 20 tickets may be sold by the first of the two sellers. -/
theorem printed_iff_main : ∃ c, main.Reachable c ∧ AllExited c ∧
    c.shared.printed = (countdown 20 20).map fun ticket => (0, ticket) :=
  (printed_iff (by decide) 20 _).mpr (by decide)

end PthreadBenchmark.Tickets
