import PthreadBenchmark.FindMin.Model
import PthreadBenchmark.Shared.Blocks
import PthreadBenchmark.Shared.PthreadJoins

/-! # What the threads know while they search

Outside of the mutex the shared minimum only falls. A thread that has compared its minimum with
it keeps it below its block. -/

namespace PthreadBenchmark.FindMin

open Pthread

variable {n : ℕ} {list : List ℤ} {s : Shared} {ps : Tid n → Point n} {q : Point n} {w : Fin n}
  {i m v : ℤ}

/-! ## Threads -/

abbrev blockSize (list : List ℤ) (n : ℕ) : ℤ := (list.length / n : ℕ)

/-- What `main` has set before it creates the threads. -/
structure Ready (list : List ℤ) (n : ℕ) (s : Shared) : Prop where
  size : s.partialListSize = blockSize list n
  dvd : n ∣ list.length
  mem : s.minimumValue ∈ list

/-- The minimum of the block of a thread, or what is below. -/
def BlockLeast (list : List ℤ) (w : Fin n) (m : ℤ) : Prop :=
  Bounds (· ≤ ·) list (w * blockSize list n) ((w + 1) * blockSize list n) m

def WorkerPc.Fine (list : List ℤ) (s : Shared) (w : Fin n) : WorkerPc → Prop
  | .start | .first => True
  | .loop counter myMin =>
    (w * blockSize list n ≤ counter ∧ counter ≤ (w + 1) * blockSize list n) ∧ myMin ∈ list ∧
      Bounds (· ≤ ·) list (w * blockSize list n) counter myMin
  | .test myMin => myMin ∈ list ∧ BlockLeast list w myMin
  | .store myMin => (myMin ∈ list ∧ BlockLeast list w myMin) ∧ myMin < s.minimumValue
  | .unlock | .exited => BlockLeast list w s.minimumValue

def WorkerFine (list : List ℤ) (s : Shared) (w : Fin n) : Point n → Prop
  | .worker w' pc => w' = w ∧ (pc = .start ∨ 0 < s.created) ∧ pc.Fine list s w
  | _ => False

def MainFine (list : List ℤ) (n : ℕ) (s : Shared) : Point n → Prop
  | .main .check => s.created = 0
  | .main .size => s.created = 0 ∧ n ∣ list.length
  | .main .firstElement =>
    s.created = 0 ∧ n ∣ list.length ∧ s.partialListSize = blockSize list n
  | .main (.create _) | .main (.join _) | .main .returned => Ready list n s
  | .main .aborted | .fault => True
  | .worker .. => False

structure Reducing (list : List ℤ) (s : Shared) (ps : Tid n → Point n) : Prop where
  main : MainFine list n s (ps none)
  started : 0 < s.created → Ready list n s
  workers : ∀ w, WorkerFine list s w (ps (some w))

/-- The threads inside of the mutex. -/
def Inside : Point n → Mutex → Prop
  | .worker _ (.test _), _ | .worker _ (.store _), _ | .worker _ .unlock, _ => True
  | _, _ => False

theorem Ready.elements (h : Ready list n s) (hblock : InBlock (blockSize list n) w i) :
    ∃ v, element? list i = some v := by
  obtain ⟨h0, hi⟩ := (exists_inBlock_iff (Int.natCast_nonneg _)).mp ⟨w, hblock⟩
  apply exists_element? h0
  have hmul : n * (list.length / n) = list.length := Nat.mul_div_cancel' h.dvd
  rw [← hmul]
  exact_mod_cast hi

theorem Ready.firstIndex (h : Ready list n s) (w : Fin n) :
    FindMin.firstIndex s w = w * blockSize list n := by
  rw [FindMin.firstIndex, h.size, myId, add_sub_cancel_right]

theorem Ready.blockSize_pos (h : Ready list n s) (w : Fin n) : 0 < blockSize list n := by
  have hn : 0 < n := w.pos
  have hlength : 0 < list.length := List.length_pos_of_mem h.mem
  have hdiv : 0 < list.length / n := Nat.div_pos (Nat.le_of_dvd hlength h.dvd) hn
  exact_mod_cast hdiv

/-! ## Steps -/

/-- `main` goes on at a point of its own. -/
theorem Reducing.exists_main (h : Reducing list s ps)
    (hq : (code list s (ps none)).next? = some q) : ∃ pc, ps none = .main pc := by
  have hmain := h.main
  cases hp : ps none with
  | main pc => exact ⟨pc, rfl⟩
  | worker w pc =>
      rw [hp] at hmain
      exact hmain.elim
  | fault =>
      rw [hp] at hq
      cases hq

theorem Reducing.exists_worker (h : Reducing list s ps) (w : Fin n) :
    ∃ pc, ps (some w) = .worker w pc := by
  have hworker := h.workers w
  cases hp : ps (some w) with
  | worker w' pc =>
      rw [hp] at hworker
      obtain ⟨rfl, -⟩ := hworker
      exact ⟨pc, rfl⟩
  | main | fault =>
      rw [hp] at hworker
      exact hworker.elim

theorem Reducing.work (h : Reducing list s ps) (hcreated : 0 < s.created) {pc : WorkerPc}
    (hfine : pc.Fine list s w) :
    Reducing list s (Function.update ps (some w) (.worker w pc)) where
  main := h.main
  started := h.started
  workers w' := by
    by_cases hw : w' = w
    · subst hw
      rw [Function.update_self]
      exact ⟨rfl, .inr hcreated, hfine⟩
    · rw [Function.update_of_ne (fun heq => hw (Option.some.inj heq))]
      exact h.workers w'

/-- What other threads know of the minimum stays true when it becomes less. -/
theorem WorkerFine.lower {p : Point n} (h : WorkerFine list s w p) (hle : m ≤ s.minimumValue)
    (hout : ¬ Inside p .minimumValueLock) :
    WorkerFine list { s with minimumValue := m } w p := by
  cases p with
  | main pc => exact h
  | fault => exact h
  | worker w' pc =>
      obtain ⟨hw, hstarted, hfine⟩ := h
      refine ⟨hw, hstarted, ?_⟩
      cases pc with
      | start | first | loop => exact hfine
      | test | store | unlock => exact absurd trivial hout
      | exited => exact Bounds.trans hfine hle

theorem MainFine.lower {p : Point n} (h : MainFine list n s p) (hm : m ∈ list) :
    MainFine list n { s with minimumValue := m } p := by
  cases p with
  | worker w pc => exact h
  | fault => exact h
  | main pc =>
      cases pc with
      | check | size | firstElement | aborted => exact h
      | create | join | returned => exact ⟨h.size, h.dvd, hm⟩

theorem Reducing.store (h : Reducing list s ps) (hp : ps (some w) = .worker w (.store m))
    (hunique : ∀ t, Inside (ps t) .minimumValueLock → t = some w) :
    Reducing list { s with minimumValue := m }
      (Function.update ps (some w) (.worker w .unlock)) := by
  obtain ⟨-, hstarted, ⟨hm, hleast⟩, hlt⟩ : _ ∧ (_ ∨ _) ∧ (m ∈ list ∧ _) ∧ _ := hp ▸ h.workers w
  refine ⟨h.main.lower hm, fun hcreated => ?_, fun w' => ?_⟩
  · have hready := h.started hcreated
    exact ⟨hready.size, hready.dvd, hm⟩
  · by_cases hw : some w' = some w
    · cases hw
      rw [Function.update_self]
      exact ⟨rfl, .inr (hstarted.resolve_left (by simp)), hleast⟩
    · rw [Function.update_of_ne hw]
      exact (h.workers w').lower hlt.le fun hin => hw (hunique _ hin)

theorem Reducing.stepWorker (hrange : ∀ v ∈ list, InIntRange v) (h : Reducing list s ps)
    {pc : WorkerPc} (hp : ps (some w) = .worker w pc)
    (hunique : ∀ t, Inside (.worker w pc) .minimumValueLock → Inside (ps t) .minimumValueLock →
      t = some w)
    (hq : (findMin list s w pc : Step n).next? = some q) :
    Reducing list ((findMin list s w pc : Step n).after s) (Function.update ps (some w) q) := by
  obtain ⟨-, hstarted, hfine⟩ : _ ∧ _ ∧ pc.Fine list s w := hp ▸ h.workers w
  cases pc with
  | start =>
      simp only [findMin] at hq ⊢
      rcases Op.await_cases hq with ⟨hcreated, rfl, hafter⟩ | ⟨rfl, hafter⟩
      · rw [hafter]
        exact h.work (by omega) trivial
      · rw [hafter, ← hp, Function.update_eq_self]
        exact h
  | first =>
      have hcreated : 0 < s.created := hstarted.resolve_left (by simp)
      have hready := h.started hcreated
      have hpos := hready.blockSize_pos w
      have hlast := add_one_mul (w : ℤ) (blockSize list n)
      obtain ⟨v, hv⟩ := hready.elements (i := w * blockSize list n) ⟨le_rfl, by omega⟩
      have hmem := mem_of_element? hv
      rw [← hready.firstIndex] at hv
      simp only [findMin, hv] at hq ⊢
      cases hq
      rw [hready.firstIndex, toInt_of_inIntRange (hrange v hmem)]
      exact h.work hcreated ⟨⟨le_rfl, by omega⟩, hmem, bounds_empty le_rfl⟩
  | loop counter myMin =>
      have hcreated : 0 < s.created := hstarted.resolve_left (by simp)
      have hready := h.started hcreated
      obtain ⟨⟨hlo, hhi⟩, hmem, hleast⟩ := hfine
      have hbound : myId w * s.partialListSize = (w + 1) * blockSize list n := by
        rw [hready.size, myId]
      by_cases hloop : counter ≤ myId w * s.partialListSize - 1
      · obtain ⟨v, hv⟩ := hready.elements (i := counter) ⟨hlo, by omega⟩
        have hmem' := mem_of_element? hv
        simp only [findMin, if_pos hloop, hv] at hq ⊢
        cases hq
        rw [toInt_of_inIntRange (hrange v hmem')]
        split
        · next hlt =>
            exact h.work hcreated
              ⟨⟨by omega, by omega⟩, hmem', hleast.next hlt.le hv le_rfl⟩
        · next hge =>
            exact h.work hcreated
              ⟨⟨by omega, by omega⟩, hmem, hleast.next le_rfl hv (not_lt.mp hge)⟩
      · simp only [findMin, if_neg hloop] at hq ⊢
        cases hq
        have hend : counter = (w + 1) * blockSize list n := by omega
        rw [hend] at hleast
        exact h.work hcreated ⟨hmem, hleast⟩
  | test myMin =>
      cases hq
      have hcreated : 0 < s.created := hstarted.resolve_left (by simp)
      split
      · next hlt => exact h.work hcreated ⟨hfine, hlt⟩
      · next hge => exact h.work hcreated (hfine.2.trans (not_lt.mp hge))
  | store myMin =>
      cases hq
      exact h.store hp fun t => hunique t trivial
  | unlock =>
      cases hq
      exact h.work (hstarted.resolve_left (by simp)) hfine
  | exited => cases hq

/-- A step of `main` before it has created a thread. -/
theorem Reducing.early {s' : Shared} (h : Reducing list s ps) (hzero : s.created = 0)
    (hcreated : s'.created = 0) (hmain : MainFine list n s' q) :
    Reducing list s' (Function.update ps none q) where
  main := by rwa [Function.update_self]
  started hpos := by omega
  workers w := by
    rw [Function.update_of_ne (by simp)]
    have hworker := h.workers w
    obtain ⟨pc, hp⟩ := h.exists_worker w
    rw [hp] at hworker ⊢
    obtain ⟨-, hstarted, -⟩ := hworker
    obtain rfl : pc = .start := hstarted.resolve_right (by omega)
    exact ⟨rfl, .inl rfl, trivial⟩

/-- A step of `main` behind all that it sets. -/
theorem Reducing.late (h : Reducing list s ps) {created : ℕ}
    (hcreated : 0 < s.created → 0 < created)
    (hready : Ready list n s) (hmain : MainFine list n { s with created := created } q) :
    Reducing list { s with created := created } (Function.update ps none q) where
  main := by rwa [Function.update_self]
  started _ := ⟨hready.size, hready.dvd, hready.mem⟩
  workers w := by
    rw [Function.update_of_ne (by simp)]
    have hworker := h.workers w
    obtain ⟨pc, hp⟩ := h.exists_worker w
    rw [hp] at hworker ⊢
    obtain ⟨hw, hstarted, hfine⟩ := hworker
    refine ⟨hw, hstarted.imp_right hcreated, ?_⟩
    cases pc <;> exact hfine

theorem Reducing.stepMain (hrange : ∀ v ∈ list, InIntRange v) (h : Reducing list s ps)
    {pc : MainPc} (hp : ps none = .main pc)
    (hq : (FindMin.main list s pc : Step n).next? = some q) :
    Reducing list ((FindMin.main list s pc : Step n).after s) (Function.update ps none q) := by
  have hfine : MainFine list n s (.main pc) := hp ▸ h.main
  cases pc with
  | check =>
      cases hq
      refine h.early hfine hfine ?_
      split
      · trivial
      · split
        · trivial
        · split
          · trivial
          · next hmod => exact ⟨hfine, Nat.dvd_of_mod_eq_zero (not_not.mp hmod)⟩
  | size =>
      cases hq
      exact h.early hfine.1 hfine.1 ⟨hfine.1, hfine.2, rfl⟩
  | firstElement =>
      obtain ⟨hzero, hdvd, hsize⟩ := hfine
      cases hv : element? list 0 with
      | none =>
          simp only [FindMin.main, hv] at hq ⊢
          cases hq
          exact h.early hzero hzero trivial
      | some v =>
          simp only [FindMin.main, hv] at hq ⊢
          cases hq
          have hmem := mem_of_element? hv
          rw [toInt_of_inIntRange (hrange v hmem)]
          exact h.early hzero hzero ⟨hsize, hdvd, hmem⟩
  | create counter =>
      have hready : Ready list n s := hfine
      simp only [FindMin.main] at hq ⊢
      split at hq
      · next hlt =>
          cases hq
          rw [if_pos hlt]
          exact h.late (fun _ => Nat.succ_pos counter) hready ⟨hready.size, hready.dvd, hready.mem⟩
      · next hge =>
          cases hq
          rw [if_neg hge]
          exact h.late id hready hready
  | join counter =>
      have hready : Ready list n s := hfine
      simp only [FindMin.main] at hq ⊢
      split at hq
      · next hlt =>
          cases hq
          rw [dif_pos hlt]
          exact h.late id hready hready
      · next hge =>
          cases hq
          rw [dif_neg hge]
          exact h.late id hready hready
  | returned | aborted => cases hq

/-! ## Runs -/

variable {c : Config (Tid n) Shared (Point n) Mutex Empty}

theorem tracks (s : Shared) (p : Point n) : Tracks Inside p (code list s p) := by
  cases p with
  | fault => trivial
  | main pc =>
      cases pc with
      | check =>
          simp only [code, main]
          split_ifs <;> exact fun _ => Iff.rfl
      | size => exact fun _ => Iff.rfl
      | firstElement | create | join =>
          simp only [code, main]
          split <;> exact fun _ => Iff.rfl
      | returned | aborted => trivial
  | worker w pc =>
      cases pc with
      | start =>
          simp only [code, findMin, Op.await]
          split_ifs <;> exact fun _ => Iff.rfl
      | first | test =>
          simp only [code, findMin]
          split <;> exact fun _ => Iff.rfl
      | loop counter myMin =>
          simp only [code, findMin]
          split
          · split <;> exact fun _ => Iff.rfl
          · intro m
            cases m
            exact iff_of_true trivial (.inl rfl)
      | store => exact fun _ => Iff.rfl
      | unlock =>
          intro m
          cases m
          exact iff_of_false id fun hne => hne.1 rfl
      | exited => trivial

theorem Reducing.step (hrange : ∀ v ∈ list, InIntRange v) (h : Reducing list s ps) {t : Tid n}
    (hunique : ∀ t', Inside (ps t) .minimumValueLock → Inside (ps t') .minimumValueLock → t' = t)
    (hq : (code list s (ps t)).next? = some q) :
    Reducing list ((code list s (ps t)).after s) (Function.update ps t q) := by
  cases t with
  | none =>
      obtain ⟨pc, hp⟩ := h.exists_main hq
      rw [hp] at hq ⊢
      exact h.stepMain hrange hp hq
  | some w =>
      obtain ⟨pc, hp⟩ := h.exists_worker w
      rw [hp] at hq hunique ⊢
      exact h.stepWorker hrange hp hunique hq

theorem reducing_of_reachable (hrange : ∀ v ∈ list, InIntRange v)
    (h : (program n list).Reachable c) : Reducing list c.shared (points c) := by
  refine exclusive_invariant tracks not_wait ?_ h ?_ ?_
  · intro t m
    cases t <;> exact id
  · exact ⟨rfl, fun hpos => absurd hpos (by decide), fun w => ⟨rfl, .inl rfl, trivial⟩⟩
  · intro s ps t q hreducing hunique hq
    exact hreducing.step hrange (fun t' => hunique t' _) hq

/-- The number of threads that `main` has joined. -/
def joined : Point n → ℕ
  | .main (.join counter) => counter
  | .main .returned => n
  | _ => 0

def Halts : Point n → Prop
  | .worker _ .exited | .main .returned | .main .aborted | .fault => True
  | _ => False

theorem isHalt_iff (s : Shared) (p : Point n) : isHalt (code list s p) = true ↔ Halts p := by
  cases p with
  | fault => exact iff_of_true rfl trivial
  | main pc =>
      cases pc with
      | check | size => exact iff_of_false Bool.false_ne_true id
      | firstElement | create | join =>
          refine iff_of_false ?_ id
          simp only [code, main]
          split <;> exact Bool.false_ne_true
      | returned | aborted => exact iff_of_true rfl trivial
  | worker w pc =>
      cases pc with
      | loop counter myMin =>
          refine iff_of_false ?_ id
          simp only [code, findMin]
          split <;> exact Bool.false_ne_true
      | start | first | test | store | unlock => exact iff_of_false Bool.false_ne_true id
      | exited => exact iff_of_true rfl trivial

theorem joined_of_next {pc : MainPc} (hq : (main list s pc : Step n).next? = some q) :
    joined q ≤ joined (.main pc : Point n) ∨
      ∃ (hlt : joined (.main pc : Point n) < n) (r : Point n),
        main list s pc = .join (some ⟨joined (.main pc : Point n), hlt⟩) r ∧
          joined q = joined (.main pc : Point n) + 1 := by
  cases pc with
  | check =>
      cases hq
      refine .inl ?_
      split_ifs <;> exact le_rfl
  | size =>
      cases hq
      exact .inl le_rfl
  | firstElement =>
      simp only [main] at hq
      split at hq <;> cases hq <;> exact .inl le_rfl
  | create counter =>
      simp only [main] at hq
      split at hq <;> cases hq <;> exact .inl le_rfl
  | join counter =>
      by_cases hlt : counter < n
      · simp only [main, dif_pos hlt] at hq ⊢
        cases hq
        exact .inr ⟨hlt, _, rfl, rfl⟩
      · simp only [main, dif_neg hlt] at hq
        cases hq
        exact .inl (not_lt.mp hlt)
  | returned | aborted => cases hq

/-- When `main` has returned, all threads have ended their search. -/
theorem exited_of_returned (hrange : ∀ v ∈ list, InIntRange v) (h : (program n list).Reachable c)
    (hreturned : points c none = .main .returned) (w : Fin n) :
    points c (some w) = .worker w .exited := by
  have hhalts : Halts (points c (some w)) := by
    apply halts_of_joined some joined none isHalt_iff rfl ?_ h w
    · rw [hreturned]
      exact w.isLt
    · intro b hb q hq
      obtain ⟨pc, hp⟩ := (reducing_of_reachable hrange hb).exists_main hq
      rw [hp] at hq ⊢
      exact joined_of_next hq
  obtain ⟨pc, hp⟩ := (reducing_of_reachable hrange h).exists_worker w
  rw [hp] at hhalts ⊢
  cases pc with
  | exited => rfl
  | _ => exact hhalts.elim

/-- Each index has a thread. -/
theorem exists_block (hrange : ∀ v ∈ list, InIntRange v) (h : (program n list).Reachable c)
    (hreturned : points c none = .main .returned) (h0 : 0 ≤ i) (hi : i < list.length) :
    ∃ w : Fin n, InBlock (blockSize list n) w i := by
  have hready : Ready list n c.shared := by
    have hmain := (reducing_of_reachable hrange h).main
    rwa [hreturned] at hmain
  have hmul : n * (list.length / n) = list.length := Nat.mul_div_cancel' hready.dvd
  rw [exists_inBlock_iff (Int.natCast_nonneg _)]
  refine ⟨h0, ?_⟩
  rw [← hmul] at hi
  exact_mod_cast hi

theorem minimum_of_returned (hrange : ∀ v ∈ list, InIntRange v) (h : (program n list).Reachable c)
    (hreturned : points c none = .main .returned) :
    c.shared.minimumValue ∈ list ∧ ∀ v ∈ list, c.shared.minimumValue ≤ v := by
  have hreducing := reducing_of_reachable hrange h
  constructor
  · have hmain := hreducing.main
    rw [hreturned] at hmain
    exact hmain.mem
  · intro v hv
    obtain ⟨i, h0, hi, hv⟩ := exists_index_of_mem hv
    obtain ⟨w, hblock⟩ := exists_block hrange h hreturned h0 hi
    have hworker := hreducing.workers w
    rw [exited_of_returned hrange h hreturned w] at hworker
    exact hworker.2.2 i v hblock.1 hblock.2 hv

end PthreadBenchmark.FindMin
