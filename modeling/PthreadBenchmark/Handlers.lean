import PthreadBenchmark.Shared.Pthread
import PthreadBenchmark.Shared.PthreadRest

/-! # Threads that pass a flag round (`10practice.c`)

Each of the three handlers waits in a loop until the flag is its own, passes it on and prints its
letter. -/

namespace PthreadBenchmark.Handlers

inductive Handler where
  | A
  | B
  | C
  deriving DecidableEq, Repr

instance : Fintype Handler := ⟨{.A, .B, .C}, fun h => by cases h <;> simp⟩

/-- The flag that the handler waits for. -/
def Handler.mine : Handler → ℤ
  | .A => 1
  | .B => 2
  | .C => 3

/-- The flag that the handler sets. -/
def Handler.next : Handler → ℤ
  | .A => 2
  | .B => 3
  | .C => 1

inductive Mutex where
  | lockFlag
  deriving DecidableEq, Repr

inductive Point where
  | lock
  | test
  | set
  | print
  | count
  | unlock
  | check
  | exited
  deriving DecidableEq, Repr

/-- `i` is how often the handler has counted. -/
structure Thread where
  handler : Handler
  i : ℕ
  point : Point
  deriving DecidableEq, Repr

structure Shared where
  flag : ℤ
  printed : List Handler
  deriving DecidableEq, Repr

/-- `handlerA`, `handlerB` and `handlerC`. -/
def handler {ι : Type} (rounds : ℕ) (s : Shared) : Thread → Op ι Shared Thread Mutex Empty
  | ⟨h, i, .lock⟩ => .lock .lockFlag ⟨h, i, .test⟩
  | ⟨h, i, .test⟩ => .run s ⟨h, i, if s.flag = h.mine then .set else .unlock⟩
  | ⟨h, i, .set⟩ => .run { s with flag := h.next } ⟨h, i, .print⟩
  | ⟨h, i, .print⟩ => .run { s with printed := s.printed ++ [h] } ⟨h, i, .count⟩
  | ⟨h, i, .count⟩ => .run s ⟨h, i + 1, .unlock⟩
  | ⟨h, i, .unlock⟩ => .unlock .lockFlag ⟨h, i, .check⟩
  | ⟨h, i, .check⟩ => .run s ⟨h, i, if rounds ≤ i then .exited else .lock⟩
  | ⟨_, _, .exited⟩ => .halt

/-- The threads of `main`. In the source there are 10 rounds. -/
def program (rounds : ℕ) : System (Config Handler Shared Thread Mutex Empty) (Action Handler) :=
  Pthread.program (handler rounds) ⟨1, []⟩ fun h => ⟨h, 0, .lock⟩

def AllExited (c : Config Handler Shared Thread Mutex Empty) : Prop :=
  ∀ h, ∃ i, c.threads h = .running ⟨h, i, .exited⟩

/-! ## The letters come in turn -/

open Pthread

variable {rounds : ℕ} {s s' : Shared} {ps : Handler → Thread} {h : Handler} {t q : Thread}
  {d d' : Handler → ℕ} {c : Config Handler Shared Thread Mutex Empty}

/-! ## The lock -/

def inside (t : Thread) (_ : Mutex) : Prop :=
  match t.point with
  | .lock | .check | .exited => False
  | .test | .set | .print | .count | .unlock => True

theorem flat : Flat inside (handler (ι := Handler) rounds) where
  tracks s t := by
    obtain ⟨h, i, point⟩ := t
    cases point with
    | lock | unlock => exact fun m => by cases m; simp [inside]
    | test | check =>
        simp only [handler]
        split <;> exact fun _ => Iff.rfl
    | set | print | count => exact fun _ => Iff.rfl
    | exited => trivial
  proper s t := by
    obtain ⟨h, i, point⟩ := t
    cases point <;> trivial
  unique _ _ := rfl
  flows {s t m} hin := by
    obtain ⟨h, i, point⟩ := t
    cases point with
    | lock | check | exited => exact hin.elim
    | test | set | print | count | unlock => trivial

/-! ## Whose turn it is -/

/-- The handlers have set the flag `d` times. -/
def Turn (flag : ℤ) (d : Handler → ℕ) : Prop :=
  flag = 1 ∧ d .B = d .A ∧ d .C = d .A ∨
    flag = 2 ∧ d .A = d .B + 1 ∧ d .C = d .B ∨
    flag = 3 ∧ d .A = d .C + 1 ∧ d .B = d .C + 1

def total (d : Handler → ℕ) : ℕ := d .A + d .B + d .C

/-- The letter behind `n` letters. -/
def letter (n : ℕ) : Handler :=
  if n % 3 = 0 then .A else if n % 3 = 1 then .B else .C

def letters : ℕ → List Handler
  | 0 => []
  | n + 1 => letters n ++ [letter n]

theorem letters_three_mul (n : ℕ) :
    letters (3 * n) = (List.replicate n [Handler.A, .B, .C]).flatten := by
  induction n with
  | zero => rfl
  | succ n ih =>
      have hA : letter (3 * n) = .A := by simp [letter]
      have hB : letter (3 * n + 1) = .B := by simp [letter]
      have hC : letter (3 * n + 2) = .C := by simp [letter]
      rw [List.replicate_succ', List.flatten_concat, ← ih]
      simp only [Nat.mul_succ, letters, hA, hB, hC, List.append_assoc]
      rfl

theorem letters_isPrefix {m n : ℕ} (hle : m ≤ n) : letters m <+: letters n := by
  induction hle with
  | refl => exact List.prefix_rfl
  | step _ ih => exact ih.trans (List.prefix_append _ _)

theorem total_update (d : Handler → ℕ) (h : Handler) :
    total (Function.update d h (d h + 1)) = total d + 1 := by
  cases h <;> simp [total] <;> omega

/-- It is the turn of one handler, whose letter is the next one. -/
theorem Turn.letter {flag : ℤ} (hturn : Turn flag d) (hmine : flag = h.mine) :
    letter (total d) = h := by
  subst hmine
  rcases hturn with ⟨hflag, h₁, h₂⟩ | ⟨hflag, h₁, h₂⟩ | ⟨hflag, h₁, h₂⟩
  · obtain rfl : h = .A := by cases h <;> simp [Handler.mine] at hflag ⊢
    have hmod : total d % 3 = 0 := by rw [total]; omega
    rw [Handlers.letter, if_pos hmod]
  · obtain rfl : h = .B := by cases h <;> simp [Handler.mine] at hflag ⊢
    have hmod : total d % 3 = 1 := by rw [total]; omega
    simp [Handlers.letter, hmod]
  · obtain rfl : h = .C := by cases h <;> simp [Handler.mine] at hflag ⊢
    have hmod : total d % 3 = 2 := by rw [total]; omega
    simp [Handlers.letter, hmod]

/-- The handler with the turn passes it on. -/
theorem Turn.pass {flag : ℤ} (hturn : Turn flag d) (hmine : flag = h.mine) :
    Turn h.next (Function.update d h (d h + 1)) := by
  subst hmine
  rcases hturn with ⟨hflag, h₁, h₂⟩ | ⟨hflag, h₁, h₂⟩ | ⟨hflag, h₁, h₂⟩
  · obtain rfl : h = .A := by cases h <;> simp [Handler.mine] at hflag ⊢
    exact .inr (.inl ⟨rfl, by simp [h₁], by simp [h₁, h₂]⟩)
  · obtain rfl : h = .B := by cases h <;> simp [Handler.mine] at hflag ⊢
    exact .inr (.inr ⟨rfl, by simp [h₁, h₂], by simp [h₂]⟩)
  · obtain rfl : h = .C := by cases h <;> simp [Handler.mine] at hflag ⊢
    exact .inl ⟨rfl, by simp [h₁, h₂], by simp [h₁]⟩

/-- Someone has the turn. -/
theorem Turn.exists_mine {flag : ℤ} (hturn : Turn flag d) : ∃ h : Handler, flag = h.mine := by
  rcases hturn with ⟨hflag, -⟩ | ⟨hflag, -⟩ | ⟨hflag, -⟩
  · exact ⟨.A, hflag⟩
  · exact ⟨.B, hflag⟩
  · exact ⟨.C, hflag⟩

/-! ## What is printed -/

/-- How often the handler has set the flag. -/
def Thread.done (t : Thread) : ℕ :=
  match t.point with
  | .print | .count => t.i + 1
  | _ => t.i

def Fits (rounds : ℕ) (s : Shared) (t : Thread) : Prop :=
  match t.point with
  | .lock | .test | .print | .count => t.i < rounds
  | .set => t.i < rounds ∧ s.flag = t.handler.mine
  | .unlock | .check => t.i ≤ rounds
  | .exited => t.i = rounds

/-- How often each handler has set the flag. -/
def dones (ps : Handler → Thread) : Handler → ℕ := fun h => (ps h).done

structure Fair (rounds : ℕ) (s : Shared) (ps : Handler → Thread) : Prop where
  own : ∀ h, (ps h).handler = h
  fits : ∀ h, Fits rounds s (ps h)
  turn : Turn s.flag (dones ps)
  printing : ∀ h, (ps h).point = .print → s.printed ++ [h] = letters (total (dones ps))
  printed : (∀ h, (ps h).point ≠ .print) → s.printed = letters (total (dones ps))

theorem dones_update (ps : Handler → Thread) (h : Handler) (q : Thread) :
    dones (Function.update ps h q) = Function.update (dones ps) h q.done :=
  Function.comp_update Thread.done ps h q

theorem Fits.of_not_inside (hfits : Fits rounds s t) (hout : ¬ inside t .lockFlag) :
    Fits rounds s' t := by
  obtain ⟨h, i, point⟩ := t
  cases point with
  | set => exact absurd trivial hout
  | _ => exact hfits

theorem point_ne_print (hout : ¬ inside t .lockFlag) : t.point ≠ .print := by
  intro heq
  rw [inside, heq] at hout
  exact hout trivial

/-- A step that neither sets the flag nor prints. -/
theorem Fair.move (hfair : Fair rounds s ps) (hq : q.handler = h)
    (hdone : q.done = (ps h).done) (hp : (ps h).point ≠ .print) (hpoint : q.point ≠ .print)
    (hfits : Fits rounds s q) : Fair rounds s (Function.update ps h q) := by
  have hdones : dones (Function.update ps h q) = dones ps := by
    rw [dones_update, hdone]
    exact Function.update_eq_self h _
  constructor
  · apply (Function.forall_update_iff ps fun h t => t.handler = h).mpr
    exact ⟨hq, fun k _ => hfair.own k⟩
  · apply (Function.forall_update_iff ps fun _ t => Fits rounds s t).mpr
    exact ⟨hfits, fun k _ => hfair.fits k⟩
  · rw [hdones]
    exact hfair.turn
  · rw [hdones]
    apply (Function.forall_update_iff ps fun h t =>
      t.point = .print → s.printed ++ [h] = letters (total (dones ps))).mpr
    exact ⟨fun heq => absurd heq hpoint, fun k _ => hfair.printing k⟩
  · rw [hdones]
    intro hnone
    refine hfair.printed fun k => ?_
    by_cases hk : k = h
    · rwa [hk]
    · have hother := hnone k
      rwa [Function.update_of_ne hk] at hother

theorem Fair.set {i : ℕ} (hfair : Fair rounds s ps) (hp : ps h = ⟨h, i, .set⟩)
    (hout : ∀ k, k ≠ h → ¬ inside (ps k) .lockFlag) :
    Fair rounds { s with flag := h.next } (Function.update ps h ⟨h, i, .print⟩) := by
  have hfits := hfair.fits h
  rw [hp] at hfits
  obtain ⟨hi, hmine⟩ := hfits
  have hdone : dones ps h = i := by
    rw [dones, hp]
    rfl
  have hdones : dones (Function.update ps h ⟨h, i, .print⟩) =
      Function.update (dones ps) h (dones ps h + 1) := by
    rw [dones_update, hdone]
    rfl
  have hprinted : s.printed = letters (total (dones ps)) := by
    refine hfair.printed fun k => ?_
    by_cases hk : k = h
    · rw [hk, hp]
      simp
    · exact point_ne_print (hout k hk)
  constructor
  · apply (Function.forall_update_iff ps fun h t => t.handler = h).mpr
    exact ⟨rfl, fun k _ => hfair.own k⟩
  · apply (Function.forall_update_iff ps fun _ t => Fits rounds _ t).mpr
    exact ⟨hi, fun k hk => (hfair.fits k).of_not_inside (hout k hk)⟩
  · rw [hdones]
    exact hfair.turn.pass hmine
  · rw [hdones, total_update]
    apply (Function.forall_update_iff ps fun h' t =>
      t.point = .print → s.printed ++ [h'] = letters (total (dones ps) + 1)).mpr
    refine ⟨fun _ => ?_, fun k hk heq => absurd heq (point_ne_print (hout k hk))⟩
    rw [letters, hfair.turn.letter hmine, hprinted]
  · intro hnone
    refine absurd ?_ (hnone h)
    rw [Function.update_self]

theorem Fair.print {i : ℕ} (hfair : Fair rounds s ps) (hp : ps h = ⟨h, i, .print⟩)
    (hout : ∀ k, k ≠ h → ¬ inside (ps k) .lockFlag) :
    Fair rounds { s with printed := s.printed ++ [h] }
      (Function.update ps h ⟨h, i, .count⟩) := by
  have hfits := hfair.fits h
  rw [hp] at hfits
  have hdones : dones (Function.update ps h ⟨h, i, .count⟩) = dones ps := by
    have hdone : (⟨h, i, .count⟩ : Thread).done = dones ps h := by
      rw [dones, hp]
      rfl
    rw [dones_update, hdone]
    exact Function.update_eq_self h _
  constructor
  · apply (Function.forall_update_iff ps fun h t => t.handler = h).mpr
    exact ⟨rfl, fun k _ => hfair.own k⟩
  · apply (Function.forall_update_iff ps fun _ t => Fits rounds _ t).mpr
    exact ⟨hfits, fun k hk => (hfair.fits k).of_not_inside (hout k hk)⟩
  · rw [hdones]
    exact hfair.turn
  · intro k hk
    by_cases hkh : k = h
    · subst hkh
      rw [Function.update_self] at hk
      cases hk
    · rw [Function.update_of_ne hkh] at hk
      exact absurd hk (point_ne_print (hout k hkh))
  · rw [hdones]
    exact fun _ => hfair.printing h (by rw [hp])

theorem Fair.step (hfair : Fair rounds s ps)
    (hunique : ∀ k m, inside (ps h) m → inside (ps k) m → k = h)
    (hq : (handler (ι := Handler) rounds s (ps h)).next? = some q) :
    Fair rounds ((handler (ι := Handler) rounds s (ps h)).after s) (Function.update ps h q) := by
  have hfits := hfair.fits h
  have hhandler := hfair.own h
  have hout : inside (ps h) .lockFlag → ∀ k, k ≠ h → ¬ inside (ps k) .lockFlag :=
    fun hin k hk hink => hk (hunique k .lockFlag hin hink)
  obtain ⟨h', i, point, hp⟩ : ∃ h' i point, ps h = ⟨h', i, point⟩ := ⟨_, _, _, rfl⟩
  rw [hp] at hhandler
  obtain rfl : h' = h := hhandler
  rw [hp] at hq hfits hout ⊢
  -- most steps neither set the flag nor print
  have hquiet : ∀ q : Thread, q.handler = h' → q.done = (ps h').done → point ≠ .print →
      q.point ≠ .print → Fits rounds s q → Fair rounds s (Function.update ps h' q) :=
    fun q hq hdone hpoint => hfair.move hq hdone (by rw [hp]; exact hpoint)
  rw [hp] at hquiet
  cases point with
  | lock =>
      cases hq
      exact hquiet _ rfl rfl (by simp) (by simp) hfits
  | test =>
      cases hq
      by_cases hmine : s.flag = h'.mine
      · rw [if_pos hmine]
        exact hquiet _ rfl rfl (by simp) (by simp) ⟨hfits, hmine⟩
      · rw [if_neg hmine]
        exact hquiet _ rfl rfl (by simp) (by simp) hfits.le
  | set =>
      cases hq
      exact hfair.set hp (hout trivial)
  | print =>
      cases hq
      exact hfair.print hp (hout trivial)
  | count =>
      cases hq
      exact hquiet _ rfl rfl (by simp) (by simp) hfits
  | unlock =>
      cases hq
      exact hquiet _ rfl rfl (by simp) (by simp) hfits
  | check =>
      cases hq
      by_cases hi : rounds ≤ i
      · rw [if_pos hi]
        exact hquiet _ rfl rfl (by simp) (by simp) (le_antisymm hfits hi)
      · rw [if_neg hi]
        exact hquiet _ rfl rfl (by simp) (by simp) (not_le.mp hi)
  | exited => cases hq

theorem not_inside_start (h : Handler) (m : Mutex) : ¬ inside ⟨h, 0, .lock⟩ m := id

theorem fair_of_reachable (hrounds : 0 < rounds) (hc : (program rounds).Reachable c) :
    Fair rounds c.shared (points c) := by
  refine exclusive_invariant flat.tracks not_wait not_inside_start hc ?_
    fun _ _ _ _ hfair hunique hq => hfair.step hunique hq
  refine ⟨fun _ => rfl, fun _ => hrounds, .inl ⟨rfl, rfl, rfl⟩, fun _ heq => ?_, fun _ => rfl⟩
  cases heq

/-! ## The end -/

theorem Fits.done_le (hfits : Fits rounds s t) : t.done ≤ rounds := by
  obtain ⟨h, i, point⟩ := t
  cases point with
  | set => exact (hfits : i < rounds ∧ _).1.le
  | lock | test => exact (hfits : i < rounds).le
  | print | count => exact (hfits : i < rounds)
  | unlock | check => exact hfits
  | exited => exact (hfits : i = rounds).le

theorem Fair.done_le (hfair : Fair rounds s ps) (h : Handler) : dones ps h ≤ rounds :=
  (hfair.fits h).done_le

theorem Fair.total_le (hfair : Fair rounds s ps) : total (dones ps) ≤ 3 * rounds := by
  have hA := hfair.done_le .A
  have hB := hfair.done_le .B
  have hC := hfair.done_le .C
  rw [total]
  omega

/-- All letters begin with what is printed. -/
theorem Fair.printed_isPrefix (hfair : Fair rounds s ps) :
    s.printed <+: letters (3 * rounds) := by
  refine List.IsPrefix.trans ?_ (letters_isPrefix hfair.total_le)
  by_cases hprint : ∃ h, (ps h).point = .print
  · obtain ⟨h, hh⟩ := hprint
    rw [← hfair.printing h hh]
    exact List.prefix_append _ _
  · rw [hfair.printed (not_exists.mp hprint)]

/-- The handler whose turn it is can leave only when all have set the flag for the last time. -/
theorem Fair.exited_of_mine (hfair : Fair rounds s ps) (hmine : s.flag = h.mine)
    (hexited : (ps h).point = .exited) (k : Handler) : dones ps k = rounds := by
  have hdone : dones ps h = rounds := by
    have hfits := hfair.fits h
    rw [Fits, hexited] at hfits
    rw [dones, Thread.done, hexited]
    exact hfits
  have hA := hfair.done_le .A
  have hB := hfair.done_le .B
  rcases hfair.turn with ⟨hflag, h₁, h₂⟩ | ⟨hflag, h₁, h₂⟩ | ⟨hflag, h₁, h₂⟩
  · obtain rfl : h = .A := by
      rw [hflag] at hmine
      cases h <;> simp [Handler.mine] at hmine ⊢
    cases k <;> omega
  · obtain rfl : h = .B := by
      rw [hflag] at hmine
      cases h <;> simp [Handler.mine] at hmine ⊢
    omega
  · obtain rfl : h = .C := by
      rw [hflag] at hmine
      cases h <;> simp [Handler.mine] at hmine ⊢
    omega

/-- How far a handler has to go until the flag is passed on, if it is its own, or else until it is
at the lock. -/
def rank (flag : ℤ) (t : Thread) : ℕ :=
  match t.point with
  | .print => 13
  | .count => 12
  | .unlock => if flag = t.handler.mine then 11 else 4
  | .check => if flag = t.handler.mine then 10 else 3
  | .lock => if flag = t.handler.mine then 9 else 2
  | .test => if flag = t.handler.mine then 8 else 5
  | .set => 7
  | .exited => 0

theorem rank_le (flag : ℤ) (t : Thread) : rank flag t ≤ 13 := by
  obtain ⟨h, i, point⟩ := t
  cases point <;> simp only [rank] <;> first | omega | split <;> omega

def measure (rounds : ℕ) (s : Shared) (ps : Handler → Thread) : ℕ :=
  40 * (3 * rounds - total (dones ps)) + weight (rank s.flag) ps

/-- A step lowers the measure, where it is not one from the lock back into the loop of a handler
that has to wait. -/
theorem Fair.measure_lt {i : ℕ} {point : Point} (hfair : Fair rounds s ps)
    (hp : ps h = ⟨h, i, point⟩)
    (hlock : point = .lock → s.flag = h.mine)
    (hq : (Handlers.handler (ι := Handler) rounds s (ps h)).next? = some q)
    (hnext : total (dones (Function.update ps h q)) ≤ 3 * rounds) :
    measure rounds ((Handlers.handler (ι := Handler) rounds s (ps h)).after s)
      (Function.update ps h q) < measure rounds s ps := by
  have hfits := hfair.fits h
  have htotal := hfair.total_le
  have hweight := weight_update (rank s.flag) ps h q
  have hdones := dones_update ps h q
  have hdone : dones ps h = (⟨h, i, point⟩ : Thread).done := by rw [dones, hp]
  rw [hp] at hq hfits hweight ⊢
  have hquiet : q.done = (⟨h, i, point⟩ : Thread).done →
      rank s.flag q < rank s.flag ⟨h, i, point⟩ →
      measure rounds s (Function.update ps h q) < measure rounds s ps := by
    intro hsame hrank
    have heq : dones (Function.update ps h q) = dones ps := by
      rw [hdones, hsame, ← hdone]
      exact Function.update_eq_self h _
    simp only [measure, heq]
    omega
  cases point with
  | lock =>
      cases hq
      refine hquiet rfl ?_
      simp [rank, hlock rfl]
  | test =>
      cases hq
      refine hquiet ?_ ?_
      · split <;> rfl
      · by_cases hmine : s.flag = h.mine <;> simp [rank, hmine]
  | set =>
      cases hq
      have hset : (⟨h, i, .print⟩ : Thread).done = dones ps h + 1 := by rw [hdone]; rfl
      have hall : weight (rank h.next) (Function.update ps h ⟨h, i, .print⟩) ≤ 3 * 13 :=
        Finset.sum_le_card_nsmul _ _ 13 fun k _ => rank_le _ _
      rw [hdones, hset, total_update] at hnext
      simp only [measure, hdones, hset, total_update, handler, Op.after]
      omega
  | print =>
      cases hq
      exact hquiet rfl (by simp [rank])
  | count =>
      cases hq
      refine hquiet rfl ?_
      simp only [rank]
      split <;> omega
  | unlock =>
      cases hq
      refine hquiet rfl ?_
      by_cases hmine : s.flag = h.mine <;> simp [rank, hmine]
  | check =>
      cases hq
      refine hquiet ?_ ?_
      · split <;> rfl
      · by_cases hi : rounds ≤ i <;> by_cases hmine : s.flag = h.mine <;>
          simp [rank, hi, hmine]
  | exited => cases hq

theorem not_join (s : Shared) (t : Thread) (k : Handler) (q : Thread) :
    Handlers.handler rounds s t ≠ .join k q := by
  obtain ⟨h, i, point⟩ := t
  cases point <;> simp [Handlers.handler]

theorem exists_next {i : ℕ} {point : Point} (hpoint : point ≠ .exited) :
    ∃ q, (Handlers.handler (ι := Handler) rounds s ⟨h, i, point⟩).next? = some q := by
  cases point with
  | exited => exact absurd rfl hpoint
  | _ => exact ⟨_, rfl⟩

/-- A handler goes on and brings the measure down, if it need not wait. -/
theorem helps {i : ℕ} {point : Point} (hrounds : 0 < rounds) (hc : (program rounds).Reachable c)
    (hp : points c h = ⟨h, i, point⟩) (hpoint : point ≠ .exited)
    (hlock : point = .lock → c.shared.flag = h.mine ∧ c.owner .lockFlag = none) :
    Helps (Handlers.handler rounds) (measure rounds) c h := by
  have hfair := fair_of_reachable hrounds hc
  obtain ⟨q, hq⟩ := exists_next (s := c.shared) (h := h) (i := i) hpoint
  rw [← hp] at hq
  refine ⟨q, fun m q hop => ?_, hq, hfair.measure_lt hp (fun heq => (hlock heq).1) hq ?_⟩
  · rw [hp] at hop
    cases m with
    | lockFlag => cases point <;> first | exact (hlock rfl).2 | cases hop
  · have hunique := fun k m => inside_points_unique flat.tracks not_wait not_inside_start hc
      (i := h) (j := k) (m := m)
    exact (hfair.step hunique hq).total_le

theorem exists_helps (hrounds : 0 < rounds) (hc : (program rounds).Reachable c)
    (hend : ¬ AllExited c) : ∃ h, Helps (Handlers.handler rounds) (measure rounds) c h := by
  have hfair := fair_of_reachable hrounds hc
  have hpoint : ∀ h, ∃ i point, points c h = ⟨h, i, point⟩ := by
    intro h
    obtain ⟨h', i, point, hp⟩ : ∃ h' i point, points c h = ⟨h', i, point⟩ := ⟨_, _, _, rfl⟩
    have hhandler := hfair.own h
    rw [hp] at hhandler
    exact ⟨i, point, hp.trans (by rw [← hhandler])⟩
  -- first the handlers inside of the mutex and behind it go on
  by_cases hlock : ∃ h, (points c h).point ≠ .lock ∧ (points c h).point ≠ .exited
  · obtain ⟨h, hh, hne⟩ := hlock
    obtain ⟨i, point, hp⟩ := hpoint h
    rw [hp] at hh hne
    exact ⟨h, helps hrounds hc hp hne fun heq => absurd heq hh⟩
  -- then the one whose turn it is
  · obtain ⟨h, hmine⟩ := hfair.turn.exists_mine
    obtain ⟨i, point, hp⟩ := hpoint h
    have hrest : ∀ k, (points c k).point = .lock ∨ (points c k).point = .exited := by
      intro k
      by_contra hk
      exact hlock ⟨k, not_or.mp hk⟩
    have hnone : ∀ k, ¬ inside (points c k) .lockFlag := by
      intro k hin
      rcases hrest k with hk | hk <;> rw [inside, hk] at hin <;> exact hin
    have hfree : c.owner .lockFlag = none :=
      free_of_not_inside flat.tracks not_inside_start hc hnone
    rcases hrest h with hh | hh
    · rw [hp] at hh
      obtain rfl : point = .lock := hh
      exact ⟨h, helps hrounds hc hp (by simp) fun _ => ⟨hmine, hfree⟩⟩
    · -- all have set the flag for the last time, and are not at the lock any more
      refine absurd (fun k => ?_) hend
      obtain ⟨i, point, hk⟩ := hpoint k
      have hdone := hfair.exited_of_mine hmine hh k
      have hfits := hfair.fits k
      rw [dones] at hdone
      rcases hrest k with hlast | hlast
      · rw [hk] at hlast hfits hdone
        obtain rfl : point = .lock := hlast
        exact absurd hdone (hfits : i < rounds).ne
      · rw [hk] at hlast
        obtain rfl : point = .exited := hlast
        exact ⟨i, running_of_points not_wait hc hk⟩

/-! ## Results -/

/-- The letters come in turn in every run, and each run can go on until each handler has printed its
letter in all rounds. -/
theorem printed_in_turn (hrounds : 0 < rounds) (hc : (program rounds).Reachable c) :
    c.shared.printed <+: (List.replicate rounds [Handler.A, .B, .C]).flatten ∧
      ∃ ls c', (program rounds).exec c ls = some c' ∧ AllExited c' ∧
        c'.shared.printed = (List.replicate rounds [Handler.A, .B, .C]).flatten := by
  rw [← letters_three_mul]
  refine ⟨(fair_of_reachable hrounds hc).printed_isPrefix, ?_⟩
  obtain ⟨ls, c', hexec, hend⟩ := exists_final_of_helpful flat not_join not_inside_start
    (measure rounds) (fun c hc hend => exists_helps hrounds hc hend) hc
  have hfair := fair_of_reachable hrounds (hc.exec hexec)
  have hpoint : ∀ h, (points c' h).point = .exited := by
    intro h
    obtain ⟨i, hi⟩ := hend h
    rw [points_of_running hi]
  have hdone : ∀ h, dones (points c') h = rounds := by
    intro h
    obtain ⟨k, hmine⟩ := hfair.turn.exists_mine
    exact hfair.exited_of_mine hmine (hpoint k) h
  have htotal : total (dones (points c')) = 3 * rounds := by
    rw [total, hdone, hdone, hdone]
    omega
  refine ⟨ls, c', hexec, hend, ?_⟩
  rw [hfair.printed fun h => by rw [hpoint h]; simp, htotal]

/-- With 10 rounds, as in the source. -/
theorem printed_in_turn_main : ∃ ls c', (program 10).exec (program 10).init ls = some c' ∧
    AllExited c' ∧ c'.shared.printed = (List.replicate 10 [Handler.A, .B, .C]).flatten :=
  (printed_in_turn (by decide) .init).2

end PthreadBenchmark.Handlers
