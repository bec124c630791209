import PthreadBenchmark.Concurio.Absolute.Correctness
import PthreadBenchmark.Shared.PthreadRuns

/-! # One worker subtracts the same time again and again

A call may leave the time that is subtracted one second later with a million microseconds less. The
next calls start from there. -/

namespace PthreadBenchmark.Concurio.Absolute

open Pthread

/-! ## A call that nobody interrupts -/

/-- What a block makes of `y`. -/
def Block.run (x y : Timeval) (b : Block) : Timeval :=
  if b.applies x y.tvUsec then
    let nsec := b.nsec x y.tvUsec
    ⟨b.sec y.tvSec nsec, b.usec y.tvUsec nsec⟩
  else y

/-- What a call returns, and what it stores to `result` and `y`. -/
structure Subtraction where
  returned : ℤ
  result : Timeval
  y : Timeval
  deriving DecidableEq, Repr

/-- `timeval_subtract(&result, &x, &y)`. -/
def Timeval.subtract (x y : Timeval) : Subtraction :=
  let y' := Block.carry.run x (Block.borrow.run x y)
  ⟨if x.tvSec < y'.tvSec then 1 else 0, ⟨x.tvSec - y'.tvSec, x.tvUsec - y'.tvUsec⟩, y'⟩

/-- The calls with one `y`, each with the time that it subtracts from. -/
def subtractions : Timeval → List Timeval → List (Timeval × Subtraction)
  | _, [] => []
  | y, x :: xs => (x, x.subtract y) :: subtractions (x.subtract y).y xs

/-! ## The steps of a worker come to the call -/

section Steps

variable {workers trials : ℕ} {start : Timeval} {after : Fin workers → ℕ → Timeval}
  {o : Mutex → Option (Fin workers)} {s : Shared workers}
  {threads : Fin workers → Status (Point workers) Mutex Cond}
  {G : Config (Fin workers) (Shared workers) (Point workers) Mutex Cond → Prop}
  {id : Fin workers} {t : ℕ}

/-- The worker is at a place in `timeval_subtract`, with `y` in `asbolute_start`. -/
def subtracting (o : Mutex → Option (Fin workers)) (s : Shared workers)
    (threads : Fin workers → Status (Point workers) Mutex Cond) (id : Fin workers) (t : ℕ)
    (y : Timeval) (place : At) : Config (Fin workers) (Shared workers) (Point workers) Mutex Cond :=
  turn o { s with asboluteStart := y } threads id (.subtract id t place)

theorem leads_block (b : Block) (y : Timeval)
    (h : (program trials start after).Leads G
      (subtracting o s threads id t (b.run (after id t) y) b.next)) :
    (program trials start after).Leads G (subtracting o s threads id t y (.test b)) := by
  by_cases happlies : b.applies (after id t) y.tvUsec
  · rw [Block.run, if_pos happlies] at h
    have htest : code trials after { s with asboluteStart := y } (.subtract id t (.test b)) =
        .run { s with asboluteStart := y } (.subtract id t (.nsec b)) := by
      simp only [code, timevalSubtract, if_pos happlies]
    exact leads_run htest (leads_run rfl (leads_run rfl (leads_run rfl (leads_run rfl
      (leads_run rfl h)))))
  · rw [Block.run, if_neg happlies] at h
    have htest : code trials after { s with asboluteStart := y } (.subtract id t (.test b)) =
        .run { s with asboluteStart := y } (.subtract id t b.next) := by
      simp only [code, timevalSubtract, if_neg happlies]
    exact leads_run htest h

/-- A worker that is not interrupted stores what the call stores. -/
theorem leads_subtract (y : Timeval)
    (h : (program trials start after).Leads G
      (subtracting o s threads id t ((after id t).subtract y).y
        (.record ((after id t).subtract y).result))) :
    (program trials start after).Leads G (subtracting o s threads id t y (.test .borrow)) := by
  apply leads_block
  apply leads_block
  exact leads_run rfl (leads_run rfl (leads_run rfl h))

end Steps

/-! ## A call -/

variable {start x : Timeval}

/-- The microseconds are a fraction of a second. -/
def Timeval.Normal (v : Timeval) : Prop := 0 ≤ v.tvUsec ∧ v.tvUsec < 1000000

instance (v : Timeval) : Decidable v.Normal :=
  inferInstanceAs (Decidable (0 ≤ v.tvUsec ∧ v.tvUsec < 1000000))

/-- A call that gets `x` has the time since the start for its result, leaves `y` at the start, and
returns whether `x` is earlier. -/
structure RightCall (start x : Timeval) (c : Subtraction) : Prop where
  value : c.result.value = x.value - start.value
  normal : c.result.Normal
  same : c.y.value = start.value
  returned : c.returned = 1 ↔ x.value < start.value

/-- The start, or the same instant with a second too much and the microseconds below zero. -/
def Timeval.shifted (start : Timeval) : Bool → Timeval
  | false => start
  | true => ⟨start.tvSec + 1, start.tvUsec - 1000000⟩

/-- Whether a call with `x` leaves the start moved. -/
def movedBy (start x : Timeval) (moved : Bool) : Bool :=
  x.tvUsec < start.tvUsec || moved && x.tvUsec == start.tvUsec

theorem value_shifted (start : Timeval) (moved : Bool) :
    (start.shifted moved).value = start.value := by
  cases moved with
  | false => rfl
  | true =>
      simp only [Timeval.shifted, Timeval.value]
      omega

theorem run_borrow (hstart : start.Normal) (hx : x.Normal) (moved : Bool) :
    Block.borrow.run x (start.shifted moved) =
      start.shifted (moved || x.tvUsec < start.tvUsec) := by
  obtain ⟨hx0, hx1⟩ := hx
  obtain ⟨hs0, hs1⟩ := hstart
  cases moved with
  | true =>
      have hnot : ¬ x.tvUsec < start.tvUsec - 1000000 := by omega
      simp [Block.run, Block.applies, Timeval.shifted, hnot]
  | false =>
      by_cases hlt : x.tvUsec < start.tvUsec
      · have hzero : (start.tvUsec - x.tvUsec).tdiv 1000000 = 0 :=
          Int.tdiv_eq_zero_of_lt (by omega) (by omega)
        simp [Block.run, Block.applies, Block.nsec, Block.sec, Block.usec, Timeval.shifted, hlt,
          hzero]
      · simp [Block.run, Block.applies, Timeval.shifted, hlt]

/-- The start is not moved back if the difference is exactly a second. -/
theorem run_carry (hstart : start.Normal) (hx : x.Normal) (moved : Bool) :
    Block.carry.run x (start.shifted moved) = start.shifted (moved && x.tvUsec ≤ start.tvUsec) := by
  obtain ⟨hx0, hx1⟩ := hx
  obtain ⟨hs0, hs1⟩ := hstart
  cases moved with
  | false =>
      have hnot : ¬ 1000000 < x.tvUsec - start.tvUsec := by omega
      simp [Block.run, Block.applies, Timeval.shifted, hnot]
  | true =>
      by_cases hle : x.tvUsec ≤ start.tvUsec
      · have hnot : ¬ 1000000 < x.tvUsec - (start.tvUsec - 1000000) := by omega
        simp [Block.run, Block.applies, Timeval.shifted, hle, hnot]
      · have hlt : 1000000 < x.tvUsec - (start.tvUsec - 1000000) := by omega
        have hone : (x.tvUsec - (start.tvUsec - 1000000)).tdiv 1000000 = 1 := by
          rw [Int.tdiv_eq_ediv_of_nonneg (by omega)]
          omega
        simp [Block.run, Block.applies, Block.nsec, Block.sec, Block.usec, Timeval.shifted, hle,
          hlt, hone]

theorem subtract_y (hstart : start.Normal) (hx : x.Normal) (moved : Bool) :
    (x.subtract (start.shifted moved)).y = start.shifted (movedBy start x moved) := by
  have hmoved : ((moved || decide (x.tvUsec < start.tvUsec)) &&
      decide (x.tvUsec ≤ start.tvUsec)) = movedBy start x moved := by
    rw [movedBy]
    rcases lt_trichotomy x.tvUsec start.tvUsec with hlt | heq | hgt
    · simp [hlt, hlt.le]
    · simp [heq]
    · simp [hgt.not_gt, hgt.not_ge, hgt.ne']
  simp only [Timeval.subtract]
  rw [run_borrow hstart hx, run_carry hstart hx, hmoved]

/-- Where the start has been moved if and only if `x` has the smaller fraction, the difference of
the microseconds is below a second. -/
theorem fraction_of_shifted (hstart : start.Normal) (hx : x.Normal) :
    (start.shifted (x.tvUsec < start.tvUsec)).tvUsec ≤ x.tvUsec ∧
      x.tvUsec - (start.shifted (x.tvUsec < start.tvUsec)).tvUsec < 1000000 := by
  obtain ⟨hx0, hx1⟩ := hx
  obtain ⟨hs0, hs1⟩ := hstart
  by_cases hlt : x.tvUsec < start.tvUsec
  · simp only [hlt, decide_true, Timeval.shifted]
    omega
  · simp only [hlt, decide_false, Timeval.shifted]
    omega

/-- A difference of the microseconds below a second makes the result right. -/
theorem rightCall_of_fraction {y : Timeval} (hsame : y.value = start.value)
    (hle : y.tvUsec ≤ x.tvUsec) (hlt : x.tvUsec - y.tvUsec < 1000000) :
    RightCall start x
      ⟨if x.tvSec < y.tvSec then 1 else 0, ⟨x.tvSec - y.tvSec, x.tvUsec - y.tvUsec⟩, y⟩ where
  value := by
    rw [← hsame]
    simp only [Timeval.value]
    omega
  normal := ⟨Int.sub_nonneg_of_le hle, hlt⟩
  same := hsame
  returned := by
    rw [← hsame]
    simp only [Timeval.value]
    split
    · next hsec =>
        simp only [true_iff]
        omega
    · next hsec =>
        simp only [zero_ne_one, false_iff]
        omega

/-- The call goes wrong where the start has been moved, and its fraction is that of `x`. -/
theorem rightCall_iff (hstart : start.Normal) (hx : x.Normal) (moved : Bool) :
    RightCall start x (x.subtract (start.shifted moved)) ↔
      (moved = true → x.tvUsec ≠ start.tvUsec) := by
  have hy := subtract_y hstart hx moved
  have hcall : x.subtract (start.shifted moved) =
      ⟨if x.tvSec < (start.shifted (movedBy start x moved)).tvSec then 1 else 0,
        ⟨x.tvSec - (start.shifted (movedBy start x moved)).tvSec,
          x.tvUsec - (start.shifted (movedBy start x moved)).tvUsec⟩,
        start.shifted (movedBy start x moved)⟩ := by
    rw [← hy]
    rfl
  have hsame := value_shifted start (movedBy start x moved)
  rw [hcall]
  constructor
  · rintro hright rfl heq
    have hnormal := hright.normal.2
    simp only [movedBy, heq, lt_irrefl, decide_false, beq_self_eq_true, Bool.and_self,
      Bool.or_true, Timeval.shifted] at hnormal
    omega
  · intro hne
    have hmoved : movedBy start x moved = decide (x.tvUsec < start.tvUsec) := by
      cases moved with
      | false => simp [movedBy]
      | true => simp [movedBy, hne rfl]
    rw [hmoved] at hsame ⊢
    obtain ⟨hle, hlt⟩ := fraction_of_shifted hstart hx
    exact rightCall_of_fraction hsame hle hlt

/-! ## A sequence of calls -/

/-- The induction is on the calls; whether the start has been moved is decided by the call before,
as long as all are right. -/
theorem forall_rightCall_iff (hstart : start.Normal) (moved : Bool) (xs : List Timeval)
    (hxs : ∀ x ∈ xs, x.Normal) :
    (∀ c ∈ subtractions (start.shifted moved) xs, RightCall start c.1 c.2) ↔
      (moved = true → ∀ x ∈ xs.head?, x.tvUsec ≠ start.tvUsec) ∧
        xs.IsChain fun a b => ¬ (a.tvUsec < start.tvUsec ∧ b.tvUsec = start.tvUsec) := by
  induction xs generalizing moved with
  | nil => simp [subtractions]
  | cons x xs ih =>
      have hx : x.Normal := hxs x List.mem_cons_self
      have htail := ih (movedBy start x moved) fun v hv => hxs v (List.mem_cons_of_mem x hv)
      rw [subtractions, List.forall_mem_cons, subtract_y hstart hx, htail, rightCall_iff hstart hx,
        List.isChain_cons]
      have hmoved (hne : moved = true → x.tvUsec ≠ start.tvUsec) :
          movedBy start x moved = true ↔ x.tvUsec < start.tvUsec := by
        cases moved with
        | false => simp [movedBy]
        | true => simp [movedBy, hne rfl]
      simp only [List.head?_cons, Option.mem_some_iff, forall_eq', not_and]
      constructor
      · rintro ⟨hne, hhead, hchain⟩
        rw [hmoved hne] at hhead
        exact ⟨hne, fun v hv hlt => hhead hlt v hv, hchain⟩
      · rintro ⟨hne, hhead, hchain⟩
        rw [hmoved hne]
        exact ⟨hne, fun hlt v hv => hhead v hv hlt, hchain⟩

/-! ## Result -/

/-- For any start and any sequence of times whose microseconds are fractions of a second: each call
with the same `y` is right if and only if no time whose fraction is that of the start comes right
behind one whose fraction is smaller. Seconds are whole numbers here: they do not overflow
`time_t`. -/
theorem subtractions_right_iff (start : Timeval) (xs : List Timeval) (hstart : start.Normal)
    (hxs : ∀ x ∈ xs, x.Normal) :
    (∀ c ∈ subtractions start xs, RightCall start c.1 c.2) ↔
      xs.IsChain fun a b => ¬ (a.tvUsec < start.tvUsec ∧ b.tvUsec = start.tvUsec) := by
  have h := forall_rightCall_iff hstart false xs hxs
  simpa [Timeval.shifted] using h

/-- The times 1.0 s and 1.7 s with a start at 0.5 s. -/
theorem subtractions_right_iff_apart :
    RightCall ⟨0, 500000⟩ ⟨1, 0⟩ ⟨0, ⟨0, 500000⟩, ⟨1, -500000⟩⟩ ∧
      RightCall ⟨0, 500000⟩ ⟨1, 700000⟩ ⟨0, ⟨1, 200000⟩, ⟨0, 500000⟩⟩ := by
  have h := (subtractions_right_iff ⟨0, 500000⟩ [⟨1, 0⟩, ⟨1, 700000⟩] (by decide) (by decide)).mpr
    (by simp)
  exact ⟨h (⟨1, 0⟩, ⟨0, ⟨0, 500000⟩, ⟨1, -500000⟩⟩) (by decide),
    h (⟨1, 700000⟩, ⟨0, ⟨1, 200000⟩, ⟨0, 500000⟩⟩) (by decide)⟩

/-- The times 1.0 s and 1.5 s with a start at 0.5 s: the second call stores no second and a million
microseconds. -/
theorem subtract_million : ¬ ∀ c ∈ subtractions ⟨0, 500000⟩ [⟨1, 0⟩, ⟨1, 500000⟩],
    RightCall ⟨0, 500000⟩ c.1 c.2 := by
  intro h
  have hright := h (⟨1, 500000⟩, ⟨0, ⟨0, 1000000⟩, ⟨1, -500000⟩⟩) (by decide)
  exact absurd hright.normal (by decide)

end PthreadBenchmark.Concurio.Absolute
