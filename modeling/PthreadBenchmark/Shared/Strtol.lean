import PthreadBenchmark.Shared.Scanf
import Mathlib.Algebra.Order.Ring.Int
import Mathlib.Data.List.Basic

/-! # `strtol` and `%d`

With the base 0 a number may be octal or hexadecimal. A number that was printed with `%d` is read
back, whatever follows it, as long as that cannot be taken for a part of the number. -/

namespace PthreadBenchmark

namespace Strtol

open Scanf

variable {input tail digits : List Char} {c : Char} {n : ℕ} {v : ℤ}

/-- `"%d"` -/
def decimal (v : ℤ) : List Char :=
  if v < 0 then '-' :: Nat.toDigits 10 v.natAbs else Nat.toDigits 10 v.natAbs

/-- The base of a number without sign. -/
def base (input : List Char) : ℕ :=
  if (input.take 2 = ['0', 'x'] ∨ input.take 2 = ['0', 'X']) ∧
      (input.drop 2).head?.any (isDigit 16) then 16
  else if input.head? = some '0' then 8
  else 10

/-- A hexadecimal number has a prefix. -/
def magnitude (input : List Char) : ℕ :=
  let digits := if base input = 16 then input.drop 2 else input
  number (base input) (digits.takeWhile (isDigit (base input)))

def signed (input : List Char) : ℤ :=
  if input.head? = some '-' then -(magnitude input.tail : ℤ)
  else if input.head? = some '+' then magnitude input.tail
  else magnitude input

/-- What does not fit into a `long` becomes the nearest number that does. -/
def strtol (input : List Char) : ℤ :=
  max (-2 ^ 63) (min (2 ^ 63 - 1) (signed (input.dropWhile isSpace)))

/-! ## Digits -/

theorem isDigit_ten (hc : c.isDigit = true) :
    Scanf.isDigit 10 c = true ∧ digitValue c = c.toNat - '0'.toNat := by
  have hrange : 48 ≤ c.toNat ∧ c.toNat ≤ 57 := by
    simpa [Char.isDigit, UInt32.le_iff_toNat_le] using hc
  have hvalue : digitValue c = c.toNat - 48 := if_pos hrange
  refine ⟨?_, hvalue⟩
  rw [Scanf.isDigit, decide_eq_true_iff, hvalue]
  omega

theorem isDigit_of_mem (hc : c ∈ Nat.toDigits 10 n) : c.isDigit = true :=
  Nat.isDigit_of_mem_toDigits (by decide) (by decide) hc

theorem number_toDigits (n : ℕ) : number 10 (Nat.toDigits 10 n) = n := by
  have hfold : ∀ (digits : List Char) (k : ℕ), (∀ c ∈ digits, c.isDigit = true) →
      digits.foldl (fun n c => n * 10 + digitValue c) k = Nat.ofDigitChars 10 digits k := by
    intro digits
    induction digits with
    | nil => intro k _; simp
    | cons c digits ih =>
        intro k hdigits
        obtain ⟨-, hvalue⟩ := isDigit_ten (hdigits c List.mem_cons_self)
        rw [List.foldl_cons, Nat.ofDigitChars_cons, hvalue, Nat.mul_comm k,
          ih _ fun d hd => hdigits d (List.mem_cons_of_mem c hd)]
  rw [number, hfold _ _ fun c hc => isDigit_of_mem hc]
  exact Nat.ofDigitChars_ten_toDigits

/-- A number other than zero does not begin with a zero. -/
theorem head?_toDigits_ne (hn : 0 < n) : (Nat.toDigits 10 n).head? ≠ some '0' := by
  induction n using Nat.strong_induction_on with
  | _ n ih =>
      by_cases hlt : n < 10
      · rw [Nat.toDigits_of_lt_base hlt]
        simp only [List.head?_cons, ne_eq, Option.some.injEq, Nat.digitChar_eq_zero]
        omega
      · rw [Nat.toDigits_of_base_le (by decide) (not_lt.mp hlt),
          List.head?_append_of_ne_nil _ Nat.toDigits_ne_nil]
        exact ih _ (by omega) (by omega)

theorem exists_head_toDigits (n : ℕ) :
    ∃ c rest, Nat.toDigits 10 n = c :: rest ∧ c.isDigit = true := by
  cases hdigits : Nat.toDigits 10 n with
  | nil => exact absurd hdigits Nat.toDigits_ne_nil
  | cons c rest => exact ⟨c, rest, rfl, isDigit_of_mem (by rw [hdigits]; exact List.mem_cons_self)⟩

/-! ## What is printed is read back -/

/-- What follows cannot be taken for a part of the number. -/
def Ends (tail : List Char) : Prop :=
  ∀ c ∈ tail.head?, Scanf.isDigit 10 c = false ∧ c ≠ 'x' ∧ c ≠ 'X'

theorem Ends.takeWhile_eq (h : Ends tail) {b : ℕ} (hb : b ≤ 10) :
    tail.takeWhile (Scanf.isDigit b) = [] := by
  cases tail with
  | nil => rfl
  | cons c tail =>
      have hc := (h c rfl).1
      rw [Scanf.isDigit, decide_eq_false_iff_not] at hc
      rw [List.takeWhile_cons_of_neg]
      rw [Scanf.isDigit, decide_eq_true_iff]
      omega

theorem magnitude_toDigits (n : ℕ) (h : Ends tail) :
    magnitude (Nat.toDigits 10 n ++ tail) = n := by
  obtain ⟨c, rest, hdigits, hc⟩ := exists_head_toDigits n
  rcases Nat.eq_zero_or_pos n with rfl | hn
  · have hbase : base (Nat.toDigits 10 0 ++ tail) = 8 := by
      rw [Nat.toDigits_zero, List.singleton_append, base, if_neg, List.head?_cons, if_pos rfl]
      rintro ⟨htake, -⟩
      cases tail with
      | nil => simp at htake
      | cons d tail =>
          obtain ⟨-, hx, hX⟩ := h d rfl
          simp [hx, hX] at htake
    have hzero : Scanf.isDigit 8 '0' = true := by decide
    simp only [magnitude, hbase]
    rw [if_neg (by decide), Nat.toDigits_zero, List.cons_append, List.nil_append,
      List.takeWhile_cons_of_pos hzero, h.takeWhile_eq (by decide)]
    rfl
  · have hhead : (Nat.toDigits 10 n ++ tail).head? ≠ some '0' := by
      rw [List.head?_append_of_ne_nil _ Nat.toDigits_ne_nil]
      exact head?_toDigits_ne hn
    have hbase : base (Nat.toDigits 10 n ++ tail) = 10 := by
      rw [base, if_neg, if_neg hhead]
      rintro ⟨htake, -⟩
      have hne : c ≠ '0' := by
        rintro rfl
        rw [hdigits] at hhead
        exact hhead rfl
      rw [hdigits] at htake
      cases hrest : rest ++ tail <;> simp [hrest, hne] at htake
    have hall : ∀ d ∈ Nat.toDigits 10 n, Scanf.isDigit 10 d = true :=
      fun d hd => (isDigit_ten (isDigit_of_mem hd)).1
    simp only [magnitude, hbase]
    rw [if_neg (by decide), List.takeWhile_append_of_pos hall, h.takeWhile_eq le_rfl,
      List.append_nil, number_toDigits]

theorem not_space (hc : c.isDigit = true) : isSpace c = false :=
  not_space_of_isDigit (isDigit_ten hc).1 (by decide)

theorem strtol_decimal (hlo : -2 ^ 63 ≤ v) (hhi : v < 2 ^ 63) (h : Ends tail) :
    strtol (decimal v ++ tail) = v := by
  obtain ⟨c, rest, hdigits, hc⟩ := exists_head_toDigits v.natAbs
  have hmagnitude := magnitude_toDigits v.natAbs h
  have hsigned : signed ((decimal v ++ tail).dropWhile isSpace) = v := by
    by_cases hneg : v < 0
    · rw [decimal, if_pos hneg, List.cons_append,
        List.dropWhile_cons_of_neg (by decide), signed, List.head?_cons, if_pos rfl, List.tail_cons,
        hmagnitude]
      omega
    · have hspace : ¬ isSpace c = true := by rw [not_space hc]; exact Bool.false_ne_true
      have hminus : c ≠ '-' := by rintro rfl; cases hc
      have hplus : c ≠ '+' := by rintro rfl; cases hc
      rw [decimal, if_neg hneg]
      rw [hdigits] at hmagnitude ⊢
      rw [List.cons_append, List.dropWhile_cons_of_neg hspace, signed, List.head?_cons,
        if_neg (by simpa using hminus), if_neg (by simpa using hplus), ← List.cons_append,
        hmagnitude]
      omega
  rw [strtol, hsigned]
  omega

theorem length_decimal_le (hlo : -2 ^ 31 ≤ v) (hhi : v < 2 ^ 31) : (decimal v).length ≤ 11 := by
  have hdigits : (Nat.toDigits 10 v.natAbs).length ≤ 10 :=
    (Nat.length_toDigits_le_iff (by decide) (by decide)).mpr (by omega)
  rw [decimal]
  split
  · rw [List.length_cons]
    omega
  · omega

end Strtol

end PthreadBenchmark
