import Mathlib.Data.Int.Notation
import Mathlib.Data.List.TakeWhile

/-! # `sscanf`

Formats of the conversions `%d` and `%x` and of characters that are to be there as they are. A
directive fails at an input that does not match, or because there is no input left. Only the
second failure can make the result `EOF`. -/

namespace PthreadBenchmark

namespace Scanf

/-- The conversions are `integer 10` and `integer 16`. -/
inductive Directive where
  | char (c : Char)
  | integer (base : ℕ)
  deriving DecidableEq, Repr

/-- The value of a digit of any base up to 16, and 16 for other characters. -/
def digitValue (c : Char) : ℕ :=
  if 48 ≤ c.toNat ∧ c.toNat ≤ 57 then c.toNat - 48
  else if 97 ≤ c.toNat ∧ c.toNat ≤ 102 then c.toNat - 87
  else if 65 ≤ c.toNat ∧ c.toNat ≤ 70 then c.toNat - 55
  else 16

def isDigit (base : ℕ) (c : Char) : Bool := decide (digitValue c < base)

def isSpace (c : Char) : Bool := decide (c.toNat = 32 ∨ 9 ≤ c.toNat ∧ c.toNat ≤ 13)

/-- The value of a sequence of digits. -/
def number (base : ℕ) (digits : List Char) : ℕ :=
  digits.foldl (fun n c => n * base + digitValue c) 0

/-- What a conversion finds in its input. -/
inductive Item where
  | inputFailure
  | matchingFailure
  | number (v : ℤ) (rest : List Char)
  deriving DecidableEq, Repr

def scanDigits (base : ℕ) (negative : Bool) (input : List Char) : Item :=
  if input.takeWhile (isDigit base) = [] then .matchingFailure
  else .number
    (if negative then -(number base (input.takeWhile (isDigit base)) : ℤ)
      else (number base (input.takeWhile (isDigit base)) : ℤ))
    (input.dropWhile (isDigit base))

/-- A hexadecimal number may have a prefix, which cannot stand for a number alone. -/
def scanUnsigned (base : ℕ) (negative : Bool) (input : List Char) : Item :=
  if base = 16 ∧ (input.take 2 = ['0', 'x'] ∨ input.take 2 = ['0', 'X']) then
    scanDigits base negative (input.drop 2)
  else scanDigits base negative input

def scanSigned (base : ℕ) : List Char → Item
  | [] => .inputFailure
  | c :: input =>
    if c = '+' then scanUnsigned base false input
    else if c = '-' then scanUnsigned base true input
    else scanUnsigned base false (c :: input)

def scanInteger (base : ℕ) (input : List Char) : Item := scanSigned base (input.dropWhile isSpace)

/-- The values in the order of the conversions, and whether there was no input left. -/
structure Scanned where
  values : List ℤ
  atEnd : Bool
  deriving DecidableEq, Repr

def sscanf : List Directive → List Char → Scanned
  | [], _ => ⟨[], false⟩
  | .char _ :: _, [] => ⟨[], true⟩
  | .char c :: format, a :: input => if a = c then sscanf format input else ⟨[], false⟩
  | .integer base :: format, input =>
    match scanInteger base input with
    | .inputFailure => ⟨[], true⟩
    | .matchingFailure => ⟨[], false⟩
    | .number v rest =>
      { sscanf format rest with values := v :: (sscanf format rest).values }

/-- What `sscanf` returns: `EOF` is -1. -/
def Scanned.result (s : Scanned) : ℤ :=
  if s.values = [] ∧ s.atEnd = true then -1 else s.values.length

/-! ## Numbers -/

variable {base : ℕ} {c : Char} {digits input : List Char} {negative : Bool}

theorem scanDigits_all (hne : digits ≠ []) (hdigits : ∀ c ∈ digits, isDigit base c = true) :
    scanDigits base negative digits =
      .number (if negative then -(number base digits : ℤ) else (number base digits : ℤ)) [] := by
  have htake : digits.takeWhile (isDigit base) = digits := List.takeWhile_eq_self_iff.mpr hdigits
  have hdrop : digits.dropWhile (isDigit base) = [] := List.dropWhile_eq_nil_iff.mpr hdigits
  rw [scanDigits, htake, hdrop, if_neg hne]

/-- Digits have no prefix. -/
theorem scanUnsigned_all (hne : digits ≠ []) (hdigits : ∀ c ∈ digits, isDigit base c = true)
    (hbase : base ≤ 16) : scanUnsigned base negative digits =
      .number (if negative then -(number base digits : ℤ) else (number base digits : ℤ)) [] := by
  have hprefix : ∀ x, digitValue x = 16 → digits.take 2 ≠ ['0', x] := by
    intro x hx htake
    have hmem : x ∈ digits.take 2 := by
      rw [htake]
      simp
    have hdigit := hdigits x (List.mem_of_mem_take hmem)
    rw [isDigit, decide_eq_true_iff, hx] at hdigit
    omega
  rw [scanUnsigned, if_neg, scanDigits_all hne hdigits]
  rintro ⟨-, h | h⟩
  · exact hprefix 'x' (by decide) h
  · exact hprefix 'X' (by decide) h

theorem not_space_of_isDigit (h : isDigit base c = true) (hbase : base ≤ 16) :
    isSpace c = false := by
  rw [isDigit, decide_eq_true_iff] at h
  rw [isSpace, decide_eq_false_iff_not]
  unfold digitValue at h
  split_ifs at h <;> omega

theorem scanInteger_digits (hne : digits ≠ []) (hdigits : ∀ c ∈ digits, isDigit base c = true)
    (hbase : base ≤ 16) : scanInteger base digits = .number (number base digits) [] := by
  cases digits with
  | nil => exact absurd rfl hne
  | cons c rest =>
      have hdigit := hdigits c List.mem_cons_self
      have hspace := not_space_of_isDigit hdigit hbase
      have hplus : c ≠ '+' := by
        rintro rfl
        rw [isDigit, decide_eq_true_iff] at hdigit
        exact absurd hdigit (by simp [digitValue]; omega)
      have hminus : c ≠ '-' := by
        rintro rfl
        rw [isDigit, decide_eq_true_iff] at hdigit
        exact absurd hdigit (by simp [digitValue]; omega)
      rw [scanInteger, List.dropWhile_cons_of_neg (by rw [hspace]; exact Bool.false_ne_true),
        scanSigned, if_neg hplus, if_neg hminus, scanUnsigned_all hne hdigits hbase]
      rfl

/-- A number with a sign. -/
theorem scanInteger_signed (hne : digits ≠ []) (hdigits : ∀ c ∈ digits, isDigit base c = true)
    (hbase : base ≤ 16) (negative : Bool) :
    scanInteger base ((if negative then '-' else '+') :: digits) =
      .number (if negative then -(number base digits : ℤ) else (number base digits : ℤ)) [] := by
  have hspace : isSpace (if negative then '-' else '+') = false := by cases negative <;> rfl
  rw [scanInteger, List.dropWhile_cons_of_neg (by rw [hspace]; exact Bool.false_ne_true),
    scanSigned]
  cases negative with
  | false => exact scanUnsigned_all hne hdigits hbase
  | true => exact scanUnsigned_all hne hdigits hbase

end Scanf

end PthreadBenchmark
