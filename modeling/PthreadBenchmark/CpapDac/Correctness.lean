import PthreadBenchmark.CpapDac.Model
import Mathlib.Data.List.Chain

/-! # What is written for a list of numerals

On the numeral `0` the first format runs out of input, so that its result is `EOF` and the second
one is not tried: the value of the last numeral is written again. -/

namespace PthreadBenchmark.CpapDac

open Scanf

/-! ## Messages -/

/-- The numerals of a message. A hexadecimal one becomes an `int` as its 32 bits are. -/
inductive Numeral where
  | decimal (digits : List Char) (nonempty : digits ≠ [])
    (isDigit : ∀ c ∈ digits, isDigit 10 c = true) (inRange : InIntRange (number 10 digits))
  | signed (negative : Bool) (digits : List Char) (nonempty : digits ≠ [])
    (isDigit : ∀ c ∈ digits, isDigit 10 c = true)
    (inRange : InIntRange (if negative then -(number 10 digits : ℤ) else number 10 digits))
  | hexadecimal (digits : List Char) (nonempty : digits ≠ [])
    (isDigit : ∀ c ∈ digits, isDigit 16 c = true) (inRange : number 16 digits < 2 ^ 32)

namespace Numeral

def text : Numeral → List Char
  | .decimal digits _ _ _ => digits
  | .signed negative digits _ _ _ => (if negative then '-' else '+') :: digits
  | .hexadecimal digits _ _ _ => '0' :: 'x' :: digits

def value : Numeral → ℤ
  | .decimal digits _ _ _ => number 10 digits
  | .signed negative digits _ _ _ => if negative then -(number 10 digits : ℤ) else number 10 digits
  | .hexadecimal digits _ _ _ => toInt (number 16 digits)

end Numeral

/-- The numerals with commas between them. -/
def message : List Numeral → List Char
  | [] => []
  | [m] => m.text
  | m :: ms => m.text ++ ',' :: message ms

/-- One pass over the message writes the value of each numeral once, in order, and ends. -/
def Right (channel : ℤ) (ms : List Numeral) : Prop :=
  ∀ (readInt : ℤ) (fuel : ℕ), ms.length ≤ fuel →
    parseLoop channel fuel (message ms) readInt =
      some (ms.flatMap fun m => [.writeDAC channel m.value, .waitTick channel])

variable {channel readInt : ℤ} {m : Numeral} {ms : List Numeral} {digits : List Char} {c : Char}

/-! ## One numeral -/

theorem readNumber_zero (readInt : ℤ) : readNumber ['0'] readInt = (-1, readInt) := rfl

theorem result_one (v : ℤ) : Scanned.result ⟨[v], false⟩ = 1 := by simp [Scanned.result]

theorem readNumber_hex {v : ℤ} (hhex : sscanf hexFormat digits = ⟨[v], false⟩) (readInt : ℤ) :
    readNumber digits readInt = (1, toInt v) := by
  rw [readNumber, hhex, result_one, if_neg (by decide)]
  rfl

/-- The first format fails at its first or second character. -/
theorem readNumber_decimal {v : ℤ} (hhex : sscanf hexFormat digits = ⟨[], false⟩)
    (hdecimal : scanInteger 10 digits = .number v []) (hrange : InIntRange v) (readInt : ℤ) :
    readNumber digits readInt = (1, v) := by
  have hscan : sscanf decimalFormat digits = ⟨[v], false⟩ := by
    simp only [decimalFormat, sscanf, hdecimal]
  have hresult : Scanned.result ⟨[], false⟩ = 0 := rfl
  rw [readNumber, hhex, hresult, if_pos rfl, hscan]
  simp only [result_one, assigned, List.head?_cons, Option.elim_some, toInt_of_inIntRange hrange]

/-- The digits of a decimal number other than `0` do not start with `0x`, and do not end there. -/
theorem hexFormat_decimal (hne : digits ≠ []) (hdigits : ∀ c ∈ digits, isDigit 10 c = true)
    (hzero : digits ≠ ['0']) : sscanf hexFormat digits = ⟨[], false⟩ := by
  cases digits with
  | nil => exact absurd rfl hne
  | cons c rest =>
      by_cases hc : c = '0'
      · subst hc
        cases rest with
        | nil => exact absurd rfl hzero
        | cons d rest =>
            have hd : d ≠ 'x' := by
              rintro rfl
              exact absurd (hdigits 'x' (by simp)) (by decide)
            simp only [hexFormat, sscanf, if_true, if_neg hd]
      · simp only [hexFormat, sscanf, if_neg hc]

theorem hexFormat_signed (negative : Bool) (digits : List Char) :
    sscanf hexFormat ((if negative then '-' else '+') :: digits) = ⟨[], false⟩ := by
  have hne : (if negative then '-' else '+') ≠ '0' := by cases negative <;> decide
  simp only [hexFormat, sscanf, if_neg hne]

theorem readNumber_text (hzero : m.text ≠ ['0']) (readInt : ℤ) :
    readNumber m.text readInt = (1, m.value) := by
  cases m with
  | decimal digits hne hdigits hrange =>
      exact readNumber_decimal (hexFormat_decimal hne hdigits hzero)
        (scanInteger_digits hne hdigits (by decide)) hrange readInt
  | signed negative digits hne hdigits hrange =>
      exact readNumber_decimal (hexFormat_signed negative digits)
        (scanInteger_signed hne hdigits (by decide) negative) hrange readInt
  | hexadecimal digits hne hdigits hrange =>
      apply readNumber_hex
      simp only [Numeral.text, hexFormat, sscanf, if_true,
        scanInteger_digits hne hdigits (by decide)]

theorem value_of_text (h : m.text = ['0']) : m.value = 0 := by
  cases m with
  | decimal digits hne hdigits hrange =>
      obtain rfl : digits = ['0'] := h
      rfl
  | signed negative digits hne hdigits hrange =>
      cases negative <;> simp [Numeral.text] at h
  | hexadecimal digits hne hdigits hrange => simp [Numeral.text] at h

/-! ## The loop -/

/-- What is written for a numeral, if `readInt` has been the value before. -/
def written (readInt : ℤ) (m : Numeral) : ℤ := if m.text = ['0'] then readInt else m.value

theorem readNumber_numeral (m : Numeral) (readInt : ℤ) :
    (readNumber m.text readInt).1 ≠ 0 ∧ (readNumber m.text readInt).2 = written readInt m := by
  unfold written
  by_cases hzero : m.text = ['0']
  · rw [if_pos hzero, hzero, readNumber_zero]
    exact ⟨Int.neg_ne_zero.mpr Int.one_ne_zero, rfl⟩
  · rw [if_neg hzero, readNumber_text hzero]
    exact ⟨Int.one_ne_zero, rfl⟩

theorem text_ne_nil (m : Numeral) : m.text ≠ [] := by
  cases m with
  | decimal digits hne hdigits hrange => exact hne
  | signed | hexadecimal => exact List.cons_ne_nil _ _

theorem comma_not_mem (m : Numeral) : ∀ c ∈ m.text, decide (c ≠ ',') = true := by
  have hdigit : ∀ {base c}, base ≤ 16 → isDigit base c = true → c ≠ ',' := by
    rintro base c hbase h rfl
    rw [isDigit, decide_eq_true_iff] at h
    have hcomma : digitValue ',' = 16 := by decide
    omega
  intro c hc
  rw [decide_eq_true_iff]
  cases m with
  | decimal digits hne hdigits hrange => exact hdigit (by decide) (hdigits c hc)
  | signed negative digits hne hdigits hrange =>
      rcases List.mem_cons.mp hc with rfl | hc
      · cases negative <;> decide
      · exact hdigit (by decide) (hdigits c hc)
  | hexadecimal digits hne hdigits hrange =>
      rcases List.mem_cons.mp hc with rfl | hc
      · decide
      · rcases List.mem_cons.mp hc with rfl | hc
        · decide
        · exact hdigit (by decide) (hdigits c hc)

theorem untilComma_text (m : Numeral) : untilComma m.text = m.text :=
  List.takeWhile_eq_self_iff.mpr (comma_not_mem m)

theorem behindComma_text (m : Numeral) : behindComma m.text = none := by
  rw [behindComma, List.dropWhile_eq_nil_iff.mpr (comma_not_mem m)]
  rfl

theorem untilComma_append (m : Numeral) (rest : List Char) :
    untilComma (m.text ++ ',' :: rest) = m.text := by
  rw [untilComma, List.takeWhile_append_of_pos (comma_not_mem m),
    List.takeWhile_cons_of_neg (by decide), List.append_nil]

theorem behindComma_append (m : Numeral) (rest : List Char) :
    behindComma (m.text ++ ',' :: rest) = some rest := by
  rw [behindComma, List.dropWhile_append_of_pos (comma_not_mem m),
    List.dropWhile_cons_of_neg (by decide)]
  rfl

theorem message_ne_nil (m : Numeral) (ms : List Numeral) : message (m :: ms) ≠ [] := by
  cases ms with
  | nil => exact text_ne_nil m
  | cons m' ms => exact List.append_ne_nil_of_left_ne_nil (text_ne_nil m) _

/-- The values that are written. -/
def writes (readInt : ℤ) : List Numeral → List ℤ
  | [] => []
  | m :: ms => written readInt m :: writes (written readInt m) ms

def dacEvents (channel : ℤ) (values : List ℤ) : List Event :=
  values.flatMap fun v => [.writeDAC channel v, .waitTick channel]

/-- The loop makes one round for each numeral. -/
theorem parseLoop_message (channel readInt : ℤ) (m : Numeral) (ms : List Numeral) {fuel : ℕ}
    (hfuel : (m :: ms).length ≤ fuel) : parseLoop channel fuel (message (m :: ms)) readInt =
      some (dacEvents channel (writes readInt (m :: ms))) := by
  induction ms generalizing m readInt fuel with
  | nil =>
      obtain ⟨hresult, hvalue⟩ := readNumber_numeral m readInt
      obtain ⟨fuel, rfl⟩ : ∃ k, fuel = k + 1 := ⟨fuel - 1, by simp at hfuel; omega⟩
      simp only [message, parseLoop, untilComma_text, behindComma_text, if_neg hresult, hvalue]
      rfl
  | cons m' ms ih =>
      obtain ⟨hresult, hvalue⟩ := readNumber_numeral m readInt
      obtain ⟨fuel, rfl⟩ : ∃ k, fuel = k + 1 := ⟨fuel - 1, by simp at hfuel; omega⟩
      have hrest : (m' :: ms).length ≤ fuel := by
        simp only [List.length_cons] at hfuel ⊢
        omega
      have hpos : (message (m' :: ms)).length > 0 := List.length_pos_iff.mpr (message_ne_nil m' ms)
      simp only [message, parseLoop, untilComma_append, behindComma_append, if_neg hresult, hvalue,
        if_pos hpos, ih _ m' hrest]
      rfl

theorem dacEvents_inj {values values' : List ℤ} :
    dacEvents channel values = dacEvents channel values' ↔ values = values' := by
  constructor
  · intro h
    induction values generalizing values' with
    | nil =>
        cases values' with
        | nil => rfl
        | cons v values' => cases h
    | cons v values ih =>
        cases values' with
        | nil => cases h
        | cons v' values' =>
            simp only [dacEvents, List.flatMap_cons, List.cons_append, List.nil_append,
              List.cons.injEq, Event.writeDAC.injEq, true_and] at h
            rw [h.1, ih h.2]
  · rintro rfl
    rfl

/-- The events of a message that is written as it is. -/
theorem flatMap_value (ms : List Numeral) :
    (ms.flatMap fun m => [.writeDAC channel m.value, .waitTick channel]) =
      dacEvents channel (ms.map Numeral.value) := by
  rw [dacEvents, List.flatMap_map]

theorem right_iff_writes : Right channel (m :: ms) ↔
    ∀ readInt, writes readInt (m :: ms) = (m :: ms).map Numeral.value := by
  constructor
  · intro h readInt
    have hwrites := h readInt _ le_rfl
    rw [parseLoop_message channel readInt m ms le_rfl, flatMap_value, Option.some.injEq] at hwrites
    exact dacEvents_inj.mp hwrites
  · intro h readInt fuel hfuel
    rw [parseLoop_message channel readInt m ms hfuel, flatMap_value, h readInt]

theorem written_eq_iff : written readInt m = m.value ↔ (m.text = ['0'] → readInt = 0) := by
  unfold written
  split
  · next hzero => simp [hzero, value_of_text hzero]
  · next hzero => simp [hzero]

/-- A numeral `0` comes right only behind a zero. -/
theorem writes_eq_iff : writes readInt (m :: ms) = (m :: ms).map Numeral.value ↔
    (m.text = ['0'] → readInt = 0) ∧
      (m :: ms).IsChain fun a b => b.text = ['0'] → a.value = 0 := by
  induction ms generalizing m readInt with
  | nil => simp [writes, written_eq_iff]
  | cons m' ms ih =>
      rw [writes, List.map_cons, List.cons.injEq, written_eq_iff, List.isChain_cons_cons]
      apply and_congr_right
      intro hzero
      rw [written_eq_iff.mpr hzero]
      exact ih

/-- A list of numerals is written as it is exactly if the first one is not `0`, and each other `0`
comes directly behind a numeral with the value zero. -/
theorem fifo_right_iff (channel : ℤ) (m : Numeral) (ms : List Numeral) : Right channel (m :: ms) ↔
    m.text ≠ ['0'] ∧ (m :: ms).IsChain fun a b => b.text = ['0'] → a.value = 0 := by
  rw [right_iff_writes]
  constructor
  · intro h
    obtain ⟨hzero, hchain⟩ := writes_eq_iff.mp (h 1)
    exact ⟨fun htext => absurd (hzero htext) Int.one_ne_zero, hchain⟩
  · rintro ⟨hzero, hchain⟩ readInt
    exact writes_eq_iff.mpr ⟨fun htext => absurd htext hzero, hchain⟩

def five : Numeral :=
  .decimal ['5'] (by decide) (List.forall_mem_singleton.mpr (by decide))
    ⟨by decide, by decide⟩

def zero : Numeral :=
  .decimal ['0'] (by decide) (List.forall_mem_singleton.mpr (by decide))
    ⟨by decide, by decide⟩

/-- For the message `5,0` the value 5 is written twice. -/
theorem fifo_wrong_zero : message [five, zero] = "5,0".toList ∧
    (∀ readInt fuel, 2 ≤ fuel → parseLoop 2 fuel (message [five, zero]) readInt =
      some [.writeDAC 2 5, .waitTick 2, .writeDAC 2 5, .waitTick 2]) ∧
    ¬ Right 2 [five, zero] := by
  refine ⟨by decide, fun readInt fuel hfuel => parseLoop_message 2 readInt five [zero] hfuel, ?_⟩
  intro h
  have hwrites := right_iff_writes.mp h 0
  exact absurd hwrites (by decide)

end PthreadBenchmark.CpapDac
