import Mathlib.Data.Nat.Notation
import Mathlib.Data.List.TakeWhile

/-! # Strings in byte arrays

A string ends before the first zero byte of its array. -/

namespace PthreadBenchmark

namespace CString

variable {buf src t : List UInt8} {size k : ℕ}

def text (buf : List UInt8) : List UInt8 := buf.takeWhile (· ≠ 0)

def strlen (buf : List UInt8) : ℕ := (text buf).length

/-- Exactly `n` bytes of `dst` are written: the string in `src`, cut off behind `n` bytes, and zero
bytes behind it if it is shorter. -/
def strncpy (dst src : List UInt8) (n : ℕ) : List UInt8 :=
  text (src.take n) ++ List.replicate (n - strlen (src.take n)) 0 ++ dst.drop n

/-- A string without the zero byte behind it. -/
abbrev Str := {t : List UInt8 // 0 ∉ t}

/-- The string that `snprintf` leaves in an array of `size` bytes. -/
def snprintf (size : ℕ) (t : List UInt8) : List UInt8 := t.take (size - 1)

/-- `strncmp` returns 0. -/
def StrncmpEq (a b : List UInt8) (n : ℕ) : Prop := (text a).take n = (text b).take n

instance (a b : List UInt8) (n : ℕ) : Decidable (StrncmpEq a b n) :=
  inferInstanceAs (Decidable ((text a).take n = (text b).take n))

theorem zero_not_mem_text (buf : List UInt8) : 0 ∉ text buf := fun h => by
  simpa using List.mem_takeWhile_imp h

theorem take_strlen (buf : List UInt8) : buf.take (strlen buf) = text buf :=
  (List.prefix_iff_eq_take.mp (List.takeWhile_prefix _)).symm

theorem strlen_eq_zero_iff : strlen buf = 0 ↔ text buf = [] := List.length_eq_zero_iff

theorem text_append_replicate (ht : 0 ∉ t) (k : ℕ) : text (t ++ List.replicate k 0) = t := by
  have hall : ∀ x ∈ t, decide (x ≠ 0) = true := by
    intro x hx
    rw [decide_eq_true_iff]
    rintro rfl
    exact ht hx
  rw [text, List.takeWhile_append_of_pos hall]
  cases k <;> simp [List.replicate_succ]

theorem text_eq_self (ht : 0 ∉ t) : text t = t := by
  simpa using text_append_replicate ht 0

theorem text_take (n : ℕ) : text (buf.take n) = (text buf).take n := List.take_takeWhile.symm

/-- A comparison with the whole of `t`. -/
theorem strncmpEq_iff (hb : 0 ∉ t) : StrncmpEq buf t t.length ↔ t <+: text buf := by
  rw [StrncmpEq, text_eq_self hb, List.take_length, List.prefix_iff_eq_take]
  exact eq_comm

theorem strncpy_length (hsrc : 0 ∉ src) :
    strncpy buf src src.length = src ++ buf.drop src.length := by
  simp [strncpy, strlen, text_eq_self hsrc]

/-- An array with zero bytes behind its string. -/
structure Padded (size : ℕ) (buf : List UInt8) : Prop where
  strlen_lt : strlen buf < size
  eq_append : buf = text buf ++ List.replicate (size - strlen buf) 0

theorem padded_append (ht : 0 ∉ t) (hlen : t.length < size) :
    Padded size (t ++ List.replicate (size - t.length) 0) := by
  have htext := text_append_replicate ht (size - t.length)
  exact ⟨by rwa [strlen, htext], by rw [strlen, htext]⟩

theorem padded_replicate (hsize : 0 < size) : Padded size (List.replicate size 0) := by
  simpa using padded_append (t := []) (by simp) hsize

theorem Padded.strncpy_eq (h : Padded size buf) (hsrc : 0 ∉ src) :
    strncpy buf src src.length = (src ++ (text buf).drop src.length) ++
      List.replicate (size - (src ++ (text buf).drop src.length).length) 0 := by
  have hlt := h.strlen_lt
  rw [strncpy_length hsrc]
  conv => lhs; rw [h.eq_append]
  rw [List.drop_append, List.drop_replicate, List.append_assoc]
  congr 3
  rw [List.length_append, List.length_drop]
  rw [strlen] at hlt ⊢
  omega

theorem zero_not_mem_splice (hsrc : 0 ∉ src) : 0 ∉ src ++ (text buf).drop src.length := by
  intro hmem
  rcases List.mem_append.mp hmem with hmem | hmem
  · exact hsrc hmem
  · exact zero_not_mem_text buf (List.mem_of_mem_drop hmem)

/-- The copy is spliced into a string that is longer. -/
theorem Padded.text_strncpy (h : Padded size buf) (hsrc : 0 ∉ src) :
    text (strncpy buf src src.length) = src ++ (text buf).drop src.length := by
  rw [h.strncpy_eq hsrc]
  exact text_append_replicate (zero_not_mem_splice hsrc) _

theorem Padded.strncpy (h : Padded size buf) (hsrc : 0 ∉ src) (hlen : src.length < size) :
    Padded size (strncpy buf src src.length) := by
  have hlt := h.strlen_lt
  rw [h.strncpy_eq hsrc]
  apply padded_append (zero_not_mem_splice hsrc)
  rw [List.length_append, List.length_drop]
  rw [strlen] at hlt
  omega

end CString

end PthreadBenchmark
