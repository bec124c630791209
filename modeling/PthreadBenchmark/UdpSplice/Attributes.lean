import PthreadBenchmark.Shared.LittleEndian
import Mathlib.Data.Int.Notation

/-! # Netlink attributes

The macros of the Linux headers, and the walk with them over the attributes of a message. The
memory is the buffer of the message, and a pointer is a place in it. -/

namespace PthreadBenchmark.UdpSplice

open LittleEndian

/-- `sizeof(struct rtattr)`. -/
def sizeofRtattr : ℕ := 4

/-- `RTA_ALIGN`, the length rounded up to `RTA_ALIGNTO`. -/
def rtaAlign (len : ℕ) : ℕ := (len + 4 - 1) / 4 * 4

/-- `RTA_LENGTH`. -/
def rtaLength (len : ℕ) : ℕ := rtaAlign sizeofRtattr + len

/-- `RTA_DATA`. -/
def rtaData (rta : ℕ) : ℕ := rta + rtaLength 0

/-- `rta->rta_len`. -/
def rtaLen (m : ℕ → UInt8) (rta : ℕ) : ℕ := load m rta 2

/-- `rta->rta_type`. -/
def rtaType (m : ℕ → UInt8) (rta : ℕ) : ℕ := load m (rta + 2) 2

/-- `RTA_OK`. -/
def RtaOk (m : ℕ → UInt8) (rta : ℕ) (len : ℤ) : Prop :=
  sizeofRtattr ≤ len ∧ sizeofRtattr ≤ rtaLen m rta ∧ rtaLen m rta ≤ len

instance (m : ℕ → UInt8) (rta : ℕ) (len : ℤ) : Decidable (RtaOk m rta len) :=
  inferInstanceAs (Decidable (_ ∧ _))

variable {m m' : ℕ → UInt8} {rta n k : ℕ} {len : ℤ}

theorem le_rtaAlign (len : ℕ) : len ≤ rtaAlign len := by
  unfold rtaAlign
  omega

/-- An attribute that the walk comes to. -/
structure Attribute where
  rta : ℕ
  type : ℕ
  len : ℕ
  deriving DecidableEq, Repr

def Attribute.read (m : ℕ → UInt8) (rta : ℕ) : Attribute := ⟨rta, rtaType m rta, rtaLen m rta⟩

/-- `for (; RTA_OK(rta, len); rta = RTA_NEXT(rta, len))`: the attributes in the area, and the
length that is left behind them. It gives nothing if the fuel does not do. -/
def attributes (m : ℕ → UInt8) : ℕ → ℕ → ℤ → Option (List Attribute × ℤ)
  | 0, _, _ => none
  | fuel + 1, rta, len =>
    if RtaOk m rta len then
      (attributes m fuel (rta + rtaAlign (rtaLen m rta)) (len - rtaAlign (rtaLen m rta))).map
        fun (as, left) => (.read m rta :: as, left)
    else some ([], len)

/-- The area from `rta` on has the attributes `as`, and `left` bytes behind them. -/
inductive Area (m : ℕ → UInt8) : ℕ → ℤ → List Attribute → ℤ → Prop where
  | done {rta : ℕ} {len : ℤ} (h : ¬ RtaOk m rta len) : Area m rta len [] len
  | next {rta : ℕ} {len left : ℤ} {as : List Attribute} (h : RtaOk m rta len)
      (rest : Area m (rta + rtaAlign (rtaLen m rta)) (len - rtaAlign (rtaLen m rta)) as left) :
      Area m rta len (.read m rta :: as) left

variable {as as' : List Attribute} {left left' : ℤ} {fuel : ℕ} {a : Attribute}

/-- Each attribute takes at least its header. -/
theorem RtaOk.next_lt (h : RtaOk m rta len) :
    len - rtaAlign (rtaLen m rta) + sizeofRtattr ≤ len := by
  have hle := le_rtaAlign (rtaLen m rta)
  have hlen := h.2.1
  omega

/-- The walk ends. -/
theorem exists_area (m : ℕ → UInt8) (rta : ℕ) (len : ℤ) : ∃ as left, Area m rta len as left := by
  by_cases h : RtaOk m rta len
  · obtain ⟨as, left, hrest⟩ :=
      exists_area m (rta + rtaAlign (rtaLen m rta)) (len - rtaAlign (rtaLen m rta))
    exact ⟨_, _, .next h hrest⟩
  · exact ⟨_, _, .done h⟩
termination_by len.toNat
decreasing_by
  have hlt := h.next_lt
  have hlen := h.1
  simp only [sizeofRtattr] at hlt hlen
  omega

/-- The walk with enough fuel finds the attributes of the area. -/
theorem attributes_of_area (h : Area m rta len as left) (hfuel : len.toNat / 4 < fuel) :
    attributes m fuel rta len = some (as, left) := by
  induction h generalizing fuel with
  | done h =>
      obtain ⟨fuel, rfl⟩ := Nat.exists_eq_succ_of_ne_zero (Nat.ne_zero_of_lt hfuel)
      simp only [attributes, if_neg h]
  | @next rta len left as h rest ih =>
      obtain ⟨fuel, rfl⟩ := Nat.exists_eq_succ_of_ne_zero (Nat.ne_zero_of_lt hfuel)
      have hlt := h.next_lt
      have hlen := h.1
      simp only [sizeofRtattr] at hlt hlen
      have hrest : attributes m fuel (rta + rtaAlign (rtaLen m rta))
          (len - rtaAlign (rtaLen m rta)) = some (as, left) := ih (by omega)
      simp only [attributes, if_pos h, hrest, Option.map_some]

theorem Area.unique (h : Area m rta len as left) (h' : Area m rta len as' left') :
    as = as' ∧ left = left' := by
  have hsome := attributes_of_area h (Nat.lt_succ_self _)
  rw [attributes_of_area h' (Nat.lt_succ_self _)] at hsome
  simpa [eq_comm] using hsome

/-- The attributes lie in the area, with their payload. -/
theorem Area.bounds (h : Area m rta len as left) (ha : a ∈ as) :
    rta ≤ a.rta ∧ sizeofRtattr ≤ a.len ∧ (a.rta + a.len : ℤ) ≤ rta + len ∧
      a = .read m a.rta := by
  induction h with
  | done h => cases ha
  | @next rta len left as h rest ih =>
      rcases List.mem_cons.mp ha with rfl | ha
      · exact ⟨Nat.le_refl _, h.2.1, by have := h.2.2; simp only [Attribute.read]; omega, rfl⟩
      · obtain ⟨hrta, hlen, hend, heq⟩ := ih ha
        exact ⟨by omega, hlen, by push_cast at hend ⊢; omega, heq⟩

end PthreadBenchmark.UdpSplice
