import PthreadBenchmark.CfgSock.Model
import Mathlib.Algebra.Order.Ring.Int
import Mathlib.Data.List.TakeDrop

/-! # What `cfgSockGetValue` returns

The request and the reply share one buffer, and only the beginning of the reply is compared with
`"NULL"`. -/

namespace PthreadBenchmark.CfgSock

open CString

variable {r : Returns} {s : Client} {pSection pKey pDefault : Option Str}

/-- The reply that is received to a request, if there is a request. -/
def reply (r : Returns) (pSection pKey pDefault : Option Str) : Option (List UInt8) :=
  if pSection = none ∧ pKey = none then none
  else if r.sendto = (getCommand pSection pKey pDefault).length then r.recv
  else none

/-- The string in the buffer to which `p` points is `t`. -/
def PointsTo (s : Client) (p : Pointer) (t : List UInt8) : Prop :=
  ∃ i, p = .confBuf i ∧ s.sConfBuf i = t

/-- The string of the datagram, or the default for `"NULL"`. -/
def AnsweredWith (pDefault : Option Str) (datagram : List UInt8) (result : Client × Pointer) :
    Prop :=
  if text datagram = null then result.2 = .ofDefault pDefault
  else PointsTo result.1 result.2 (text datagram)

/-- The reply that has been received, or the default. -/
def Answered (r : Returns) (pSection pKey pDefault : Option Str) (result : Client × Pointer) :
    Prop :=
  match reply r pSection pKey pDefault with
  | some datagram => AnsweredWith pDefault datagram result
  | none => result.2 = .ofDefault pDefault

/-- A request is made and a datagram received for it, whose string fits into the buffer and begins
with `"NULL"` only if it is that. Without section and key there is no request, and the result is
right if there is no default either. -/
def Served (r : Returns) (pSection pKey pDefault : Option Str) : Prop :=
  if pSection = none ∧ pKey = none then pDefault = none
  else r.sendto = (getCommand pSection pKey pDefault).length ∧
    ∃ datagram ∈ r.recv, strlen datagram < bufSize ∧ (null <+: text datagram → text datagram = null)

/-! ## The three ways through `cfgSockRequest` -/

theorem ne_ofDefault (i : ℕ) (pDefault : Option Str) : .confBuf i ≠ Pointer.ofDefault pDefault := by
  cases pDefault <;> simp [Pointer.ofDefault]

/-- What is in the buffer behind the request. -/
def content (r : Returns) (pSection pKey pDefault : Option Str) : List UInt8 :=
  let command := getCommand pSection pKey pDefault
  if r.sendto = command.length then
    r.recv.elim [] fun datagram => text (datagram.take (bufSize - 1))
  else command

theorem sConfBuf_request (r : Returns) (pSection pKey pDefault : Option Str)
    (hflag : s.siInitFlag ≠ 0) (i : ℕ) :
    let command := getCommand pSection pKey pDefault
    (cfgSockRequest r command i bufSize (s.next.store i command)).1.sConfBuf i =
      content r pSection pKey pDefault := by
  have hopen : (s.next.store i (getCommand pSection pKey pDefault)).siInitFlag ≠ 0 := hflag
  simp only [cfgSockRequest, cfgSockSend, content, if_neg hopen]
  by_cases hsend : r.sendto = (getCommand pSection pKey pDefault).length
  · have hnonneg : 0 ≤ r.sendto := hsend.ge.trans' (Int.natCast_nonneg _)
    simp only [hsend, ne_eq, not_true_eq_false, if_false, Int.natCast_nonneg, if_true, cfgSockRecv,
      if_neg hopen]
    cases hrecv : r.recv with
    | none => simp [Client.store]
    | some datagram =>
        simp only [Client.store, Option.elim_some]
        rw [Function.update_self]
        split
        · rfl
        · next hempty =>
            have hnil := List.length_eq_zero_iff.mp (Nat.eq_zero_of_not_pos hempty)
            rw [hnil]
            rfl
  · simp [hsend, Client.store]

/-- The default is returned where the buffer begins with `"NULL"`. -/
theorem getValue_of_request (r : Returns) (pDefault : Option Str) (hflag : s.siInitFlag ≠ 0)
    (hguard : ¬ (pSection = none ∧ pKey = none)) :
    ∃ s', s'.sConfBuf s.sBufIndex = content r pSection pKey pDefault ∧
      cfgSockGetValue r pSection pKey pDefault s =
        if StrncmpEq (content r pSection pKey pDefault) null 4 then (s', .ofDefault pDefault)
        else (s', .confBuf s.sBufIndex) := by
  have hcontent := sConfBuf_request r pSection pKey pDefault hflag s.sBufIndex
  refine ⟨_, hcontent, ?_⟩
  have hskip : ¬ (s.siInitFlag = 0 ∨ pSection = none ∧ pKey = none) := by simp [hflag, hguard]
  simp only [cfgSockGetValue, if_neg hskip]
  rw [hcontent]

theorem strncmpEq_null_iff {t : List UInt8} : StrncmpEq t null 4 ↔ null <+: text t :=
  strncmpEq_iff (t := null) (by decide)

theorem exists_request (letter : UInt8) (hguard : ¬ (pSection = none ∧ pKey = none))
    (value : List UInt8) : ∃ rest, request letter pSection pKey value = letter :: rest := by
  cases pSection with
  | some section_ => cases pKey <;> exact ⟨_, rfl⟩
  | none =>
      cases pKey with
      | some key => exact ⟨_, rfl⟩
      | none => exact absurd ⟨rfl, rfl⟩ hguard

/-- A request does not begin with `"NULL"`. -/
theorem not_strncmpEq_command (hguard : ¬ (pSection = none ∧ pKey = none)) :
    ¬ StrncmpEq (getCommand pSection pKey pDefault) null 4 := by
  rw [strncmpEq_null_iff]
  intro hstarts
  obtain ⟨rest, hrest⟩ := exists_request 82 hguard (pDefault.elim null Subtype.val)
  rw [getCommand, hrest] at hstarts
  simp [snprintf, bufSize, text, null] at hstarts

/-- What is left of a reply in the buffer begins with `"NULL"` where the reply does. -/
theorem strncmpEq_reply_iff (datagram : List UInt8) :
    StrncmpEq (text (datagram.take (bufSize - 1))) null 4 ↔ null <+: text datagram := by
  rw [strncmpEq_null_iff, text_eq_self (zero_not_mem_text _), text_take, List.prefix_take_iff]
  exact and_iff_left (by decide)

theorem text_take_eq_iff (datagram : List UInt8) :
    text (datagram.take (bufSize - 1)) = text datagram ↔ strlen datagram < bufSize := by
  rw [text_take, List.take_eq_self_iff, strlen, bufSize]
  omega

/-- What becomes of a reply in the buffer `i`. -/
theorem answeredWith_iff {s' : Client} {i : ℕ} {datagram : List UInt8}
    (hbuf : s'.sConfBuf i = text (datagram.take (bufSize - 1))) :
    AnsweredWith pDefault datagram
        (if StrncmpEq (text (datagram.take (bufSize - 1))) null 4 then (s', .ofDefault pDefault)
        else (s', .confBuf i)) ↔
      strlen datagram < bufSize ∧ (null <+: text datagram → text datagram = null) := by
  by_cases hstarts : null <+: text datagram
  · rw [if_pos ((strncmpEq_reply_iff datagram).mpr hstarts)]
    by_cases hnull : text datagram = null
    · have hshort : strlen datagram < bufSize := by
        rw [strlen, hnull]
        decide
      simp [AnsweredWith, hnull, hshort]
    · have hpoints : ¬ PointsTo s' (Pointer.ofDefault pDefault) (text datagram) := by
        rintro ⟨i, hi, -⟩
        exact ne_ofDefault i pDefault hi.symm
      simp [AnsweredWith, hnull, hstarts, hpoints]
  · have hnull : text datagram ≠ null := by
      rintro hnull
      exact hstarts (hnull ▸ List.prefix_refl _)
    have hpoints : PointsTo s' (.confBuf i) (text datagram) ↔ strlen datagram < bufSize := by
      rw [← text_take_eq_iff, ← hbuf]
      simp [PointsTo]
    rw [if_neg (mt (strncmpEq_reply_iff datagram).mp hstarts), AnsweredWith, if_neg hnull, hpoints]
    simp [hstarts]

/-! ## Result -/

/-- For any section, key and default, any reply of the server and anything that `sendto` and `recv`
return: an initialised client gets the reply, or its default for a reply `"NULL"` and where there
is none, if and only if the request is served. -/
theorem answered_iff (r : Returns) (pSection pKey pDefault : Option Str) (s : Client)
    (hflag : s.siInitFlag = 1) :
    Answered r pSection pKey pDefault (cfgSockGetValue r pSection pKey pDefault s) ↔
      Served r pSection pKey pDefault := by
  have hopen : s.siInitFlag ≠ 0 := by simp [hflag]
  by_cases hguard : pSection = none ∧ pKey = none
  · simp only [Answered, reply, Served, if_pos hguard, cfgSockGetValue]
    cases pDefault <;> simp [Pointer.ofDefault, hguard]
  · obtain ⟨s', hbuf, hget⟩ := getValue_of_request r pDefault hopen hguard
    rw [hget]
    simp only [Answered, reply, Served, if_neg hguard]
    by_cases hsend : r.sendto = (getCommand pSection pKey pDefault).length
    · have hrest : r.sendto = (getCommand pSection pKey pDefault).length ∧
          (∃ datagram ∈ r.recv, strlen datagram < bufSize ∧
            (null <+: text datagram → text datagram = null)) ↔
          ∃ datagram ∈ r.recv, strlen datagram < bufSize ∧
            (null <+: text datagram → text datagram = null) := and_iff_right hsend
      rw [if_pos hsend, hrest]
      cases hrecv : r.recv with
      | none =>
          have hempty : content r pSection pKey pDefault = [] := by simp [content, hsend, hrecv]
          rw [hempty, if_neg (by decide)]
          simp [ne_ofDefault]
      | some datagram =>
          have hreply : content r pSection pKey pDefault = text (datagram.take (bufSize - 1)) := by
            simp [content, hsend, hrecv]
          rw [hreply] at hbuf ⊢
          simpa using answeredWith_iff hbuf
    · have hcommand : content r pSection pKey pDefault = getCommand pSection pKey pDefault := by
        simp [content, hsend]
      rw [hcommand, if_neg (not_strncmpEq_command hguard), if_neg hsend]
      simp [hsend, ne_ofDefault]

/-- A client that has been set up. -/
def opened : Client := { init with siInitFlag := 1, sConfFd := 3, atomic := true }

/-- The key `"k"`. -/
def key : Option Str := some ⟨[107], by decide⟩

/-- The server answers `"R k NULL"` with `"v"`. -/
theorem answered_iff_value : Served ⟨3, 0, 8, some [118]⟩ none key none ∧
    Answered ⟨3, 0, 8, some [118]⟩ none key none
      (cfgSockGetValue ⟨3, 0, 8, some [118]⟩ none key none opened) := by
  have hserved : Served ⟨3, 0, 8, some [118]⟩ none key none := by
    have hguard : ¬ ((none : Option Str) = none ∧ key = none) := by simp [key]
    rw [Served, if_neg hguard]
    exact ⟨by decide, [118], rfl, by decide, by decide⟩
  exact ⟨hserved, (answered_iff _ _ _ _ opened rfl).mpr hserved⟩

/-- A request that cannot be sent is returned as the value. -/
theorem request_returned : ∃ s' : Client,
    cfgSockGetValue ⟨3, 0, -1, none⟩ none key none opened = (s', .confBuf 0) ∧
      s'.sConfBuf 0 = getCommand none key none ∧
      ¬ Answered ⟨3, 0, -1, none⟩ none key none
        (cfgSockGetValue ⟨3, 0, -1, none⟩ none key none opened) := by
  refine ⟨_, rfl, rfl, fun h => ?_⟩
  have hdefault : (Pointer.confBuf 0) = .null := h
  cases hdefault

end PthreadBenchmark.CfgSock
