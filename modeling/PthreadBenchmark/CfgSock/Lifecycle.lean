import PthreadBenchmark.CfgSock.Model
import Mathlib.Algebra.Order.Ring.Int
import Mathlib.Data.List.Infix

/-! # The client is initialised, or it is not

A request that cannot be sent tears down one half of the client. -/

namespace PthreadBenchmark.CfgSock

open CString

variable {r : Returns} {s : Client} {c : Call}

/-- The client is either fully initialised or fully torn down, and `s_atomic` has not been
initialised while it was. -/
structure Consistent (s : Client) : Prop where
  flag : s.siInitFlag = 0 ∨ s.siInitFlag = 1
  fd : s.siInitFlag = 1 ↔ 0 ≤ s.sConfFd
  atomic : s.siInitFlag = 1 ↔ s.atomic = true
  once : s.reinits = 0

/-- The request that a call sends, except for the one inside of `cfgSockUninit`. -/
def command : Call → Option (List UInt8)
  | .init | .uninit => none
  | .setValue pSection pKey pValue =>
    if pSection = none ∧ pKey = none then none
    else pValue.map fun value => snprintf bufSize (request 87 pSection pKey value.1)
  | .getValue pSection pKey pDefault =>
    if pSection = none ∧ pKey = none then none else some (getCommand pSection pKey pDefault)
  | .saveFiles => some [115]

/-- The call comes to a `sendto` that does not return the length of the request. -/
def SendFails (s : Client) (call : Call × Returns) : Prop :=
  s.siInitFlag ≠ 0 ∧ ∃ t ∈ command call.1, call.2.sendto ≠ t.length

/-! ## What a request does to the client -/

/-- Nothing but the buffers is different. -/
structure SameState (s s' : Client) : Prop where
  flag : s'.siInitFlag = s.siInitFlag
  fd : s'.sConfFd = s.sConfFd
  atomic : s'.atomic = s.atomic
  reinits : s'.reinits = s.reinits

theorem SameState.consistent {s' : Client} (h : SameState s s') (hs : Consistent s) :
    Consistent s' where
  flag := by rw [h.flag]; exact hs.flag
  fd := by rw [h.flag, h.fd]; exact hs.fd
  atomic := by rw [h.flag, h.atomic]; exact hs.atomic
  once := h.reinits.trans hs.once

theorem sameState_recv (r : Returns) (i len : ℕ) (s : Client) :
    SameState s (cfgSockRecv r i len s).1 := by
  unfold cfgSockRecv
  split
  · exact ⟨rfl, rfl, rfl, rfl⟩
  · split <;> exact ⟨rfl, rfl, rfl, rfl⟩

/-- A request that is sent. -/
theorem sameState_request {t : List UInt8} (hsend : r.sendto = t.length) (i len : ℕ) (s : Client) :
    SameState s (cfgSockRequest r t i len s).1 := by
  unfold cfgSockRequest cfgSockSend
  by_cases hflag : s.siInitFlag = 0
  · simp only [if_pos hflag]
    exact ⟨rfl, rfl, rfl, rfl⟩
  · simp only [if_neg hflag, hsend, ne_eq, not_true_eq_false, if_false]
    split
    · exact sameState_recv r i len s
    · exact ⟨rfl, rfl, rfl, rfl⟩

/-- A request that is not sent closes the socket. -/
theorem torn_of_request {t : List UInt8} (hflag : s.siInitFlag ≠ 0) (hsend : r.sendto ≠ t.length)
    (i len : ℕ) : (cfgSockRequest r t i len s).1 = { s with sConfFd := -1, siInitFlag := 0 } := by
  have hneg : ¬ (0 : ℤ) ≤ -1 := by decide
  simp only [cfgSockRequest, cfgSockSend, if_neg hflag, if_pos hsend, if_neg hneg]

theorem reinits_request (t : List UInt8) (i len : ℕ) (s : Client) :
    (cfgSockRequest r t i len s).1.reinits = s.reinits := by
  by_cases hsend : r.sendto = t.length
  · exact (sameState_request hsend i len s).reinits
  · by_cases hflag : s.siInitFlag = 0
    · simp [cfgSockRequest, cfgSockSend, hflag]
    · rw [torn_of_request hflag hsend]

/-! ## Calls -/

/-- A call that makes a request. -/
theorem after_of_command {t : List UInt8} (hflag : s.siInitFlag ≠ 0) (ht : t ∈ command c) :
    ∃ s', SameState s s' ∧ s.after (c, r) = (cfgSockRequest r t s.sBufIndex bufSize s').1 := by
  cases c with
  | init => cases ht
  | uninit => cases ht
  | saveFiles =>
      cases ht
      exact ⟨s.next, ⟨rfl, rfl, rfl, rfl⟩, by simp [Client.after, cfgSockSaveFiles, hflag]⟩
  | setValue pSection pKey pValue =>
      refine ⟨s.next.store s.sBufIndex t, ⟨rfl, rfl, rfl, rfl⟩, ?_⟩
      cases pValue with
      | none => simp [command] at ht
      | some value =>
          by_cases hnone : pSection = none ∧ pKey = none
          · simp [command, hnone] at ht
          · obtain rfl : snprintf bufSize (request 87 pSection pKey value.1) = t := by
              simpa [command, hnone] using ht
            simp [Client.after, cfgSockSetValue, hflag, hnone]
  | getValue pSection pKey pDefault =>
      refine ⟨s.next.store s.sBufIndex t, ⟨rfl, rfl, rfl, rfl⟩, ?_⟩
      by_cases hnone : pSection = none ∧ pKey = none
      · simp [command, hnone] at ht
      · obtain rfl : getCommand pSection pKey pDefault = t := by
          simpa [command, hnone] using ht
        simp only [Client.after, cfgSockGetValue, hflag, hnone, or_self, if_false]
        split <;> rfl

/-- The other calls, except for the two that set the client up and tear it down. -/
theorem after_of_no_command (hinit : c ≠ .init) (huninit : c ≠ .uninit)
    (hnone : s.siInitFlag = 0 ∨ command c = none) : s.after (c, r) = s := by
  cases c with
  | init => exact absurd rfl hinit
  | uninit => exact absurd rfl huninit
  | saveFiles =>
      have hflag : s.siInitFlag = 0 := hnone.resolve_right (by simp [command])
      simp [Client.after, cfgSockSaveFiles, hflag]
  | setValue pSection pKey pValue =>
      cases pValue with
      | none => rfl
      | some value =>
          have hguard : s.siInitFlag = 0 ∨ pSection = none ∧ pKey = none := by
            simpa [command] using hnone
          simp only [Client.after, cfgSockSetValue, if_pos hguard]
  | getValue pSection pKey pDefault =>
      have hguard : s.siInitFlag = 0 ∨ pSection = none ∧ pKey = none := by
        simpa [command] using hnone
      simp only [Client.after, cfgSockGetValue, if_pos hguard]

theorem Consistent.init (h : Consistent s) : Consistent (s.after (.init, r)) := by
  simp only [Client.after, cfgSockInit]
  by_cases hflag : s.siInitFlag = 0
  · have hatomic : s.atomic = false := by
      simpa [hflag] using h.atomic
    have hnot : ¬ s.siInitFlag ≠ 0 := not_not.mpr hflag
    rw [if_neg hnot]
    by_cases hsocket : r.socket < 0
    · rw [if_pos hsocket]
      exact ⟨h.flag, by simp [hflag, hsocket], h.atomic, h.once⟩
    · rw [if_neg hsocket]
      by_cases hmutex : r.mutexInit = 0
      · rw [if_neg (not_not.mpr hmutex)]
        exact ⟨.inr rfl, by simpa using hsocket, by simp, by simpa [hatomic] using h.once⟩
      · rw [if_pos hmutex]
        exact ⟨h.flag, by simp [hflag], h.atomic, h.once⟩
  · rw [if_pos hflag]
    exact h

theorem Consistent.uninit (h : Consistent s) : Consistent (s.after (.uninit, r)) := by
  simp only [Client.after, cfgSockUninit]
  split
  · exact h
  · next hflag =>
      refine ⟨.inl rfl, by simp, by simp, ?_⟩
      simp only [cfgSockSaveFiles, if_neg hflag, reinits_request]
      exact h.once

/-- Every call that comes to no failing `sendto` keeps the client consistent. -/
theorem Consistent.after (h : Consistent s) (hsent : ¬ SendFails s (c, r)) :
    Consistent (s.after (c, r)) := by
  by_cases hinit : c = .init
  · subst hinit
    exact h.init
  · by_cases huninit : c = .uninit
    · subst huninit
      exact h.uninit
    · by_cases hnone : s.siInitFlag = 0 ∨ command c = none
      · rw [after_of_no_command hinit huninit hnone]
        exact h
      · obtain ⟨hflag, hsome⟩ := not_or.mp hnone
        obtain ⟨t, ht⟩ := Option.ne_none_iff_exists'.mp hsome
        have hsend : r.sendto = t.length := by
          by_contra hne
          exact hsent ⟨hflag, t, ht, hne⟩
        obtain ⟨s', hsame, hafter⟩ := after_of_command (r := r) hflag ht
        rw [hafter]
        exact (sameState_request hsend _ _ _).consistent (hsame.consistent h)

/-- A call that comes to a failing `sendto` leaves `s_atomic` behind. -/
theorem Consistent.not_after (h : Consistent s) (hfails : SendFails s (c, r)) :
    ¬ Consistent (s.after (c, r)) := by
  obtain ⟨hflag, t, ht, hsend⟩ := hfails
  obtain ⟨s', hsame, hafter⟩ := after_of_command (r := r) hflag ht
  have hatomic : s.atomic = true := h.atomic.mp (h.flag.resolve_left hflag)
  rw [hafter, torn_of_request (hsame.flag.trans_ne hflag) hsend]
  intro htorn
  have hone := htorn.atomic.mpr (hsame.atomic.trans hatomic)
  exact zero_ne_one hone

/-! ## Results -/

theorem consistent_init : Consistent init := by
  constructor <;> simp [CfgSock.init]

theorem run_append (pre : List (Call × Returns)) (call : Call × Returns) :
    run (pre ++ [call]) = (run pre).after call := by
  rw [run, List.foldl_append]
  rfl

/-- For any sequence of calls and anything that the calls of the operating system return: the
client is consistent behind each call if and only if no request but those inside of `cfgSockUninit`
comes to a `sendto` that does not return its length. -/
theorem consistent_iff (calls : List (Call × Returns)) :
    (∀ pre, pre <+: calls → Consistent (run pre)) ↔
      ∀ pre call, pre ++ [call] <+: calls → ¬ SendFails (run pre) call := by
  constructor
  · intro hall pre call hpre hfails
    have hbefore := hall pre ((List.prefix_append _ _).trans hpre)
    have hafter := hall _ hpre
    rw [run_append] at hafter
    exact hbefore.not_after hfails hafter
  · intro hsent pre hpre
    induction pre using List.reverseRecOn with
    | nil => exact consistent_init
    | append_singleton pre call ih =>
        rw [run_append]
        exact (ih ((List.prefix_append _ _).trans hpre)).after (hsent pre call hpre)

/-- Calls in which the socket is 3 and everything is sent. -/
def sent (n : ℤ) : Returns := ⟨3, 0, n, some []⟩

/-- The client is set up, its request fails, and it is set up again. -/
theorem atomic_initialised_twice :
    ¬ Consistent (run [(.init, sent 0), (.saveFiles, sent (-1))]) ∧
      (run [(.init, sent 0), (.saveFiles, sent (-1)), (.init, sent 0)]).reinits = 1 := by
  refine ⟨fun h => ?_, by decide⟩
  have hatomic := h.atomic.mpr (by decide)
  revert hatomic
  decide

end PthreadBenchmark.CfgSock
