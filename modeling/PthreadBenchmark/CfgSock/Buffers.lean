import PthreadBenchmark.CfgSock.GetValue
import PthreadBenchmark.CfgSock.Lifecycle

/-! # The four buffers are taken in turn

What `cfgSockGetValue` returns is kept until its buffer is taken again. -/

namespace PthreadBenchmark.CfgSock

open CString

variable {r : Returns} {s s' s'' : Client} {i j : ℕ} {t : List UInt8}

/-- Only the buffer `i` is written, and a string that fits is left in it. -/
structure Writes (i : ℕ) (s s' : Client) : Prop where
  index : s'.sBufIndex = s.sBufIndex
  frame : ∀ j, j ≠ i → s'.sConfBuf j = s.sConfBuf j
  fits : (s.sConfBuf i).length < bufSize → (s'.sConfBuf i).length < bufSize

/-- A call takes no buffer, or the next one. -/
inductive Turn (s s' : Client) : Prop where
  | kept (hindex : s'.sBufIndex = s.sBufIndex) (hbuf : s'.sConfBuf = s.sConfBuf)
  | taken (h : Writes s.sBufIndex s.next s')

/-! ## What a request writes -/

theorem Writes.of_eq (hindex : s'.sBufIndex = s.sBufIndex) (hbuf : s'.sConfBuf = s.sConfBuf) :
    Writes i s s' :=
  ⟨hindex, fun j _ => congrFun hbuf j, fun h => by rwa [hbuf]⟩

theorem Writes.trans (h : Writes i s s') (h' : Writes i s' s'') : Writes i s s'' where
  index := h'.index.trans h.index
  frame j hj := (h'.frame j hj).trans (h.frame j hj)
  fits hfits := h'.fits (h.fits hfits)

theorem writes_store (ht : t.length < bufSize) : Writes i s (s.store i t) where
  index := rfl
  frame j hj := Function.update_of_ne hj _ _
  fits _ := by
    simp only [Client.store]
    rwa [Function.update_self]

theorem length_snprintf_lt (t : List UInt8) : (snprintf bufSize t).length < bufSize := by
  have hle : (snprintf bufSize t).length ≤ bufSize - 1 := List.length_take_le _ _
  have hpos : 0 < bufSize := by decide
  omega

theorem writes_send : Writes i s (cfgSockSend r t s).1 := by
  unfold cfgSockSend
  split
  · exact .of_eq rfl rfl
  · split <;> exact .of_eq rfl rfl

/-- One byte of the buffer is left for the end of the string. -/
theorem writes_recv : Writes i s (cfgSockRecv r i bufSize s).1 := by
  have hpos : 0 < bufSize := by decide
  unfold cfgSockRecv
  split
  · exact .of_eq rfl rfl
  · cases r.recv with
    | none => exact writes_store hpos
    | some datagram =>
        apply writes_store
        split
        · have htext : (text (datagram.take (bufSize - 1))).length ≤ bufSize - 1 :=
            (List.takeWhile_sublist _).length_le.trans (List.length_take_le _ _)
          omega
        · exact hpos

theorem writes_request : Writes i s (cfgSockRequest r t i bufSize s).1 := by
  simp only [cfgSockRequest]
  split
  · exact writes_send.trans writes_recv
  · exact writes_send

theorem Turn.of_command (ht : t.length < bufSize) (r : Returns) :
    Turn s (cfgSockRequest r t s.sBufIndex bufSize (s.next.store s.sBufIndex t)).1 :=
  .taken ((writes_store ht).trans writes_request)

/-! ## Calls -/

theorem turn_saveFiles : Turn s (cfgSockSaveFiles r s).1 := by
  unfold cfgSockSaveFiles
  split
  · exact .kept rfl rfl
  · exact .taken writes_request

theorem turn_getValue (pSection pKey pDefault : Option Str) :
    Turn s (cfgSockGetValue r pSection pKey pDefault s).1 := by
  simp only [cfgSockGetValue]
  split
  · exact .kept rfl rfl
  · have hturn := Turn.of_command (s := s)
      (length_snprintf_lt (request 82 pSection pKey (pDefault.elim null Subtype.val))) r
    split <;> exact hturn

theorem turn_setValue (pSection pKey pValue : Option Str) :
    Turn s (cfgSockSetValue r pSection pKey pValue s).1 := by
  cases pValue with
  | none => exact .kept rfl rfl
  | some value =>
      simp only [cfgSockSetValue]
      split
      · exact .kept rfl rfl
      · exact .of_command (length_snprintf_lt _) r

/-- No call takes more than one buffer. -/
theorem turn_after (s : Client) (call : Call × Returns) : Turn s (s.after call) := by
  obtain ⟨c, r⟩ := call
  cases c with
  | init =>
      simp only [Client.after, cfgSockInit]
      split
      · exact .kept rfl rfl
      · split
        · exact .kept rfl rfl
        · split <;> exact .kept rfl rfl
  | uninit =>
      simp only [Client.after, cfgSockUninit]
      split
      · exact .kept rfl rfl
      · cases turn_saveFiles (s := s) (r := r) with
        | kept hindex hbuf => exact .kept hindex hbuf
        | taken h => exact .taken (h.trans (.of_eq rfl rfl))
  | setValue pSection pKey pValue => exact turn_setValue pSection pKey pValue
  | getValue pSection pKey pDefault => exact turn_getValue pSection pKey pDefault
  | saveFiles => exact turn_saveFiles

/-! ## The turns of a buffer -/

theorem next_sBufIndex (s : Client) : s.next.sBufIndex = (s.sBufIndex + 1) % 4 :=
  Nat.and_two_pow_sub_one_eq_mod _ 2

/-- The index is that of a buffer, and every string fits into its buffer. -/
structure Valid (s : Client) : Prop where
  index : s.sBufIndex ≤ 3
  fits : ∀ j, (s.sConfBuf j).length < bufSize

theorem Turn.valid (h : Turn s s') (hs : Valid s) : Valid s' := by
  cases h with
  | kept hindex hbuf =>
      refine ⟨?_, fun j => ?_⟩
      · rw [hindex]
        exact hs.index
      · rw [hbuf]
        exact hs.fits j
  | taken hw =>
      refine ⟨?_, fun j => ?_⟩
      · rw [hw.index, next_sBufIndex]
        exact Nat.le_of_lt_succ (Nat.mod_lt _ (by decide))
      · by_cases hj : j = s.sBufIndex
        · rw [hj]
          exact hw.fits (hs.fits _)
        · rw [hw.frame j hj]
          exact hs.fits j

/-- How many buffers are taken before `i` is. -/
def turnsBefore (i : ℕ) (s : Client) : ℕ := (i + 4 - s.sBufIndex) % 4

/-- A buffer that is not the next one is left alone, and comes at most one turn nearer. -/
theorem Turn.keeps (h : Turn s s') (hi : 0 < turnsBefore i s) :
    s'.sConfBuf i = s.sConfBuf i ∧ turnsBefore i s ≤ turnsBefore i s' + 1 := by
  unfold turnsBefore at hi ⊢
  cases h with
  | kept hindex hbuf =>
      refine ⟨congrFun hbuf i, ?_⟩
      rw [hindex]
      exact Nat.le_succ _
  | taken hw =>
      have hne : i ≠ s.sBufIndex := by
        rintro rfl
        simp at hi
      have hindex : s'.sBufIndex = (s.sBufIndex + 1) % 4 := hw.index.trans (next_sBufIndex s)
      refine ⟨hw.frame i hne, ?_⟩
      rw [hindex]
      omega

/-- The induction is on the calls, each of which brings `i` one turn nearer. -/
theorem foldl_keeps (next : List (Call × Returns)) (s : Client)
    (hlen : next.length ≤ turnsBefore i s) :
    (next.foldl Client.after s).sConfBuf i = s.sConfBuf i := by
  induction next generalizing s with
  | nil => rfl
  | cons call next ih =>
      rw [List.length_cons] at hlen
      obtain ⟨hkept, hnear⟩ := (turn_after s call).keeps (Nat.zero_lt_of_lt hlen)
      rw [List.foldl_cons, ih _ (by omega), hkept]

theorem valid_init : Valid init where
  index := by decide
  fits _ := show 0 < bufSize by decide

theorem valid_run (calls : List (Call × Returns)) : Valid (run calls) := by
  induction calls using List.reverseRecOn with
  | nil => exact valid_init
  | append_singleton calls call ih =>
      rw [run_append]
      exact (turn_after _ call).valid ih

/-- Three buffers are taken before the one that is returned. -/
theorem turnsBefore_getValue {pSection pKey pDefault : Option Str} (hs : s.sBufIndex ≤ 3)
    (hi : (cfgSockGetValue r pSection pKey pDefault s).2 = .confBuf i) :
    turnsBefore i (cfgSockGetValue r pSection pKey pDefault s).1 = 3 := by
  simp only [cfgSockGetValue] at hi ⊢
  split at hi
  · cases hi
  · next hguard =>
      rw [if_neg hguard]
      have hcommand := writes_request (r := r) (i := s.sBufIndex)
        (t := getCommand pSection pKey pDefault)
        (s := s.next.store s.sBufIndex (getCommand pSection pKey pDefault))
      split at hi
      · exact absurd hi.symm (ne_ofDefault i pDefault)
      · next hnull =>
          cases hi
          rw [if_neg hnull, turnsBefore, hcommand.index, Client.store, next_sBufIndex]
          omega

/-! ## Result -/

/-- For any sequence of calls and anything that the calls of the operating system return: the index
is that of one of the four buffers, another call writes at most one of them, nothing that is too
long for it, and a buffer that `cfgSockGetValue` returns is left alone by up to three calls behind
it. -/
theorem buffers_kept (calls : List (Call × Returns)) :
    (run calls).sBufIndex ≤ 3 ∧
      (∀ call, ∃ i ≤ 3, (((run calls).after call).sConfBuf i).length < bufSize ∧
        ∀ j, j ≠ i → ((run calls).after call).sConfBuf j = (run calls).sConfBuf j) ∧
      ∀ r pSection pKey pDefault s' i,
        cfgSockGetValue r pSection pKey pDefault (run calls) = (s', .confBuf i) →
          ∀ next : List (Call × Returns), next.length ≤ 3 →
            (next.foldl Client.after s').sConfBuf i = s'.sConfBuf i := by
  have hvalid := valid_run calls
  refine ⟨hvalid.index, fun call => ?_, ?_⟩
  · have hturn := turn_after (run calls) call
    refine ⟨(run calls).sBufIndex, hvalid.index, (hturn.valid hvalid).fits _, fun j hj => ?_⟩
    cases hturn with
    | kept hindex hbuf => exact congrFun hbuf j
    | taken hw => exact hw.frame j hj
  · intro r pSection pKey pDefault s' i hget next hlen
    have hbefore : turnsBefore i s' = 3 := by
      have hi : (cfgSockGetValue r pSection pKey pDefault (run calls)).2 = .confBuf i := by
        rw [hget]
      simpa [hget] using turnsBefore_getValue hvalid.index hi
    exact foldl_keeps next s' (hlen.trans hbefore.ge)

end PthreadBenchmark.CfgSock
