import PthreadBenchmark.ConSer.Model
import Mathlib.Data.List.Basic

/-! # Which packets stay inside the buffers

`fs_buffer_init` makes room for the sum of two sizes, but the sum wraps around, and a chunk number
is decoded from packets that are too short for it. -/

namespace PthreadBenchmark.ConSer

/-- As integers. -/
def Access.Inside : Access → Prop
  | .payload offset length buffsize allocated =>
      offset.toNat + length.toNat ≤ buffsize.toNat ∧
        offset.toNat + length.toNat ≤ allocated.toNat
  | .decode index received => index < received.toNat

/-- No packet has come in for the record. -/
structure Threc.Fresh (rec : Threc) : Prop where
  buff : rec.buff = none
  buffsize : rec.buffsize = 0
  size : rec.size = 0

/-- The payload has room for a chunk number if there is one in it, and its size does not wrap around
together with that of the packet before it. -/
structure Meets (c : Commands) (threcs : List Threc) (i : Inputs) : Prop where
  creatChunk : i.cmd = c.sertodatCreatChunk → i.tcptoread = toInt (i.size - 4).toNat →
    i.size ≥ 12
  payload : ¬analyzeSerCmd c i.cmd → ∀ k, fsGetThrecById threcs i.packetid = some k →
    (threcs.get k).size.toNat + (i.size - 4).toNat < 2 ^ 32

/-- A packet comes in from which more than the header is used. -/
def Arrives (s : State) (i : Inputs) : Prop :=
  (reconnect s i).fd ≠ -1 ∧ i.read = 12 ∧ i.size ≥ 4

/-- Every packet of the run meets the condition. -/
def AllMeet (c : Commands) : State → List Inputs → Prop
  | _, [] => True
  | s, i :: rest => (Arrives s i → Meets c s.threcs i) ∧ AllMeet c (receive c s i).1 rest

/-- What is true of a record between two rounds. -/
def Threc.Valid (rec : Threc) : Prop :=
  rec.Fresh ∨ rec.buff = some rec.buffsize ∧ 10000 ≤ rec.buffsize

variable {c : Commands} {s : State} {i : Inputs} {rec : Threc} {n size allocated : UInt32}

/-! ## One record -/

theorem fsBufferInit_valid (h : rec.Valid) (n : UInt32) : (fsBufferInit rec n).Valid := by
  unfold fsBufferInit
  split_ifs with hlarge hshrink
  · exact .inr ⟨rfl, UInt32.le_of_lt hlarge⟩
  · exact .inr ⟨rfl, UInt32.le_refl _⟩
  · exact h

@[simp] theorem fsBufferInit_size (rec : Threc) (n : UInt32) :
    (fsBufferInit rec n).size = rec.size := by
  unfold fsBufferInit
  split_ifs <;> rfl

theorem allocated_of_valid (h : rec.Valid) (hbuff : rec.buff = some allocated) :
    rec.buff = some rec.buffsize ∧ 10000 ≤ rec.buffsize := by
  rcases h with hfresh | hallocated
  · rw [hfresh.buff] at hbuff
    exact absurd hbuff (by simp)
  · exact hallocated

theorem fresh_of_valid (h : rec.Valid) (hbuff : rec.buff = none) : rec.Fresh := by
  rcases h with hfresh | ⟨hsome, _⟩
  · exact hfresh
  · rw [hbuff] at hsome
    exact absurd hsome (by simp)

/-- The bytes that are asked for are there, if the record has a buffer. -/
theorem le_fsBufferInit (h : rec.Valid) (hbuff : (fsBufferInit rec n).buff = some allocated) :
    (fsBufferInit rec n).buffsize = allocated ∧ n ≤ allocated := by
  obtain ⟨hsome, hlarge⟩ := allocated_of_valid (fsBufferInit_valid h n) hbuff
  obtain rfl : (fsBufferInit rec n).buffsize = allocated := by
    rw [hbuff] at hsome
    exact (Option.some.inj hsome).symm
  refine ⟨rfl, ?_⟩
  by_cases hn : n > 10000
  · rw [fsBufferInit, if_pos hn]
    exact UInt32.le_refl n
  · exact UInt32.le_trans (UInt32.not_lt.mp hn) hlarge

theorem receivePayload_valid (h : rec.Valid) (i : Inputs) (size : UInt32) :
    (receivePayload rec i size).1.Valid := by
  have hvalid := fsBufferInit_valid h (rec.size + size)
  cases hbuff : (fsBufferInit rec (rec.size + size)).buff with
  | none =>
      simp only [receivePayload, hbuff]
      exact hvalid
  | some allocated =>
      have hallocated := allocated_of_valid hvalid hbuff
      have hcomplete : ((fsBufferInit rec (rec.size + size)).complete i.cmd size).Valid :=
        .inr hallocated
      simp only [receivePayload, hbuff]
      split_ifs
      · exact hvalid
      · exact hcomplete
      · exact hcomplete

/-- The write is inside exactly if the sum of the sizes does not wrap around. -/
theorem payload_inside_iff (h : rec.Valid)
    (hbuff : (fsBufferInit rec (rec.size + size)).buff = some allocated) :
    Access.Inside (.payload rec.size size (fsBufferInit rec (rec.size + size)).buffsize allocated) ↔
      rec.size.toNat + size.toNat < 2 ^ 32 := by
  obtain ⟨heq, hle⟩ := le_fsBufferInit h hbuff
  rw [heq, Access.Inside, and_self]
  constructor
  · intro hinside
    exact Nat.lt_of_le_of_lt hinside allocated.toNat_lt
  · intro hlt
    have hsum : (rec.size + size).toNat = rec.size.toNat + size.toNat := by
      rw [UInt32.toNat_add, Nat.mod_eq_of_lt hlt]
    rw [← hsum]
    exact UInt32.le_iff_toNat_le.mp hle

/-- Without a buffer the size is zero, and the sum does not wrap around. -/
theorem receivePayload_inside_iff (h : rec.Valid) (i : Inputs) (size : UInt32) :
    (∀ a ∈ (receivePayload rec i size).2.2, a.Inside) ↔
      rec.size.toNat + size.toNat < 2 ^ 32 := by
  cases hbuff : (fsBufferInit rec (rec.size + size)).buff with
  | none =>
      have hfresh := fresh_of_valid (fsBufferInit_valid h (rec.size + size)) hbuff
      have hzero : rec.size = 0 := by simpa only [fsBufferInit_size] using hfresh.size
      have hlt : rec.size.toNat + size.toNat < 2 ^ 32 := by
        rw [hzero, UInt32.toNat_zero, Nat.zero_add]
        exact size.toNat_lt
      simp only [receivePayload, hbuff, List.not_mem_nil, false_imp_iff, implies_true, hlt]
  | some allocated =>
      have hinside := payload_inside_iff h hbuff
      simp only [receivePayload, hbuff, fsBufferInit_size]
      split_ifs with hsize hread
      · simp only [List.mem_singleton, forall_eq, hinside]
      · simp only [List.mem_singleton, forall_eq, hinside]
      · have hzero : size.toNat = 0 := by
          simpa only [gt_iff_lt, UInt32.lt_iff_toNat_lt, UInt32.toNat_zero, Nat.pos_iff_ne_zero,
            ne_eq, not_not] using hsize
        have hlt : rec.size.toNat + size.toNat < 2 ^ 32 := by
          rw [hzero, Nat.add_zero]
          exact rec.size.toNat_lt
        simp only [List.not_mem_nil, false_imp_iff, implies_true, hlt]

/-! ## One round -/

theorem decodes_inside_iff : (∀ a ∈ decodes c size, a.Inside) ↔ 8 ≤ size.toNat := by
  simp only [decodes, c.get64bit_eq, List.forall_mem_map, List.mem_range, Access.Inside]
  constructor
  · intro h
    exact h 7 (by decide)
  · intro h index hindex
    omega

theorem getChunkid_accesses (c : Commands) (s : State) (i : Inputs) (received : UInt32) :
    (getChunkid c s i received).2 = decodes c received := by
  unfold getChunkid
  split_ifs <;> rfl

theorem analyzeSerPacket_inside_iff (c : Commands) (s : State) (i : Inputs) (type size : UInt32) :
    (∀ a ∈ (analyzeSerPacket c s i type size).2, a.Inside) ↔
      (type = c.sertodatCreatChunk → i.tcptoread = toInt size.toNat → 8 ≤ size.toNat) := by
  unfold analyzeSerPacket
  split_ifs with hread htype
  · simp [hread]
  · simp [getChunkid_accesses, decodes_inside_iff, htype, not_not.mp hread]
  · simp [htype]

theorem receiveRecord_inside_iff (h : ∀ rec ∈ s.threcs, rec.Valid) (i : Inputs) (size : UInt32) :
    (∀ a ∈ (receiveRecord s i size).2, a.Inside) ↔
      ∀ k, fsGetThrecById s.threcs i.packetid = some k →
        (s.threcs.get k).size.toNat + size.toNat < 2 ^ 32 := by
  cases hk : fsGetThrecById s.threcs i.packetid with
  | none =>
      simp only [receiveRecord, hk, List.not_mem_nil, false_imp_iff, implies_true, reduceCtorEq]
  | some k =>
      have hinside := receivePayload_inside_iff (h _ (List.get_mem _ k)) i size
      simp only [receiveRecord, hk, Option.some.injEq, forall_eq']
      exact hinside

@[simp] theorem reconnect_threcs (s : State) (i : Inputs) : (reconnect s i).threcs = s.threcs := by
  simp only [reconnect, connectSer]
  split_ifs <;> rfl

theorem analyzeSerPacket_threcs (c : Commands) (s : State) (i : Inputs) (type size : UInt32) :
    (analyzeSerPacket c s i type size).1.threcs = s.threcs := by
  unfold analyzeSerPacket getChunkid
  split_ifs <;> rfl

/-- What every packet keeps of a record, a round keeps of all records. -/
theorem receive_preserves {P : Threc → Prop} (h : ∀ rec ∈ s.threcs, P rec)
    (hstep : i.size ≥ 4 → ∀ rec, P rec → P (receivePayload rec i (i.size - 4)).1) (c : Commands) :
    ∀ rec ∈ (receive c s i).1.threcs, P rec := by
  have hreconnect : ∀ rec ∈ (reconnect s i).threcs, P rec := by
    rwa [reconnect_threcs]
  simp only [receive]
  split_ifs with hfd hread hnop hsize hser
  · exact hreconnect
  · exact hreconnect
  · exact hreconnect
  · exact hreconnect
  · rw [analyzeSerPacket_threcs]
    exact hreconnect
  · cases hk : fsGetThrecById (reconnect s i).threcs i.packetid with
    | none =>
        simp only [receiveRecord, hk]
        exact hreconnect
    | some k =>
        simp only [receiveRecord, hk]
        intro rec hrec
        rcases List.mem_or_eq_of_mem_set hrec with hold | rfl
        · exact hreconnect rec hold
        · exact hstep (UInt32.not_lt.mp hsize) _ (hreconnect _ (List.get_mem _ k))

theorem receive_valid (h : ∀ rec ∈ s.threcs, rec.Valid) (c : Commands) (i : Inputs) :
    ∀ rec ∈ (receive c s i).1.threcs, rec.Valid :=
  receive_preserves h (fun _ _ hrec => receivePayload_valid hrec i (i.size - 4)) c

theorem eight_le_iff (h : n ≥ 4) : 8 ≤ (n - 4).toNat ↔ n ≥ 12 := by
  have hle : (4 : UInt32).toNat ≤ n.toNat := UInt32.le_iff_toNat_le.mp h
  have htwelve : n ≥ 12 ↔ (12 : UInt32).toNat ≤ n.toNat := UInt32.le_iff_toNat_le
  rw [UInt32.toNat_sub_of_le n 4 h, htwelve]
  simp only [UInt32.reduceToNat] at hle ⊢
  omega

theorem meets_nop (h : i.cmd = c.antoanNop) (threcs : List Threc) : Meets c threcs i where
  creatChunk hcreat := absurd (h.symm.trans hcreat) c.nop_ne_creatChunk
  payload hother := absurd (.inl h) hother

theorem meets_ser (h : analyzeSerCmd c i.cmd) (threcs : List Threc) :
    Meets c threcs i ↔
      (i.cmd = c.sertodatCreatChunk → i.tcptoread = toInt (i.size - 4).toNat → i.size ≥ 12) := by
  constructor
  · intro hmeets
    exact hmeets.creatChunk
  · intro hcreat
    exact ⟨hcreat, fun hother => absurd h hother⟩

theorem meets_record (h : ¬analyzeSerCmd c i.cmd) (threcs : List Threc) :
    Meets c threcs i ↔
      ∀ k, fsGetThrecById threcs i.packetid = some k →
        (threcs.get k).size.toNat + (i.size - 4).toNat < 2 ^ 32 := by
  constructor
  · intro hmeets
    exact hmeets.payload h
  · intro hpayload
    exact ⟨fun hcreat => absurd (.inr (.inr hcreat)) h, fun _ => hpayload⟩

/-- The step of the run. -/
theorem receive_inside_iff (h : ∀ rec ∈ s.threcs, rec.Valid) (c : Commands) (i : Inputs) :
    (∀ a ∈ (receive c s i).2, a.Inside) ↔ (Arrives s i → Meets c s.threcs i) := by
  have hreconnect : ∀ rec ∈ (reconnect s i).threcs, rec.Valid := by
    rwa [reconnect_threcs]
  rw [← reconnect_threcs s i]
  have hnothing : ∀ a ∈ ([] : List Access), a.Inside := fun a ha => absurd ha List.not_mem_nil
  simp only [receive]
  split_ifs with hfd hread hnop hsize hser
  · exact iff_of_true hnothing fun harrives => absurd hfd harrives.1
  · refine iff_of_true hnothing fun harrives => ?_
    have htwelve := harrives.2.1
    omega
  · exact iff_of_true hnothing fun _ => meets_nop hnop.1 _
  · exact iff_of_true hnothing fun harrives => absurd hsize (UInt32.not_lt.mpr harrives.2.2)
  all_goals
    have hfour : i.size ≥ 4 := UInt32.not_lt.mp hsize
    have harrives : Arrives s i := ⟨hfd, by omega, hfour⟩
    rw [forall_prop_of_true harrives]
  · rw [analyzeSerPacket_inside_iff, meets_ser hser, eight_le_iff hfour]
  · rw [receiveRecord_inside_iff hreconnect, meets_record hser]

/-! ## The run -/

theorem receiveThread_inside_iff (c : Commands) (inputs : List Inputs)
    (h : ∀ rec ∈ s.threcs, rec.Valid) :
    (∀ a ∈ (receiveThread c s inputs).2, a.Inside) ↔ AllMeet c s inputs := by
  induction inputs generalizing s with
  | nil => simp only [receiveThread, AllMeet, List.not_mem_nil, false_imp_iff, implies_true]
  | cons i rest ih =>
      simp only [receiveThread, AllMeet, List.forall_mem_append, receive_inside_iff h,
        ih (receive_valid h c i)]

/-! ## Runs from the beginning -/

def commands : Commands := ⟨0, 1, 2, 8, by decide, by decide, by decide, rfl⟩

/-- The state behind `ser_init`, with one record. -/
def initial : State where
  fd := -1
  disconnect := true
  threcs := [⟨none, 0, 0, 0, 0, 0, 0, 7⟩]

def packet (cmd size packetid : UInt32) (tcptoread : ℤ) : Inputs where
  tcpsocket := 3
  tcpconnect := 0
  read := 12
  cmd := cmd
  size := size
  packetid := packetid
  tcptoread := tcptoread
  tcptowrite := 16

theorem initial_fresh : ∀ rec ∈ initial.threcs, rec.Fresh := by
  intro rec hrec
  obtain rfl := List.mem_singleton.mp hrec
  exact ⟨rfl, rfl, rfl⟩

/-- A run stays inside the buffers exactly if all its packets meet the condition. -/
theorem packets_inside_iff (c : Commands) (s : State) (h : ∀ rec ∈ s.threcs, rec.Fresh)
    (inputs : List Inputs) :
    (∀ a ∈ (receiveThread c s inputs).2, a.Inside) ↔ AllMeet c s inputs :=
  receiveThread_inside_iff c inputs fun rec hrec => .inl (h rec hrec)

theorem packets_inside_two :
    (∀ a ∈ (receiveThread commands initial [packet 3 20004 7 20000, packet 2 12 0 8]).2,
      a.Inside) ↔
      AllMeet commands initial [packet 3 20004 7 20000, packet 2 12 0 8] :=
  packets_inside_iff commands initial initial_fresh _

/-- The buffer has shrunk to 19995 bytes when the second payload is written from 20000 on. -/
theorem packets_outside :
    ¬∀ (c : Commands) (s : State), (∀ rec ∈ s.threcs, rec.Fresh) → ∀ inputs : List Inputs,
      ∀ a ∈ (receiveThread c s inputs).2, a.Inside := by
  intro hinside
  have hrun : (receiveThread commands initial
      [packet 3 20004 7 20000, packet 3 4294967295 7 (-1)]).2 =
        [.payload 0 20000 20000 20000, .payload 20000 4294967291 19995 19995] := by
    decide +kernel
  have h := hinside commands initial initial_fresh
    [packet 3 20004 7 20000, packet 3 4294967295 7 (-1)]
  rw [hrun] at h
  exact absurd (h (.payload 20000 4294967291 19995 19995) (by simp)).1 (by decide)

/-- A packet without a payload makes the thread decode a chunk number. -/
example : (receiveThread commands initial [packet 2 4 0 0]).2 = decodes commands 0 := by decide

end PthreadBenchmark.ConSer
