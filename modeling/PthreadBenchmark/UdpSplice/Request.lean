import PthreadBenchmark.UdpSplice.FamilyId

/-! # The request of `udp_splice_add`

The attributes are written one behind the other, while `nlmsg_len` is summed up on its own. The walk
of `udp_splice_get_family_id` finds them again. -/

namespace PthreadBenchmark.UdpSplice

open LittleEndian

/-- The constants of the header of the kernel module. -/
structure Header where
  cmdAdd : UInt8
  attrSock : UInt16
  attrSock2 : UInt16
  attrTimeout : UInt16

/-- `NLMSG_LENGTH`, for the size of the header rounded up. -/
def nlmsgLength (len : ℕ) : ℕ := len + rtaAlign sizeofNlmsghdr

/-- `sizeof(req)`. -/
def sizeofReq : ℕ := sizeofNlmsghdr + sizeofGenlmsghdr + rtaLength 4 * 3

/-- `req.nl.nlmsg_len += rta->rta_len`. -/
def addLen (m : ℕ → UInt8) (rta : ℕ) : ℕ → UInt8 := put m 0 4 (nlmsgLen m + rtaLen m rta)

/-- The fields of one attribute with a payload of 32 bits. -/
def putFields (m : ℕ → UInt8) (rta : ℕ) (type : UInt16) (value : UInt32) : ℕ → UInt8 :=
  let m := put m (rta + 2) 2 type.toNat
  let m := put m rta 2 (rtaLength 4)
  put m (rtaData rta) 4 value.toNat

def putAttribute (m : ℕ → UInt8) (rta : ℕ) (type : UInt16) (value : UInt32) : ℕ → UInt8 :=
  addLen (putFields m rta type value) rta

/-- The header of the request. -/
def putHeader (H : Header) (id : UInt16) (req : ℕ → UInt8) : ℕ → UInt8 :=
  let m := store req 0 (List.replicate (sizeofNlmsghdr + sizeofGenlmsghdr) 0)
  let m := put m 0 4 (nlmsgLength sizeofGenlmsghdr)
  let m := put m 6 2 (1 ||| 4)
  let m := put m 4 2 id.toNat
  put m sizeofNlmsghdr 1 H.cmdAdd.toNat

/-- What `udp_splice_add` writes to `req` before it sends it; `req` has anything before. -/
def udpSpliceAddRequest (H : Header) (id : UInt16) (sock sock2 : Int32) (timeout : UInt32)
    (req : ℕ → UInt8) : ℕ → UInt8 :=
  let m := putHeader H id req
  let rta := sizeofNlmsghdr + sizeofGenlmsghdr
  let m := putAttribute m rta H.attrSock sock.toUInt32
  let rta := rta + rtaLen m rta
  let m := putAttribute m rta H.attrSock2 sock2.toUInt32
  if timeout ≠ 0 then
    let rta := rta + rtaLen m rta
    putAttribute m rta H.attrTimeout timeout
  else m

variable {m : ℕ → UInt8} {rta rta' i k : ℕ} {type type' : UInt16} {value value' : UInt32}

/-- The attribute is in the memory. -/
structure Encoded (m : ℕ → UInt8) (rta : ℕ) (type : UInt16) (value : UInt32) : Prop where
  len : rtaLen m rta = rtaLength 4
  type : rtaType m rta = type.toNat
  value : load m (rtaData rta) 4 = value.toNat

theorem rtaLength_four : rtaLength 4 = 8 := rfl

theorem rtaData_eq (rta : ℕ) : rtaData rta = rta + 4 := rfl

theorem encoded_putFields : Encoded (putFields m rta type value) rta type value where
  len := by
    rw [putFields, rtaLen, load_put_of_disjoint (by rw [rtaData_eq]; omega), load_put_self]
    rfl
  type := by
    rw [putFields, rtaType, load_put_of_disjoint (by rw [rtaData_eq]; omega),
      load_put_of_disjoint (by omega), load_put_self]
    exact Nat.mod_eq_of_lt type.toNat_lt
  value := by
    rw [putFields, load_put_self]
    exact Nat.mod_eq_of_lt value.toNat_lt

theorem putFields_of_not_mem (h : i < rta ∨ rta + rtaLength 4 ≤ i) :
    putFields m rta type value i = m i := by
  rw [rtaLength_four] at h
  rw [putFields, put_of_not_mem (by rw [rtaData_eq]; omega), put_of_not_mem (by omega),
    put_of_not_mem (by omega)]

/-- What lies elsewhere stays as it is. -/
theorem Encoded.congr {m' : ℕ → UInt8} (h : Encoded m rta type value)
    (heq : ∀ i, rta ≤ i → i < rta + rtaLength 4 → m' i = m i) : Encoded m' rta type value := by
  rw [rtaLength_four] at heq
  have hload : ∀ pos k, rta ≤ pos → pos + k ≤ rta + 8 → load m' pos k = load m pos k :=
    fun pos k hlow hhigh => load_congr fun i hi hi' => heq i (by omega) (by omega)
  have hlen := hload rta 2 (by omega) (by omega)
  have htype := hload (rta + 2) 2 (by omega) (by omega)
  have hvalue := hload (rtaData rta) 4 (by rw [rtaData_eq]; omega) (by rw [rtaData_eq])
  exact ⟨hlen.trans h.len, htype.trans h.type, hvalue.trans h.value⟩

theorem encoded_putAttribute (hrta : 4 ≤ rta) :
    Encoded (putAttribute m rta type value) rta type value :=
  encoded_putFields.congr fun _ _ _ => put_of_not_mem (by omega)

/-- Only the attribute and `nlmsg_len` are written to. -/
theorem putAttribute_of_not_mem (hi : 4 ≤ i) (h : i < rta ∨ rta + rtaLength 4 ≤ i) :
    putAttribute m rta type value i = m i := by
  rw [putAttribute, addLen, put_of_not_mem (by omega), putFields_of_not_mem h]

theorem Encoded.putAttribute (h : Encoded m rta type value) (hrta : 4 ≤ rta)
    (hnext : rta + rtaLength 4 ≤ rta') :
    Encoded (putAttribute m rta' type' value') rta type value :=
  h.congr fun _ hlow hhigh => putAttribute_of_not_mem (by omega) (by omega)

theorem nlmsgLen_putAttribute (hrta : 4 ≤ rta) : nlmsgLen (putAttribute m rta type value) =
    (nlmsgLen m + rtaLength 4) % 256 ^ 4 := by
  have hsame : nlmsgLen (putFields m rta type value) = nlmsgLen m :=
    load_congr fun i _ hi => putFields_of_not_mem (by omega)
  rw [UdpSplice.putAttribute, addLen, nlmsgLen, load_put_self, hsame, encoded_putFields.len]

theorem nlmsgLen_putHeader (H : Header) (id : UInt16) (req : ℕ → UInt8) :
    nlmsgLen (putHeader H id req) = firstRta := by
  rw [putHeader, nlmsgLen, load_put_of_disjoint (by decide), load_put_of_disjoint (by decide),
    load_put_of_disjoint (by decide), load_put_self]
  rfl

theorem putHeader_of_le (H : Header) (id : UInt16) (req : ℕ → UInt8) (hi : firstRta ≤ i) :
    putHeader H id req i = req i := by
  have hle : 20 ≤ i := hi
  rw [putHeader, put_of_not_mem (by simp only [sizeofNlmsghdr]; omega), put_of_not_mem (by omega),
    put_of_not_mem (by omega), put_of_not_mem (by omega), store_of_not_mem]
  rw [List.length_replicate]
  exact .inr hi

/-! ## Several attributes -/

/-- The attributes stand one behind the other. -/
def EncodedAll (m : ℕ → UInt8) : ℕ → List (UInt16 × UInt32) → Prop
  | _, [] => True
  | rta, (type, value) :: l => Encoded m rta type value ∧ EncodedAll m (rta + rtaLength 4) l

variable {l : List (UInt16 × UInt32)} {req : ℕ → UInt8}

theorem EncodedAll.putAttribute (h : EncodedAll m rta l) (hrta : 4 ≤ rta)
    (hend : rta' = rta + rtaLength 4 * l.length) :
    EncodedAll (putAttribute m rta' type' value') rta (l ++ [(type', value')]) := by
  induction l generalizing rta with
  | nil =>
      obtain rfl : rta' = rta := by simpa using hend
      exact ⟨encoded_putAttribute hrta, trivial⟩
  | cons a l ih =>
      rw [List.length_cons, Nat.mul_succ] at hend
      exact ⟨h.1.putAttribute hrta (by omega), ih h.2 (by omega) (by omega)⟩

/-- What the walk tells of an attribute of the request. -/
def content (m : ℕ → UInt8) (a : Attribute) : ℕ × ℕ × ℕ := (a.type, a.len, load m (rtaData a.rta) 4)

/-- The walk over attributes that stand one behind the other finds them, and leaves nothing. -/
theorem EncodedAll.area (h : EncodedAll m rta l) :
    ∃ as, Area m rta (rtaLength 4 * l.length : ℕ) as 0 ∧
      as.map (content m) = l.map fun a => (a.1.toNat, rtaLength 4, a.2.toNat) := by
  induction l generalizing rta with
  | nil => exact ⟨[], .done fun hok => absurd hok.1 (by decide), rfl⟩
  | cons a l ih =>
      obtain ⟨hfirst, hrest⟩ := h
      obtain ⟨as, harea, hcontent⟩ := ih hrest
      have halign : rtaAlign (rtaLen m rta) = rtaLength 4 := by rw [hfirst.len]; rfl
      have hok : RtaOk m rta (rtaLength 4 * (l.length + 1) : ℕ) := by
        rw [RtaOk, hfirst.len, rtaLength_four, sizeofRtattr]
        omega
      refine ⟨.read m rta :: as, .next hok ?_, ?_⟩
      · have hleft : ((rtaLength 4 * (l.length + 1) : ℕ) : ℤ) - rtaLength 4 =
            (rtaLength 4 * l.length : ℕ) := by
          rw [Nat.mul_succ]
          omega
        rw [halign, List.length_cons, hleft]
        exact harea
      · rw [List.map_cons, hcontent, content, Attribute.read, hfirst.type, hfirst.len, hfirst.value]
        rfl

/-- A request that has got so many attributes. -/
structure Built (m req : ℕ → UInt8) (l : List (UInt16 × UInt32)) : Prop where
  encoded : EncodedAll m firstRta l
  len : nlmsgLen m = firstRta + rtaLength 4 * l.length
  inside : ∀ i, sizeofReq ≤ i → m i = req i

theorem built_putHeader (H : Header) (id : UInt16) (req : ℕ → UInt8) :
    Built (putHeader H id req) req [] where
  encoded := trivial
  len := nlmsgLen_putHeader H id req
  inside i hi := putHeader_of_le H id req (le_trans (by decide) hi)

/-- There is room for three attributes. -/
theorem Built.putAttribute (h : Built m req l) (hroom : l.length < 3)
    (hend : rta = firstRta + rtaLength 4 * l.length) (type : UInt16) (value : UInt32) :
    Built (putAttribute m rta type value) req (l ++ [(type, value)]) where
  encoded := h.encoded.putAttribute (by decide) hend
  len := by
    rw [nlmsgLen_putAttribute (by rw [hend]; exact le_trans (by decide) (Nat.le_add_right ..)),
      h.len, List.length_append, List.length_singleton, Nat.mul_succ]
    simp only [firstRta, sizeofNlmsghdr, sizeofGenlmsghdr, rtaLength_four]
    omega
  inside i hi := by
    have hle : 44 ≤ i := hi
    have hlast : rta + rtaLength 4 ≤ i := by
      rw [hend, firstRta, sizeofNlmsghdr, sizeofGenlmsghdr, rtaLength_four]
      omega
    exact (putAttribute_of_not_mem (by omega) (.inr hlast)).trans (h.inside i hi)

/-- The pointer moves by the length of the attribute that has just been written. -/
theorem rtaLen_putAttribute (hrta : 4 ≤ rta) :
    rtaLen (putAttribute m rta type value) rta = rtaLength 4 :=
  (encoded_putAttribute hrta).len

/-! ## Result -/

/-- The attributes that a request is to have. -/
def wanted (H : Header) (sock sock2 : Int32) (timeout : UInt32) : List (UInt16 × UInt32) :=
  [(H.attrSock, sock.toUInt32), (H.attrSock2, sock2.toUInt32)] ++
    if timeout = 0 then [] else [(H.attrTimeout, timeout)]

theorem built_request (H : Header) (id : UInt16) (sock sock2 : Int32) (timeout : UInt32)
    (req : ℕ → UInt8) :
    Built (udpSpliceAddRequest H id sock sock2 timeout req) req (wanted H sock sock2 timeout) := by
  have hheader := built_putHeader H id req
  have hsock := hheader.putAttribute (by simp) rfl H.attrSock sock.toUInt32
  have hsock2 := hsock.putAttribute (by simp) rfl H.attrSock2 sock2.toUInt32
  have htimeout := hsock2.putAttribute (by simp) rfl H.attrTimeout timeout
  have hfirst : sizeofNlmsghdr + sizeofGenlmsghdr = firstRta := rfl
  simp only [udpSpliceAddRequest, hfirst, rtaLen_putAttribute
    (show 4 ≤ firstRta by decide), rtaLen_putAttribute (show 4 ≤ firstRta + rtaLength 4 by decide)]
  by_cases hzero : timeout = 0
  · simp only [hzero, ne_eq, not_true_eq_false, if_false, wanted, if_true]
    exact hsock2
  · simp only [ne_eq, hzero, not_false_eq_true, if_true, wanted, if_false]
    exact htimeout

/-- For all sockets and timeouts, and whatever is in `req` before: the walk over the attributes
finds the two sockets, and the timeout if it is not zero, and nothing is left; and nothing is
written behind `req`. -/
theorem add_request_walked (H : Header) (id : UInt16) (sock sock2 : Int32) (timeout : UInt32)
    (req : ℕ → UInt8) :
    (∃ as, (∀ fuel, nlmsgLen (udpSpliceAddRequest H id sock sock2 timeout req) / 4 < fuel →
        attributes (udpSpliceAddRequest H id sock sock2 timeout req) fuel firstRta
          (nlmsgLen (udpSpliceAddRequest H id sock sock2 timeout req) - firstRta) = some (as, 0)) ∧
      as.map (content (udpSpliceAddRequest H id sock sock2 timeout req)) =
        (wanted H sock sock2 timeout).map fun a => (a.1.toNat, rtaLength 4, a.2.toNat)) ∧
    nlmsgLen (udpSpliceAddRequest H id sock sock2 timeout req) ≤ sizeofReq ∧
    ∀ i, sizeofReq ≤ i → udpSpliceAddRequest H id sock sock2 timeout req i = req i := by
  have hbuilt := built_request H id sock sock2 timeout req
  have hlength : (wanted H sock sock2 timeout).length ≤ 3 := by
    rw [wanted]
    split <;> simp
  obtain ⟨as, harea, hcontent⟩ := hbuilt.encoded.area
  refine ⟨⟨as, fun fuel hfuel => attributes_of_area ?_ ?_, hcontent⟩, ?_, hbuilt.inside⟩
  · have hlen : ((nlmsgLen (udpSpliceAddRequest H id sock sock2 timeout req) : ℕ) : ℤ) - firstRta =
        (rtaLength 4 * (wanted H sock sock2 timeout).length : ℕ) := by
      rw [hbuilt.len]
      omega
    rw [hlen]
    exact harea
  · omega
  · rw [hbuilt.len, sizeofReq, firstRta]
    exact Nat.add_le_add_left (Nat.mul_le_mul_left _ hlength) _

end PthreadBenchmark.UdpSplice
