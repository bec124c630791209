import PthreadBenchmark.UdpSplice.Attributes
import PthreadBenchmark.Shared.Int32
import PthreadBenchmark.UdpSplice.Model

/-! # `udp_splice_get_family_id`

The walk reads the id out of the first attribute of the type `CTRL_ATTR_FAMILY_ID` without a test
that its payload has two bytes. -/

namespace PthreadBenchmark.UdpSplice

open LittleEndian

/-- `sizeof(buf.nl)`. -/
def sizeofNlmsghdr : ℕ := 16

/-- `sizeof(*genl)`, which is also `GENL_HDRLEN`. -/
def sizeofGenlmsghdr : ℕ := 4

/-- `CTRL_ATTR_FAMILY_ID`. -/
def ctrlAttrFamilyId : ℕ := 1

/-- `EBADMSG`. -/
def ebadmsg : ℤ := 74

/-- What the function returns, the `errno` that it sets itself, and the bytes of the attributes that
it has read. -/
structure FamilyId where
  value : ℤ
  errno : Option ℤ
  used : List ℕ
  deriving DecidableEq, Repr

def FamilyId.use (used : List ℕ) (r : FamilyId) : FamilyId := { r with used := used ++ r.used }

/-- The bytes that `RTA_OK` reads. -/
def rtaOkUses (rta : ℕ) (len : ℤ) : List ℕ :=
  if sizeofRtattr ≤ len then List.range' rta 2 else []

/-- The loop over the attributes, with what follows it. -/
def familyIdLoop (m : ℕ → UInt8) : ℕ → ℕ → ℤ → Option FamilyId
  | 0, _, _ => none
  | fuel + 1, rta, len =>
    (if RtaOk m rta len then
      (if rtaType m rta = ctrlAttrFamilyId then
        some ⟨load m (rtaData rta) 2, none, List.range' (rtaData rta) 2⟩
      else familyIdLoop m fuel (rta + rtaAlign (rtaLen m rta)) (len - rtaAlign (rtaLen m rta))).map
        (.use (List.range' (rta + 2) 2))
    else some ⟨-1, some ebadmsg, []⟩).map (.use (rtaOkUses rta len))

/-- `buf.nl.nlmsg_len`. -/
def nlmsgLen (m : ℕ → UInt8) : ℕ := load m 0 4

/-- `buf.nl.nlmsg_type`. -/
def nlmsgType (m : ℕ → UInt8) : ℕ := load m 4 2

/-- `errmsg->error`. -/
def errmsgError (m : ℕ → UInt8) : ℤ := toInt (load m sizeofNlmsghdr 4)

/-- The place of the first attribute, `(struct rtattr *)(genl + 1)`. -/
def firstRta : ℕ := sizeofNlmsghdr + sizeofGenlmsghdr

/-- What `sendto` and `recv` return is given, and `buf` behind the `recv`: the datagram, and behind
it anything. -/
def udpSpliceGetFamilyId (sendto recv : ℤ) (buf : ℕ → UInt8) (fuel : ℕ) : Option FamilyId :=
  if sendto < 0 then some ⟨-1, none, []⟩
  else if recv < 0 then some ⟨-1, none, []⟩
  else if recv < sizeofNlmsghdr ∨ (nlmsgLen buf : ℤ) ≠ recv then some ⟨-1, some ebadmsg, []⟩
  else if (nlmsgType buf : ℤ) = nlmsgError then some ⟨-1, some (-errmsgError buf), []⟩
  else familyIdLoop buf fuel firstRta (recv - (sizeofNlmsghdr + sizeofGenlmsghdr))

/-! ## What is wanted of it -/

/-- The datagram of `n` bytes is walked over. -/
def Walked (buf : ℕ → UInt8) (n : ℕ) : Prop :=
  sizeofNlmsghdr ≤ n ∧ nlmsgLen buf = n ∧ (nlmsgType buf : ℤ) ≠ nlmsgError

instance (buf : ℕ → UInt8) (n : ℕ) : Decidable (Walked buf n) :=
  inferInstanceAs (Decidable (_ ∧ _))

/-- The attributes of a datagram of `n` bytes. -/
def datagramAttributes (buf : ℕ → UInt8) (n : ℕ) : List Attribute :=
  ((attributes buf (n / 4 + 1) firstRta (n - firstRta)).map Prod.fst).getD []

/-- The first attribute of the type. -/
def firstFamily (as : List Attribute) : Option Attribute :=
  as.find? fun a => a.type = ctrlAttrFamilyId

/-- The first attribute of the type whose payload has an id. -/
def holder (as : List Attribute) : Option Attribute :=
  as.find? fun a => a.type = ctrlAttrFamilyId ∧ rtaLength 2 ≤ a.len

def idOf (buf : ℕ → UInt8) : Option Attribute → ℤ
  | none => -1
  | some a => load buf (rtaData a.rta) 2

/-- The loop ends, whatever is in the datagram. What it has read lies in the datagram, and it
returns the id in the first attribute that has one. -/
def FamilyIdRight (buf : ℕ → UInt8) (n : ℕ) : Prop :=
  ∃ r, (∀ fuel, n / 4 < fuel → udpSpliceGetFamilyId 0 n buf fuel = some r) ∧
    (∀ i ∈ r.used, i < n) ∧
    r.value = if Walked buf n then idOf buf (holder (datagramAttributes buf n)) else -1

/-- The first attribute of the type has an id in its payload. If it has none, then the two bytes
behind its header lie in the datagram and are the id in the first one that has one. -/
def FamilyIdHolds (buf : ℕ → UInt8) (n : ℕ) : Prop :=
  Walked buf n → ∀ a, firstFamily (datagramAttributes buf n) = some a → rtaLength 2 ≤ a.len ∨
    rtaData a.rta + 2 ≤ n ∧ ∃ b, holder (datagramAttributes buf n) = some b ∧
      load buf (rtaData a.rta) 2 = load buf (rtaData b.rta) 2

variable {buf : ℕ → UInt8} {n rta fuel : ℕ} {len left : ℤ} {as : List Attribute}
  {a b : Attribute}

theorem area_of_datagram (buf : ℕ → UInt8) (n : ℕ) :
    ∃ left, Area buf firstRta (n - firstRta) (datagramAttributes buf n) left := by
  obtain ⟨as, left, h⟩ := exists_area buf firstRta (n - firstRta)
  have hfuel : ((n : ℤ) - firstRta).toNat / 4 < n / 4 + 1 := by
    simp only [firstRta]
    omega
  have hsome := attributes_of_area h hfuel
  refine ⟨left, ?_⟩
  simpa [datagramAttributes, hsome] using h

theorem familyIdLoop_done (h : ¬ RtaOk buf rta len) (hfuel : 0 < fuel) :
    familyIdLoop buf fuel rta len = some (.use (rtaOkUses rta len) ⟨-1, some ebadmsg, []⟩) := by
  obtain ⟨fuel, rfl⟩ := Nat.exists_eq_succ_of_ne_zero hfuel.ne'
  simp only [familyIdLoop, if_neg h, Option.map_some]

theorem familyIdLoop_found (h : RtaOk buf rta len) (htype : rtaType buf rta = ctrlAttrFamilyId)
    (hfuel : 0 < fuel) : familyIdLoop buf fuel rta len =
      some (.use (rtaOkUses rta len) (.use (List.range' (rta + 2) 2)
        ⟨load buf (rtaData rta) 2, none, List.range' (rtaData rta) 2⟩)) := by
  obtain ⟨fuel, rfl⟩ := Nat.exists_eq_succ_of_ne_zero hfuel.ne'
  simp only [familyIdLoop, if_pos h, if_pos htype, Option.map_some]

theorem familyIdLoop_next {r : FamilyId} (h : RtaOk buf rta len)
    (htype : rtaType buf rta ≠ ctrlAttrFamilyId)
    (hrest : familyIdLoop buf fuel (rta + rtaAlign (rtaLen buf rta))
      (len - rtaAlign (rtaLen buf rta)) = some r) : familyIdLoop buf (fuel + 1) rta len =
      some (.use (rtaOkUses rta len) (.use (List.range' (rta + 2) 2) r)) := by
  simp only [familyIdLoop, if_pos h, if_neg htype, hrest, Option.map_some]

/-- `RTA_OK` reads inside of the message. -/
theorem lt_of_mem_rtaOkUses (hend : (rta : ℤ) + len = n) {i : ℕ} (hi : i ∈ rtaOkUses rta len) :
    i < n := by
  rw [rtaOkUses] at hi
  split at hi
  · next hle =>
      obtain ⟨hlow, hhigh⟩ := List.mem_range'_1.mp hi
      simp only [sizeofRtattr] at hle
      omega
  · cases hi

/-- What is read of a header lies in the message. -/
theorem lt_of_mem_header (h : RtaOk buf rta len) (hend : (rta : ℤ) + len = n) {i : ℕ}
    (hi : i ∈ rtaOkUses rta len ∨ i ∈ List.range' (rta + 2) 2) : i < n := by
  rcases hi with hi | hi
  · exact lt_of_mem_rtaOkUses hend hi
  · have hle := h.1
    obtain ⟨hlow, hhigh⟩ := List.mem_range'_1.mp hi
    simp only [sizeofRtattr] at hle
    omega

/-- What the loop returns, and whether it stays inside of the message. -/
theorem familyIdLoop_of_area (h : Area buf rta len as left) (hend : (rta : ℤ) + len = n) :
    ∃ r, (∀ fuel, len.toNat / 4 < fuel → familyIdLoop buf fuel rta len = some r) ∧
      r.value = idOf buf (firstFamily as) ∧
      ((∀ i ∈ r.used, i < n) ↔ ∀ a, firstFamily as = some a → rtaData a.rta + 2 ≤ n) := by
  induction h with
  | @done rta len h =>
      refine ⟨_, fun fuel hfuel => familyIdLoop_done h (Nat.zero_lt_of_lt hfuel), rfl, ?_⟩
      refine iff_of_true (fun i hi => ?_) nofun
      rw [FamilyId.use, List.append_nil] at hi
      exact lt_of_mem_rtaOkUses hend hi
  | @next rta len left as h rest ih =>
      have hheader := fun i => lt_of_mem_header (i := i) h hend
      by_cases htype : rtaType buf rta = ctrlAttrFamilyId
      · have hfirst : firstFamily (.read buf rta :: as) = some (.read buf rta) := by
          simp [firstFamily, Attribute.read, htype]
        refine ⟨_, fun fuel hfuel => familyIdLoop_found h htype (Nat.zero_lt_of_lt hfuel), ?_, ?_⟩
        · rw [hfirst]
          rfl
        · rw [hfirst]
          simp only [FamilyId.use, List.mem_append, Option.some.injEq, forall_eq', Attribute.read]
          constructor
          · intro hused
            have hlast := hused (rtaData rta + 1) (by simp [List.mem_range'_1])
            omega
          · intro hle i hi
            rcases hi with hi | hi | hi
            · exact hheader i (.inl hi)
            · exact hheader i (.inr hi)
            · have hhigh := (List.mem_range'_1.mp hi).2
              omega
      · have hfirst : firstFamily (.read buf rta :: as) = firstFamily as := by
          simp [firstFamily, Attribute.read, htype]
        obtain ⟨r, hr, hvalue, hused⟩ := ih (by push_cast; omega)
        refine ⟨.use (rtaOkUses rta len) (.use (List.range' (rta + 2) 2) r), ?_, ?_, ?_⟩
        · intro fuel hfuel
          have hlt := h.next_lt
          have hlen := h.1
          simp only [sizeofRtattr] at hlt hlen
          obtain ⟨fuel, rfl⟩ := Nat.exists_eq_succ_of_ne_zero (Nat.ne_zero_of_lt hfuel)
          exact familyIdLoop_next h htype (hr fuel (by omega))
        · rw [hfirst]
          exact hvalue
        · rw [hfirst, ← hused]
          simp only [FamilyId.use, List.mem_append]
          constructor
          · exact fun hall i hi => hall i (.inr (.inr hi))
          · rintro hall i (hi | hi | hi)
            · exact hheader i (.inl hi)
            · exact hheader i (.inr hi)
            · exact hall i hi

theorem udpSpliceGetFamilyId_of_walked (h : Walked buf n) : udpSpliceGetFamilyId 0 n buf fuel =
    familyIdLoop buf fuel firstRta (n - firstRta) := by
  have hlen : ¬ ((n : ℤ) < sizeofNlmsghdr ∨ (nlmsgLen buf : ℤ) ≠ n) := by
    have hle := h.1
    have heq := h.2.1
    omega
  rw [udpSpliceGetFamilyId, if_neg (by omega), if_neg (by omega), if_neg hlen, if_neg h.2.2]
  rfl

/-- A datagram that is refused is not walked over. -/
theorem exists_of_not_walked (h : ¬ Walked buf n) :
    ∃ r, (∀ fuel, udpSpliceGetFamilyId 0 n buf fuel = some r) ∧ r.used = [] ∧ r.value = -1 := by
  by_cases hlen : (n : ℤ) < sizeofNlmsghdr ∨ (nlmsgLen buf : ℤ) ≠ n
  · refine ⟨⟨-1, some ebadmsg, []⟩, fun fuel => ?_, rfl, rfl⟩
    rw [udpSpliceGetFamilyId, if_neg (by omega), if_neg (by omega), if_pos hlen]
  · have htype : (nlmsgType buf : ℤ) = nlmsgError := by
      by_contra hne
      exact h ⟨by omega, by omega, hne⟩
    refine ⟨⟨-1, some (-errmsgError buf), []⟩, fun fuel => ?_, rfl, rfl⟩
    rw [udpSpliceGetFamilyId, if_neg (by omega), if_neg (by omega), if_neg hlen, if_pos htype]

theorem holder_of_firstFamily (h : firstFamily as = some a) (hlen : rtaLength 2 ≤ a.len) :
    holder as = some a := by
  rw [firstFamily, List.find?_eq_some_iff_append] at h
  obtain ⟨htype, before, after, rfl, hbefore⟩ := h
  rw [holder, List.find?_eq_some_iff_append]
  refine ⟨by simpa [hlen] using htype, before, after, rfl, fun b hb => ?_⟩
  have hb' := hbefore b hb
  simp only [Bool.not_eq_true', decide_eq_false_iff_not] at hb' ⊢
  exact fun hboth => hb' hboth.1

theorem holder_of_firstFamily_none (h : firstFamily as = none) : holder as = none := by
  rw [firstFamily, List.find?_eq_none] at h
  rw [holder, List.find?_eq_none]
  intro b hb
  have hb' := h b hb
  simp only [decide_eq_true_eq] at hb' ⊢
  exact fun hboth => hb' hboth.1

/-- For all contents and lengths: the function ends, reads inside of the datagram, and returns the
first id or -1, if and only if the first attribute of the type has an id in its payload, or the two
bytes behind its header happen to be that id. -/
theorem family_id_right_iff (buf : ℕ → UInt8) (n : ℕ) :
    FamilyIdRight buf n ↔ FamilyIdHolds buf n := by
  by_cases hwalked : Walked buf n
  · obtain ⟨left, harea⟩ := area_of_datagram buf n
    have hend : (firstRta : ℤ) + (n - firstRta) = n := by omega
    obtain ⟨r, hr, hvalue, hused⟩ := familyIdLoop_of_area harea hend
    have hrun : ∀ fuel, n / 4 < fuel → udpSpliceGetFamilyId 0 n buf fuel = some r := by
      intro fuel hfuel
      rw [udpSpliceGetFamilyId_of_walked hwalked]
      exact hr fuel (by simp only [firstRta]; omega)
    have hright : FamilyIdRight buf n ↔ (∀ i ∈ r.used, i < n) ∧
        r.value = idOf buf (holder (datagramAttributes buf n)) := by
      constructor
      · rintro ⟨r', hr', hused', hvalue'⟩
        have hsame := (hr' _ (Nat.lt_succ_self _)).symm.trans (hrun _ (Nat.lt_succ_self _))
        obtain rfl : r' = r := Option.some.inj hsame
        rw [if_pos hwalked] at hvalue'
        exact ⟨hused', hvalue'⟩
      · rintro ⟨hused', hvalue'⟩
        exact ⟨r, hrun, hused', by rwa [if_pos hwalked]⟩
    rw [hright, hused, hvalue, FamilyIdHolds]
    cases hfirst : firstFamily (datagramAttributes buf n) with
    | none => simp [holder_of_firstFamily_none hfirst]
    | some a =>
        simp only [Option.some.injEq, forall_eq', hwalked, true_implies]
        by_cases hlen : rtaLength 2 ≤ a.len
        · rw [holder_of_firstFamily hfirst hlen]
          have hbounds := (harea.bounds (List.mem_of_find?_eq_some hfirst)).2.2.1
          refine iff_of_true ⟨?_, rfl⟩ (.inl hlen)
          simp only [rtaLength, rtaAlign, sizeofRtattr, rtaData] at hlen ⊢
          omega
        · rw [or_iff_right hlen]
          refine and_congr_right fun _ => ?_
          cases holder (datagramAttributes buf n) with
          | none => simp [idOf]
          | some b =>
              simp only [idOf, Option.some.injEq, exists_eq_left']
              exact Int.natCast_inj
  · -- a refused datagram: no attribute is read
    obtain ⟨r, hrun, hused, hvalue⟩ := exists_of_not_walked hwalked
    refine iff_of_true ⟨r, fun fuel _ => hrun fuel, ?_, ?_⟩ fun h => absurd h hwalked
    · simp [hused]
    · rw [if_neg hwalked, hvalue]

/-- A datagram of 24 bytes whose only attribute is of the type and has no payload. -/
def emptyFamily (i : ℕ) : UInt8 :=
  [24, 0, 0, 0, 16, 0, 0, 0, 0, 0, 0, 0, 0, 0, 0, 0, 1, 2, 0, 0, 4, 0, 1, 0].getD i 0

/-- The id is read from behind the datagram. -/
theorem family_id_behind : ¬ FamilyIdRight emptyFamily 24 := by
  rintro ⟨r, hrun, hused, -⟩
  have hresult : udpSpliceGetFamilyId 0 24 emptyFamily 7 =
      some ⟨0, none, [20, 21, 22, 23, 24, 25]⟩ := by decide +kernel
  obtain rfl := Option.some.inj (hresult.symm.trans (hrun 7 (by decide)))
  exact absurd (hused 24 (by decide)) (by decide)

end PthreadBenchmark.UdpSplice
