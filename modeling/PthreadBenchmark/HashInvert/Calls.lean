import PthreadBenchmark.HashInvert.Agreement

/-! # The calls that the reconstructions make

Here the parameters of the hash functions are any, and it counts only which calls of
`checkLocation`, `setLocation` and `resetLocation` are made. Other threads write to `checked` as
well, so what `checkLocation` returns is given. -/

namespace PthreadBenchmark.HashInvert

open BitTable

variable {w i h count fuel : ℕ}

/-! ## Parts that make their calls in order -/

section InOrder

variable {α β : Type*} {P : β → Prop}

/-- The parts of a loop, unless one of them does not end. -/
def inOrder (part : α → Option (List β)) : List α → Option (List β)
  | [] => some []
  | x :: xs => (part x).bind fun calls => (inOrder part xs).map (calls ++ ·)

/-- It comes to its end, and all its calls have the property. -/
def Makes (P : β → Prop) (calls : Option (List β)) : Prop :=
  ∃ cs, calls = some cs ∧ ∀ c ∈ cs, P c

theorem makes_some {cs : List β} : Makes P (some cs) ↔ ∀ c ∈ cs, P c := by
  simp [Makes]

theorem makes_ite {p : Prop} [Decidable p] {calls : Option (List β)} :
    Makes P (if p then calls else some []) ↔ (p → Makes P calls) := by
  split
  · next hp => simp [hp]
  · next hp => simp [hp, makes_some]

theorem makes_inOrder {part : α → Option (List β)} {xs : List α} :
    Makes P (inOrder part xs) ↔ ∀ x ∈ xs, Makes P (part x) := by
  induction xs with
  | nil => simp [inOrder, Makes]
  | cons x xs ih =>
      rw [List.forall_mem_cons, ← ih, inOrder]
      cases hx : part x with
      | none => simp [Makes]
      | some cs =>
          cases hxs : inOrder part xs with
          | none => simp [Makes]
          | some cs' => simp [makes_some, or_imp, forall_and]

end InOrder

/-! ## The loops -/

/-- A filter with any parameters of its hash functions; `is_in` is code of another file. -/
structure Parameters (w : ℕ) extends Bloom w where
  aHash : ℕ → ℕ
  bHash : ℕ → ℕ
  m : ℕ → ℕ
  isIn : ℕ → Bool
  nVertices_pos : 0 < nVertices
  aHash_pos : ∀ h, 0 < aHash h
  m_pos : ∀ h, 0 < m h

/-- `M` is the second argument of the last two. -/
inductive Call where
  | resetLocation (value : ℤ)
  | checkLocation (value : ℤ)
  | setChecked (value : ℤ)
  | setM (value : ℤ)
  deriving DecidableEq, Repr

def Call.value : Call → ℤ
  | .resetLocation value | .checkLocation value | .setChecked value | .setM value => value

namespace Parameters

variable (f : Parameters w)

/-- The value that `reconstruct0` assigns to `sample`, before the cast. -/
def value0 (i h count : ℕ) : ℚ :=
  ((i : ℚ) - f.bHash h) / f.aHash h + ((count : ℚ) * f.m h) / f.aHash h

/-- The value `s` of `reconstruct1`. -/
def value1 (i h count : ℕ) : ℚ := ((i : ℚ) - f.bHash h + count * f.m h) / f.aHash h

/-- The calls in a round of the loop of `reconstruct0`. -/
def round0 (i h count : ℕ) : List Call :=
  let offset : ℤ := i - f.bHash h
  let product : ℤ := count * f.m h
  if (offset.tmod (f.aHash h) + product.tmod (f.aHash h)).tmod (f.aHash h) = 0 then
    let sample := truncate (f.value0 i h count)
    if 0 < sample then [.resetLocation sample] else []
  else []

/-- The calls in a round of the loop of `reconstruct1`. -/
def round1 (isChecked : ℕ → ℕ → ℕ → Bool) (i h count : ℕ) : List Call :=
  let s := f.value1 i h count
  let sample := truncate s
  if (⌊s⌋ : ℚ) = s ∧ 0 < sample ∧ sample < f.nVertices then
    .checkLocation sample ::
      if isChecked i h count then []
      else .setChecked sample :: if f.isIn sample.toNat then [.setM sample] else []
  else []

/-- `while (sample<nVertices)`, for as many rounds as `fuel` says. A round leaves its value in
`sample`. -/
def whileLoop (round : ℕ → List Call) (value : ℕ → ℚ) : ℕ → ℤ → ℕ → Option (List Call)
  | 0, _, _ => none
  | fuel + 1, sample, count =>
    if sample < f.nVertices then
      (whileLoop round value fuel (truncate (value count)) (count + 1)).map (round count ++ ·)
    else some []

def while0 (fuel i h : ℕ) : Option (List Call) :=
  f.whileLoop (f.round0 i h) (f.value0 i h) fuel 0 0

def while1 (isChecked : ℕ → ℕ → ℕ → Bool) (fuel i h : ℕ) : Option (List Call) :=
  f.whileLoop (f.round1 isChecked i h) (f.value1 i h) fuel 0 0

/-- The loop over the bits of a word, and that over the hash functions. -/
def reconstruct0 (fuel loc : ℕ) : Option (List Call) :=
  inOrder (fun i =>
      if f.bits loc i = 0#w then inOrder (f.while0 fuel i) (List.range 3) else some [])
    (List.range' (loc * w) w)

def reconstruct1 (isChecked : ℕ → ℕ → ℕ → Bool) (fuel loc : ℕ) : Option (List Call) :=
  inOrder (fun i =>
      if f.bits loc i ≠ 0#w then inOrder (f.while1 isChecked fuel i) (List.range 3) else some [])
    (List.range' (loc * w) w)

/-! ## The rounds that are made -/

/-- What both values are the quotient of, by `aHash[h]`. -/
def numerator (i h count : ℕ) : ℤ := i - f.bHash h + count * f.m h

def sample (i h count : ℕ) : ℤ := (f.numerator i h count).tdiv (f.aHash h)

theorem truncate_value0 (i h count : ℕ) : truncate (f.value0 i h count) = f.sample i h count := by
  have hvalue : f.value0 i h count = (f.numerator i h count : ℚ) / f.aHash h := by
    rw [value0, numerator, ← add_div]
    push_cast
    rfl
  rw [hvalue, Hashed.truncate_div _ (f.aHash_pos h), sample]

theorem value1_eq (i h count : ℕ) :
    f.value1 i h count = (f.numerator i h count : ℚ) / f.aHash h := by
  rw [value1, numerator]
  push_cast
  rfl

theorem truncate_value1 (i h count : ℕ) : truncate (f.value1 i h count) = f.sample i h count := by
  rw [value1_eq, Hashed.truncate_div _ (f.aHash_pos h), sample]

theorem numerator_lt_succ (i h count : ℕ) :
    f.numerator i h count < f.numerator i h (count + 1) := by
  have hm := f.m_pos h
  rw [numerator, numerator]
  push_cast
  rw [add_mul]
  omega

theorem numerator_mono {k : ℕ} (hle : count ≤ k) :
    f.numerator i h count ≤ f.numerator i h k := by
  induction k, hle using Nat.le_induction with
  | base => exact le_rfl
  | succ k _ ih => exact ih.trans (f.numerator_lt_succ i h k).le

theorem le_sample_iff {q : ℤ} (hq : 0 < q) :
    q ≤ f.sample i h count ↔ f.aHash h * q ≤ f.numerator i h count := by
  have ha : (0 : ℤ) < f.aHash h := Int.natCast_pos.mpr (f.aHash_pos h)
  rw [sample]
  by_cases hnonneg : 0 ≤ f.numerator i h count
  · rw [Int.tdiv_eq_ediv_of_nonneg hnonneg, Int.le_ediv_iff_mul_le ha, mul_comm]
  · have hneg : 0 ≤ (-f.numerator i h count).tdiv (f.aHash h) :=
      Int.tdiv_nonneg (by omega) ha.le
    have hprod : 0 < f.aHash h * q := mul_pos ha hq
    rw [Int.neg_tdiv] at hneg
    constructor <;> intro hle <;> omega

/-- The numerator that is no longer below those of the vertices. -/
def limit (h : ℕ) : ℤ := f.aHash h * f.nVertices

theorem sample_lt_iff : f.sample i h count < f.nVertices ↔ f.numerator i h count < f.limit h := by
  rw [← not_le, ← not_le, f.le_sample_iff (Int.natCast_pos.mpr f.nVertices_pos), limit]

/-- The loop of the bit `i` and the hash function `h` makes the round `count`. -/
def Executed (i h count : ℕ) : Prop := count = 0 ∨ f.numerator i h (count - 1) < f.limit h

section WhileLoop

variable {round : ℕ → List Call} {value : ℕ → ℚ} {calls : List Call} {c : Call} {s : ℤ}
  {P : Call → Prop}

/-- The induction is on the rounds. -/
theorem mem_whileLoop_iff (hvalue : ∀ k, truncate (value k) = f.sample i h k)
    (hrun : f.whileLoop round value fuel s count = some calls) :
    c ∈ calls ↔ s < f.nVertices ∧
      ∃ k, count ≤ k ∧ (k = count ∨ f.numerator i h (k - 1) < f.limit h) ∧ c ∈ round k := by
  induction fuel generalizing s count calls with
  | zero => cases hrun
  | succ fuel ih =>
      rw [whileLoop] at hrun
      split at hrun
      · next htest =>
          obtain ⟨rest, hrest, rfl⟩ := Option.map_eq_some_iff.mp hrun
          rw [List.mem_append, ih hrest, hvalue, f.sample_lt_iff]
          constructor
          · rintro (hc | ⟨hlt, k, hk, hor, hc⟩)
            · exact ⟨htest, count, le_rfl, .inl rfl, hc⟩
            · refine ⟨htest, k, Nat.le_of_succ_le hk, .inr ?_, hc⟩
              rcases hor with rfl | hlast
              · exact hlt
              · exact hlast
          · rintro ⟨-, k, hk, hor, hc⟩
            by_cases heq : k = count
            · subst heq
              exact .inl hc
            · have hlast := hor.resolve_left heq
              have hlt := (f.numerator_mono (i := i) (h := h) (Nat.le_pred_of_lt
                (lt_of_le_of_ne hk (Ne.symm heq)))).trans_lt hlast
              exact .inr ⟨hlt, k, lt_of_le_of_ne hk (Ne.symm heq), .inr hlast, hc⟩
      · next htest =>
          cases hrun
          simp [htest]

/-- The numerators grow, so that the loop ends. -/
theorem whileLoop_isSome (hvalue : ∀ k, truncate (value k) = f.sample i h k) (hfuel : 0 < fuel)
    (hbound : s < f.nVertices → (f.limit h - f.numerator i h count).toNat + 2 ≤ fuel) :
    (f.whileLoop round value fuel s count).isSome := by
  induction fuel generalizing s count with
  | zero => exact absurd hfuel (lt_irrefl 0)
  | succ fuel ih =>
      rw [whileLoop]
      split
      · next htest =>
          have hle := hbound htest
          rw [Option.isSome_map]
          refine ih (by omega) fun hlt => ?_
          rw [hvalue, f.sample_lt_iff] at hlt
          have hgrows := f.numerator_lt_succ i h count
          omega
      · rfl

/-- The loop makes the calls of the rounds that it comes to. -/
theorem makes_whileLoop (hvalue : ∀ k, truncate (value k) = f.sample i h k)
    (hsome : (f.whileLoop round value fuel 0 0).isSome) :
    Makes P (f.whileLoop round value fuel 0 0) ↔
      ∀ k, f.Executed i h k → ∀ c ∈ round k, P c := by
  obtain ⟨calls, hrun⟩ := Option.isSome_iff_exists.mp hsome
  have hmem := fun c => f.mem_whileLoop_iff (c := c) hvalue hrun
  have hstart : (0 : ℤ) < f.nVertices := Int.natCast_pos.mpr f.nVertices_pos
  simp only [hrun, makes_some, hmem, hstart, true_and, Nat.zero_le]
  constructor
  · exact fun hall k hk c hc => hall c ⟨k, hk, hc⟩
  · rintro hall c ⟨k, hk, hc⟩
    exact hall k hk c hc

end WhileLoop

/-! ## The calls of a round -/

/-- The value is that of a vertex, and its word is one of those that are allocated. -/
def InRange (c : Call) : Prop :=
  0 < c.value ∧ c.value < f.nVertices ∧ c.value.toNat / w < f.size

theorem inRange_iff {c : Call} : f.InRange c ↔ 0 < c.value ∧ c.value < f.nVertices := by
  refine ⟨fun hc => ⟨hc.1, hc.2.1⟩, fun hc => ⟨hc.1, hc.2, ?_⟩⟩
  exact div_lt_wordCount f.numBits_pos ((Int.toNat_lt hc.1.le).mpr hc.2)

/-- `reconstruct0` does not compare what it finds with `nVertices`. -/
theorem round0_inRange_iff : (∀ c ∈ f.round0 i h count, f.InRange c) ↔
    (f.limit h ≤ f.numerator i h count → ¬ (f.aHash h : ℤ) ∣ f.numerator i h count) := by
  have hpos : (0 : ℤ) < f.nVertices := Int.natCast_pos.mpr f.nVertices_pos
  have hlimit : f.limit h ≤ f.numerator i h count ↔ f.nVertices ≤ f.sample i h count := by
    rw [← not_lt, ← not_lt, f.sample_lt_iff]
  rw [hlimit]
  simp only [round0, dvd_iff_tmod_add_tmod, truncate_value0]
  rw [← numerator]
  by_cases hdvd : (f.aHash h : ℤ) ∣ f.numerator i h count
  · by_cases hsample : 0 < f.sample i h count
    · simp [hdvd, hsample, inRange_iff, Call.value]
    · have hbelow : ¬ f.nVertices ≤ f.sample i h count := by omega
      simp [hdvd, hsample, hbelow]
  · simp [hdvd]

theorem round1_inRange (isChecked : ℕ → ℕ → ℕ → Bool) :
    ∀ c ∈ f.round1 isChecked i h count, f.InRange c := by
  intro c hc
  simp only [round1] at hc
  split at hc
  · next hsample =>
      have hvalue : c.value = truncate (f.value1 i h count) := by
        simp only [List.mem_cons] at hc
        rcases hc with rfl | hc
        · rfl
        · split at hc
          · cases hc
          · rcases List.mem_cons.mp hc with rfl | hc
            · rfl
            · split at hc
              · rw [List.mem_singleton.mp hc]
                rfl
              · cases hc
      rw [inRange_iff, hvalue]
      exact hsample.2
  · cases hc

/-! ## Result -/

/-- The first numerator of the loop that is not below those of the vertices. -/
def Passes (i h count : ℕ) : Prop :=
  f.limit h ≤ f.numerator i h count ∧ f.Executed i h count

/-- With enough fuel all loops come to an end. -/
theorem exists_fuel (isChecked : ℕ → ℕ → ℕ → Bool) : ∃ fuel, ∀ i, ∀ h < 3,
    (f.while0 fuel i h).isSome ∧ (f.while1 isChecked fuel i h).isSome := by
  refine ⟨(f.limit 0 + f.bHash 0).toNat + (f.limit 1 + f.bHash 1).toNat +
    (f.limit 2 + f.bHash 2).toNat + 2, fun i h hh => ?_⟩
  have hbound : (f.limit h - f.numerator i h 0).toNat + 2 ≤ (f.limit 0 + f.bHash 0).toNat +
      (f.limit 1 + f.bHash 1).toNat + (f.limit 2 + f.bHash 2).toNat + 2 := by
    rw [numerator, Nat.cast_zero, zero_mul]
    have hcases : h = 0 ∨ h = 1 ∨ h = 2 := by omega
    rcases hcases with rfl | rfl | rfl <;> omega
  exact ⟨f.whileLoop_isSome (f.truncate_value0 i h) (Nat.succ_pos _) fun _ => hbound,
    f.whileLoop_isSome (f.truncate_value1 i h) (Nat.succ_pos _) fun _ => hbound⟩

theorem makes_reconstruct0 {P : Call → Prop} {loc : ℕ} : Makes P (f.reconstruct0 fuel loc) ↔
    ∀ i ∈ List.range' (loc * w) w, ¬ Mem f.bloomVector i →
      ∀ h < 3, Makes P (f.while0 fuel i h) := by
  rw [reconstruct0, makes_inOrder]
  refine forall₂_congr fun i hi => ?_
  rw [makes_ite, bits_eq_zero_iff f.toBloom hi, makes_inOrder]
  simp only [List.mem_range]

theorem makes_reconstruct1 {P : Call → Prop} {isChecked : ℕ → ℕ → ℕ → Bool} {loc : ℕ} :
    Makes P (f.reconstruct1 isChecked fuel loc) ↔
      ∀ i ∈ List.range' (loc * w) w, Mem f.bloomVector i →
        ∀ h < 3, Makes P (f.while1 isChecked fuel i h) := by
  rw [reconstruct1, makes_inOrder]
  refine forall₂_congr fun i hi => ?_
  rw [makes_ite, Ne, bits_eq_zero_iff f.toBloom hi, not_not, makes_inOrder]
  simp only [List.mem_range]

/-- All calls of `reconstruct1` are in range, as far as its loops end. -/
theorem makes_while1 {isChecked : ℕ → ℕ → ℕ → Bool}
    (hsome : (f.while1 isChecked fuel i h).isSome) :
    Makes f.InRange (f.while1 isChecked fuel i h) :=
  (f.makes_whileLoop (f.truncate_value1 i h) hsome).mpr fun _ _ => f.round1_inRange isChecked

theorem makes_while0 (hsome : (f.while0 fuel i h).isSome) :
    Makes f.InRange (f.while0 fuel i h) ↔
      ∀ count, f.Passes i h count → ¬ (f.aHash h : ℤ) ∣ f.numerator i h count := by
  refine (f.makes_whileLoop (f.truncate_value0 i h) hsome).trans (forall_congr' fun count => ?_)
  rw [f.round0_inRange_iff, Passes, and_comm, and_imp]

/-- The loops come to their ends, and all their calls are in range. -/
def CallsInRange (isChecked : ℕ → ℕ → ℕ → Bool) : Prop :=
  ∃ fuel, ∀ loc < f.words, Makes f.InRange (f.reconstruct0 fuel loc) ∧
    Makes f.InRange (f.reconstruct1 isChecked fuel loc)

theorem not_dvd_of_callsInRange {isChecked : ℕ → ℕ → ℕ → Bool} (hcalls : f.CallsInRange isChecked)
    (hi : i < f.words * w) (hzero : ¬ Mem f.bloomVector i) (hh : h < 3)
    (hpasses : f.Passes i h count) : ¬ (f.aHash h : ℤ) ∣ f.numerator i h count := by
  obtain ⟨fuel, hall⟩ := hcalls
  have hloc : i / w < f.words := (Nat.div_lt_iff_lt_mul f.numBits_pos).mpr hi
  have hmem : i ∈ List.range' (i / w * w) w :=
    List.mem_range'_1.mpr ⟨Nat.div_mul_le_self i w, Nat.lt_div_mul_add f.numBits_pos⟩
  have hmakes := f.makes_reconstruct0.mp (hall (i / w) hloc).1 i hmem hzero h hh
  obtain ⟨calls, hrun, -⟩ := id hmakes
  have hsome : (f.while0 fuel i h).isSome := Option.isSome_iff_exists.mpr ⟨calls, hrun⟩
  exact (f.makes_while0 hsome).mp hmakes count hpasses

/-- For any filter with at least one vertex and any parameters of the hash functions, whatever the
other threads have checked: the loops of both reconstructions come to their ends, and all their
calls are about vertices and their words, if and only if for no clear bit and no hash function the
first numerator behind the vertices is a multiple of `aHash[h]`. -/
theorem callsInRange_iff (isChecked : ℕ → ℕ → ℕ → Bool) : f.CallsInRange isChecked ↔
    ∀ i < f.words * w, ¬ Mem f.bloomVector i → ∀ h < 3, ∀ count, f.Passes i h count →
      ¬ (f.aHash h : ℤ) ∣ f.numerator i h count := by
  constructor
  · exact fun hcalls i hi hzero h hh count => f.not_dvd_of_callsInRange hcalls hi hzero hh
  · intro hclean
    obtain ⟨fuel, hsome⟩ := f.exists_fuel isChecked
    refine ⟨fuel, fun loc hloc => ⟨f.makes_reconstruct0.mpr fun i hi hzero h hh => ?_,
      f.makes_reconstruct1.mpr fun i _ _ h hh => f.makes_while1 (hsome i h hh).2⟩⟩
    refine (f.makes_while0 (hsome i h hh).1).mpr (hclean i ?_ hzero h hh)
    have hlt := (List.mem_range'_1.mp hi).2
    have hmul : (loc + 1) * w ≤ f.words * w := Nat.mul_le_mul_right w hloc
    rw [Nat.add_mul, one_mul] at hmul
    exact hlt.trans_le hmul

end Parameters

/-! ## The filters whose hash functions stay inside of them -/

/-- The parameters of such a filter. -/
def Hashed.parameters (f : Hashed w) (hpos : 0 < f.nVertices) : Parameters w :=
  { f with
    isIn := fun v => decide (f.isIn v)
    nVertices_pos := hpos
    m_pos := fun h => (Nat.zero_le _).trans_lt (f.bHash_lt h) }

/-- Where all calls are in range, no round of `reconstruct0` leaves the words of `M`. -/
theorem Hashed.bound_of_callsInRange {f : Hashed w} {hpos : 0 < f.nVertices}
    {isChecked : ℕ → ℕ → ℕ → Bool} (hcalls : (f.parameters hpos).CallsInRange isChecked)
    (hi : i < f.words * w) (hzero : ¬ Mem f.bloomVector i) (hh : h < 3)
    (hex : HashInvert.Executed f i h count) (v : ℕ)
    (hv : f.numerator i h count = f.aHash h * v) : v / w < f.size := by
  apply div_lt_wordCount f.numBits_pos
  by_contra hge
  have hlimit : (f.parameters hpos).limit h ≤ (f.parameters hpos).numerator i h count := by
    have hmul : (f.aHash h : ℤ) * f.nVertices ≤ f.aHash h * v := by
      exact_mod_cast Nat.mul_le_mul_left (f.aHash h) (not_lt.mp hge)
    exact hmul.trans hv.ge
  exact (f.parameters hpos).not_dvd_of_callsInRange hcalls hi hzero hh ⟨hlimit, hex.2⟩ ⟨v, hv⟩

/-- An empty filter of one word for as many vertices as a word has bits. -/
def emptyWord : Parameters 32 where
  numBits_pos := Nat.zero_lt_succ 31
  vectSize := 32
  nVertices := 32
  bloomVector := fun _ => 0#32
  aHash := fun _ => 1
  bHash := fun _ => 0
  m := fun _ => 1
  isIn := fun _ => false
  nVertices_pos := Nat.zero_lt_succ 31
  aHash_pos _ := Nat.one_pos
  m_pos _ := Nat.one_pos

/-- The bit 0 stands for all numbers, and the last round comes to the number 32, whose word is not
allocated. -/
theorem not_callsInRange : ¬ emptyWord.CallsInRange fun _ _ _ => false := by
  intro hcalls
  have hpasses : emptyWord.Passes 0 0 32 := ⟨by decide, .inr (by decide)⟩
  refine emptyWord.not_dvd_of_callsInRange hcalls (i := 0) (h := 0) ?_ ?_ (by decide) hpasses ?_
  · decide
  · decide
  · exact one_dvd _

end PthreadBenchmark.HashInvert
