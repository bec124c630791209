import PthreadBenchmark.HashInvert.Reconstruct

/-! # When the two reconstructions agree

`reconstruct0` removes from `M` what a zero bit stands for, `reconstruct1` adds the members among
what a one bit stands for. A bit from `m[h]` on stands for vertices as well, but the hash function
`h` never sets it. -/

namespace PthreadBenchmark.HashInvert

open BitTable Collect

variable {w : ℕ} {f : Hashed w} {i h count v size : ℕ} {M M' : ℕ → BitVec w} {k : ℤ × ℕ} {x y : ℤ}

/-! ## Words -/

theorem bits_eq_zero_iff (f : Bloom w) {loc : ℕ} (hi : i ∈ List.range' (loc * w) w) :
    f.bits loc i = 0#w ↔ ¬ Mem f.bloomVector i := by
  obtain ⟨hle, hlt⟩ := List.mem_range'_1.mp hi
  have hloc : i / w = loc := Nat.div_eq_of_lt_le hle (by rwa [Nat.add_mul, one_mul])
  rw [← not_iff_not, not_not, Bloom.bits, ← hloc, Mem]
  exact and_mask_ne_zero_iff f.numBits_pos

/-- The bits of the words up to `words` are those up to `words * NUM_BITS`. -/
theorem exists_bit_iff (words : ℕ) (hw : 0 < w) {P : ℕ → Prop} :
    (∃ loc ∈ List.range words, ∃ i ∈ List.range' (loc * w) w, P i) ↔ ∃ i < words * w, P i := by
  constructor
  · rintro ⟨loc, hloc, i, hi, hP⟩
    obtain ⟨-, hlt⟩ := List.mem_range'_1.mp hi
    have hmul : (loc + 1) * w ≤ words * w := Nat.mul_le_mul_right w (List.mem_range.mp hloc)
    rw [Nat.add_mul, one_mul] at hmul
    exact ⟨i, hlt.trans_le hmul, hP⟩
  · rintro ⟨i, hi, hP⟩
    refine ⟨i / w, List.mem_range.mpr ((Nat.div_lt_iff_lt_mul hw).mpr hi), i,
      List.mem_range'_1.mpr ⟨Nat.div_mul_le_self i w, ?_⟩, hP⟩
    exact Nat.lt_div_mul_add hw

/-- A loop over the words of the filter is a loop over its bits. -/
theorem collects_words {σ : Type*} {inv : σ → Prop} {view : σ → Set ℕ} {p : ℕ → σ → Option σ}
    {safe : ℕ → Prop} {E : ℕ → Set ℕ} {words : ℕ} (hw : 0 < w)
    (h : ∀ loc, Collects inv view (p loc)
      (InInt ((loc + 1) * w) ∧ ∀ i ∈ List.range' (loc * w) w, safe i)
      {v | ∃ i ∈ List.range' (loc * w) w, v ∈ E i}) (hwords : InInt (words * w)) :
    Collects inv view (fun s => (List.range words).foldlM (fun s loc => p loc s) s)
      (∀ i < words * w, safe i) {v | ∃ i < words * w, v ∈ E i} := by
  refine (Collects.foldlM fun loc _ => h loc).congr ?_ (Set.ext fun v => exists_bit_iff words hw)
  have hint : ∀ loc ∈ List.range words, InInt (((loc : ℤ) + 1) * w) := by
    intro loc hloc
    have hle : ((loc : ℤ) + 1) * w ≤ words * w := by
      exact_mod_cast Nat.mul_le_mul_right w (List.mem_range.mp hloc)
    have hnonneg : 0 ≤ ((loc : ℤ) + 1) * w := by positivity
    rw [InInt] at hwords ⊢
    omega
  have hnot := exists_bit_iff words hw (P := fun i => ¬ safe i)
  have hsafe : (∀ loc ∈ List.range words, ∀ i ∈ List.range' (loc * w) w, safe i) ↔
      ∀ i < words * w, safe i := by
    simpa only [not_exists, not_and, not_not] using not_congr hnot
  rw [← hsafe]
  exact forall₂_congr fun loc hloc => and_iff_right (hint loc hloc)

theorem div_lt_wordCount (hw : 0 < w) (hv : v < size) : v / w < wordCount size w := by
  rw [wordCount, Nat.div_lt_iff_lt_mul hw]
  have hdiv := Nat.div_add_mod (size + w - 1) w
  have hmod := Nat.mod_lt (size + w - 1) hw
  rw [mul_comm] at hdiv
  omega

/-! ## The rounds of a loop -/

/-- The loop of the bit `i` and the hash function `h` comes to `count`. -/
def Executed (f : Hashed w) (i h count : ℕ) : Prop :=
  0 < f.nVertices ∧ (count = 0 ∨ f.numerator i h (count - 1) < f.aHash h * f.nVertices)

theorem sample_lt_iff (hpos : 0 < f.nVertices) :
    f.sample i h count < f.nVertices ↔ f.numerator i h count < f.aHash h * f.nVertices := by
  refine ⟨f.lt_of_sample_lt, fun hlt => ?_⟩
  have ha : (0 : ℤ) < f.aHash h := Int.natCast_pos.mpr (f.aHash_pos h)
  rw [Hashed.sample]
  by_cases hnonneg : 0 ≤ f.numerator i h count
  · rw [Int.tdiv_eq_ediv_of_nonneg hnonneg, Int.ediv_lt_iff_lt_mul ha, mul_comm]
    exact hlt
  · have hneg : 0 ≤ (-f.numerator i h count).tdiv (f.aHash h) :=
      Int.tdiv_nonneg (by omega) ha.le
    rw [Int.neg_tdiv] at hneg
    omega

theorem numerator_mono (f : Hashed w) (i h count : ℕ) :
    f.numerator i h count ≤ f.numerator i h (count + 1) := by
  rw [f.numerator_succ]
  omega

/-- Both loops assign the same values to `sample`. -/
def next (f : Hashed w) (i h : ℕ) (k : ℤ × ℕ) : ℤ × ℕ := (f.sample i h k.2, k.2 + 1)

theorem next0_eq : f.next0 i h = next f i h := by
  funext k
  rw [Hashed.next0, next, f.truncate_value0]

theorem next1_eq : f.next1 i h = next f i h := by
  funext k
  rw [Hashed.next1, next, f.truncate_value1]

theorem test_next_iff (hpos : 0 < f.nVertices) :
    f.test (next f i h k) = true ↔ f.numerator i h k.2 < f.aHash h * f.nVertices := by
  rw [Hashed.test, next, decide_eq_true_iff, sample_lt_iff hpos]

theorem executed_of_visited {k₀ : ℤ × ℕ} (hpos : 0 < f.nVertices)
    (hk : Visited f.test (next f i h) k₀ k) (hk₀ : Executed f i h k₀.2) : Executed f i h k.2 := by
  induction hk with
  | here _ => exact hk₀
  | next _ hvisited ih =>
      apply ih
      exact ⟨hpos, .inr ((test_next_iff hpos).mp hvisited.test_eq)⟩

theorem visited_of_executed (hex : Executed f i h count) :
    ∃ k, Visited f.test (next f i h) (0, 0) k ∧ k.2 = count := by
  obtain ⟨hpos, hor⟩ := hex
  induction count with
  | zero =>
      refine ⟨(0, 0), .here ?_, rfl⟩
      simpa [Hashed.test] using hpos
  | succ count ih =>
      have hlt := hor.resolve_left (Nat.succ_ne_zero count)
      rw [Nat.add_sub_cancel] at hlt
      obtain ⟨k, hk, rfl⟩ := ih <| by
        cases hcount : count with
        | zero => exact .inl rfl
        | succ c => exact .inr ((numerator_mono f i h c).trans_lt (hcount ▸ hlt))
      exact ⟨_, hk.step ((test_next_iff hpos).mpr hlt), rfl⟩

theorem visited_iff_executed {P : ℕ → Prop} :
    (∃ k, Visited f.test (next f i h) (0, 0) k ∧ P k.2) ↔
      ∃ count, Executed f i h count ∧ P count := by
  constructor
  · rintro ⟨k, hk, hP⟩
    have hpos : 0 < f.nVertices := by simpa [Hashed.test] using hk.test_eq
    exact ⟨k.2, executed_of_visited hpos hk ⟨hpos, .inl rfl⟩, hP⟩
  · rintro ⟨count, hex, hP⟩
    obtain ⟨k, hk, rfl⟩ := visited_of_executed hex
    exact ⟨k, hk, hP⟩

theorem visited_imp_iff {P : ℕ → Prop} :
    (∀ k, Visited f.test (next f i h) (0, 0) k → P k.2) ↔
      ∀ count, Executed f i h count → P count := by
  have hnot := visited_iff_executed (f := f) (i := i) (h := h) (P := fun count => ¬ P count)
  simpa only [not_exists, not_and, not_not] using not_congr hnot

/-- A loop comes to the vertices that hash to `i`, unless `i` is too large. -/
theorem exists_executed_iff (hv : v < f.nVertices) :
    (∃ count, Executed f i h count ∧ f.numerator i h count = f.aHash h * v) ↔
      i ≤ f.aHash h * v + f.bHash h ∧ i % f.m h = (f.aHash h * v + f.bHash h) % f.m h := by
  constructor
  · rintro ⟨count, -, heq⟩
    have hsum : f.aHash h * v + f.bHash h = i + count * f.m h := by
      rw [Hashed.numerator] at heq
      zify
      omega
    rw [hsum]
    exact ⟨Nat.le_add_right _ _, by rw [Nat.add_mul_mod_self_right]⟩
  · rintro ⟨hle, hmod⟩
    obtain ⟨count, hcount⟩ : f.m h ∣ f.aHash h * v + f.bHash h - i :=
      Nat.dvd_of_mod_eq_zero (Nat.sub_mod_eq_zero_of_mod_eq hmod.symm)
    have hnumerator : f.numerator i h count = f.aHash h * v := by
      rw [Hashed.numerator]
      zify [hle] at hcount
      rw [mul_comm (count : ℤ)]
      omega
    refine ⟨count, ⟨(Nat.zero_le v).trans_lt hv, ?_⟩, hnumerator⟩
    cases count with
    | zero => exact .inl rfl
    | succ c =>
        refine .inr ?_
        have hlt : (f.aHash h : ℤ) * v < f.aHash h * f.nVertices := by
          have ha := f.aHash_pos h
          exact_mod_cast Nat.mul_lt_mul_of_pos_left hv ha
        have hmono := numerator_mono f i h c
        rw [Nat.add_sub_cancel]
        omega

/-! ## `reconstruct0` -/

/-- A round of the first loop stays within `int` and within `M`. -/
structure Fits0 (f : Hashed w) (i h count : ℕ) : Prop where
  offset : InInt (i - f.bHash h)
  product : InInt (count * f.m h)
  sum : InInt (((i : ℤ) - f.bHash h).tmod (f.aHash h) + ((count : ℤ) * f.m h).tmod (f.aHash h))
  sample : InInt (f.sample i h count)
  bound : ∀ v : ℕ, 0 < v → f.numerator i h count = f.aHash h * v → v / w < f.size
  count : InInt (count + 1)

theorem toInt_eq_some_iff : toInt x = some y ↔ InInt x ∧ y = x := by
  rw [toInt]
  split
  · next h => simp [h, eq_comm]
  · next h => simp [h]

theorem dvd_iff_tmod_add_tmod (a : ℕ) :
    (x.tmod a + y.tmod a).tmod a = 0 ↔ (a : ℤ) ∣ x + y := by
  have hx := Int.tmod_add_mul_tdiv x a
  have hy := Int.tmod_add_mul_tdiv y a
  have hsum : x + y = x.tmod a + y.tmod a + a * (x.tdiv a + y.tdiv a) := by
    rw [mul_add]
    omega
  rw [← Int.dvd_iff_tmod_eq_zero, hsum]
  exact (dvd_add_left (dvd_mul_right _ _)).symm

theorem sample_eq {q : ℤ} (hq : f.numerator i h count = f.aHash h * q) :
    f.sample i h count = q := by
  have ha : (f.aHash h : ℤ) ≠ 0 := by
    have hpos := f.aHash_pos h
    omega
  rw [Hashed.sample, hq, Int.mul_tdiv_cancel_left q ha]

/-- A round that comes to a vertex assigns it to `sample`. -/
theorem hit_iff : 0 < v ∧ f.numerator i h count = f.aHash h * v ↔
    ((f.aHash h : ℤ) ∣ f.numerator i h count ∧ 0 < f.sample i h count) ∧
      v = (f.sample i h count).toNat := by
  constructor
  · rintro ⟨hv, heq⟩
    rw [sample_eq heq]
    exact ⟨⟨⟨_, heq⟩, by omega⟩, rfl⟩
  · rintro ⟨⟨⟨q, hq⟩, hpos⟩, rfl⟩
    rw [sample_eq hq] at hpos ⊢
    exact ⟨by omega, by rw [hq, Int.toNat_of_nonneg hpos.le]⟩

theorem body0_eq_some_iff : f.body0 i h k M = some M' ↔
    InInt (i - f.bHash h) ∧ InInt (k.2 * f.m h) ∧
    InInt (((i : ℤ) - f.bHash h).tmod (f.aHash h) + ((k.2 : ℤ) * f.m h).tmod (f.aHash h)) ∧
    InInt (f.sample i h k.2) ∧ InInt (k.2 + 1) ∧
    if (f.aHash h : ℤ) ∣ f.numerator i h k.2 ∧ 0 < f.sample i h k.2 then
      resetLocation f.size (f.sample i h k.2).toNat M = some M'
    else M = M' := by
  simp only [Hashed.body0, f.truncate_value0, bind, pure, Option.bind_eq_some_iff,
    toInt_eq_some_iff, and_assoc, exists_and_left, exists_eq_left, dvd_iff_tmod_add_tmod]
  refine and_congr_right fun _ => and_congr_right fun _ => and_congr_right fun _ => ?_
  rw [Hashed.numerator]
  by_cases hsample : InInt (f.sample i h k.2)
  · by_cases hcount : InInt ((k.2 : ℤ) + 1)
    · simp only [toInt, hsample, hcount, if_true, Option.bind_some, true_and]
      by_cases hdvd : (f.aHash h : ℤ) ∣ i - f.bHash h + k.2 * f.m h
      · by_cases hpos : 0 < f.sample i h k.2 <;> simp [hdvd, hpos]
      · simp [hdvd]
    · simp [toInt, hsample, hcount]
  · simp [toInt, hsample]

theorem body0_collects (f : Hashed w) (i h : ℕ) (k : ℤ × ℕ) :
    Collects (fun _ => True) (fun M => {v | ¬ Mem M v}) (f.body0 i h k) (Fits0 f i h k.2)
      {v | 0 < v ∧ f.numerator i h k.2 = f.aHash h * v} where
  isSome M _ := by
    rw [Option.isSome_iff_exists]
    simp only [body0_eq_some_iff]
    constructor
    · rintro ⟨M', hoffset, hproduct, hsum, hsample, hcount, hif⟩
      refine ⟨hoffset, hproduct, hsum, hsample, fun v hv heq => ?_, hcount⟩
      obtain ⟨hhit, rfl⟩ := hit_iff.mp ⟨hv, heq⟩
      rw [if_pos hhit, resetLocation, Option.ite_none_right_eq_some] at hif
      exact hif.1
    · intro hfits
      simp only [hfits.offset, hfits.product, hfits.sum, hfits.sample, hfits.count, true_and]
      split
      · next hhit =>
          obtain ⟨hpos, heq⟩ := hit_iff.mpr ⟨hhit, rfl⟩
          rw [resetLocation, if_pos (hfits.bound _ hpos heq)]
          exact ⟨_, rfl⟩
      · exact ⟨M, rfl⟩
  keeps M M' _ heq := by
    obtain ⟨-, -, -, -, -, hif⟩ := body0_eq_some_iff.mp heq
    refine ⟨trivial, Set.ext fun u => ?_⟩
    have hunion : u ∈ {v | ¬ Mem M v} ∪ {v : ℕ | 0 < v ∧ f.numerator i h k.2 = f.aHash h * v} ↔
        ¬ Mem M u ∨ ((f.aHash h : ℤ) ∣ f.numerator i h k.2 ∧ 0 < f.sample i h k.2) ∧
          u = (f.sample i h k.2).toNat := or_congr_right hit_iff
    rw [hunion]
    split at hif
    · next hhit =>
        rw [resetLocation, Option.ite_none_right_eq_some, Option.some.injEq] at hif
        rw [← hif.2, and_iff_right hhit]
        exact (not_congr (mem_erase_iff f.numBits_pos)).trans (by rw [not_and_or, not_not])
    · next hmiss =>
        subst hif
        exact (or_iff_left fun h => hmiss h.1).symm

theorem while0_collects (f : Hashed w) (i h : ℕ) :
    Collects (fun _ => True) (fun M => {v | ¬ Mem M v}) (f.while0 i h (0, 0))
      (∀ count, Executed f i h count → Fits0 f i h count)
      {v | 0 < v ∧ ∃ count, Executed f i h count ∧ f.numerator i h count = f.aHash h * v} := by
  refine (Collects.whileM (body0_collects f i h) (0, 0)).congr ?_ (Set.ext fun v => ?_)
  · rw [next0_eq]
    exact visited_imp_iff
  · rw [next0_eq]
    refine (visited_iff_executed (P := fun count =>
      0 < v ∧ f.numerator i h count = f.aHash h * v)).trans ?_
    simp only [and_left_comm, exists_and_left]
    exact Iff.rfl

/-- What the bits of the filter with `P` stand for: the vertices that a loop comes to. -/
def Reached (f : Hashed w) (P : ℕ → Prop) (v : ℕ) : Prop :=
  ∃ i < f.words * w, P i ∧ ∃ h < 3, ∃ count, Executed f i h count ∧
    f.numerator i h count = f.aHash h * v

theorem bit0_collects (f : Hashed w) (loc : ℕ) (hi : i ∈ List.range' (loc * w) w) :
    Collects (fun _ => True) (fun M => {v | ¬ Mem M v}) (f.bit0 loc i)
      (¬ Mem f.bloomVector i → ∀ h < 3, ∀ count, Executed f i h count → Fits0 f i h count)
      {v | ¬ Mem f.bloomVector i ∧ 0 < v ∧ ∃ h < 3, ∃ count, Executed f i h count ∧
        f.numerator i h count = f.aHash h * v} := by
  refine (Collects.foldlM fun h _ => while0_collects f i h).ite.congr ?_ (Set.ext fun v => ?_)
  · rw [bits_eq_zero_iff f.toBloom hi]
    simp only [List.mem_range]
  · rw [bits_eq_zero_iff f.toBloom hi]
    simp only [List.mem_range, Set.mem_ofPred_eq, and_left_comm, exists_and_left]

theorem toInt_isSome_iff : (toInt x).isSome = true ↔ InInt x := by
  rw [toInt]
  split
  · next h => simp [h]
  · next h => simp [h]

theorem run0_collects (f : Hashed w) (hwords : InInt (f.words * w)) :
    Collects (fun _ => True) (fun M => {v | ¬ Mem M v})
      (fun M => (List.range f.words).foldlM (fun M loc => f.reconstruct0 loc M) M)
      (∀ i < f.words * w, ¬ Mem f.bloomVector i →
        ∀ h < 3, ∀ count, Executed f i h count → Fits0 f i h count)
      {v | 0 < v ∧ Reached f (fun i => ¬ Mem f.bloomVector i) v} := by
  have hword := fun loc => (Collects.foldlM fun i hi => bit0_collects f loc hi).guard
    (toInt_isSome_iff (x := (loc + 1) * w))
  refine (collects_words f.numBits_pos hword hwords).congr Iff.rfl (Set.ext fun v => ?_)
  constructor
  · rintro ⟨i, hi, hbit, hv, hreached⟩
    exact ⟨hv, i, hi, hbit, hreached⟩
  · rintro ⟨hv, i, hi, hbit, hreached⟩
    exact ⟨i, hi, hbit, hv, hreached⟩

/-! ## `reconstruct1` -/

/-- A round of the second loop stays within `int`. -/
structure Fits1 (f : Hashed w) (i h count : ℕ) : Prop where
  sample : InInt (f.sample i h count)
  count : InInt (count + 1)

/-- `M` has the members among what has been checked. -/
def MembersOnly (f : Hashed w) (s : Hashed.Tables w) : Prop :=
  ∀ v < f.nVertices, Mem s.M v ↔ Mem s.checked v ∧ f.isIn v

theorem floor_value1_iff :
    (⌊f.value1 i h count⌋ : ℚ) = f.value1 i h count ↔ (f.aHash h : ℤ) ∣ f.numerator i h count := by
  have ha : (f.aHash h : ℚ) ≠ 0 := Nat.cast_ne_zero.mpr (f.aHash_pos h).ne'
  rw [f.value1_eq]
  constructor
  · intro hfloor
    refine ⟨⌊(f.numerator i h count : ℚ) / f.aHash h⌋, ?_⟩
    rw [eq_div_iff ha, mul_comm] at hfloor
    exact_mod_cast hfloor.symm
  · rintro ⟨q, hq⟩
    have hquot : (f.numerator i h count : ℚ) / f.aHash h = q := by
      rw [hq, div_eq_iff ha]
      push_cast
      ring
    rw [hquot, Int.floor_intCast]

theorem mem_setLocation_iff {u : ℕ} (hw : 0 < w) (h : setLocation size v M = some M') :
    Mem M' u ↔ Mem M u ∨ u = v := by
  rw [setLocation, Option.ite_none_right_eq_some, Option.some.injEq] at h
  rw [← h.2, mem_insert_iff hw]

theorem check_spec (hv : v < f.nVertices) {s : Hashed.Tables w} (hs : MembersOnly f s) :
    ∃ s', f.check v s = some s' ∧ MembersOnly f s' ∧
      {v | Mem s'.checked v} = {v | Mem s.checked v} ∪ {v} := by
  have hsize : v / w < f.size := div_lt_wordCount f.numBits_pos hv
  obtain ⟨checked, hchecked⟩ : ∃ checked, setLocation f.size v s.checked = some checked := by
    rw [setLocation, if_pos hsize]
    exact ⟨_, rfl⟩
  obtain ⟨M, hM⟩ : ∃ M, (if f.isIn v then setLocation f.size v s.M else some s.M) = some M := by
    rw [setLocation, if_pos hsize]
    split <;> exact ⟨_, rfl⟩
  refine ⟨{ s with checked := checked, M := M, localCount := s.localCount + 1 }, ?_, ?_, ?_⟩
  · by_cases hin : f.isIn v
    · rw [if_pos hin] at hM
      simp [Hashed.check, hchecked, hM, hin]
    · rw [if_neg hin, Option.some.injEq] at hM
      simp [Hashed.check, hchecked, hM, hin]
  · intro u hu
    rw [mem_setLocation_iff f.numBits_pos hchecked]
    split at hM
    · next hin =>
        rw [mem_setLocation_iff f.numBits_pos hM, hs u hu]
        constructor
        · rintro (⟨hu, hisIn⟩ | rfl)
          · exact ⟨.inl hu, hisIn⟩
          · exact ⟨.inr rfl, hin⟩
        · rintro ⟨hu | rfl, hisIn⟩
          · exact .inl ⟨hu, hisIn⟩
          · exact .inr rfl
    · next hout =>
        cases hM
        rw [hs u hu]
        refine and_congr_left fun hisIn => (or_iff_left ?_).symm
        rintro rfl
        exact hout hisIn
  · ext u
    exact mem_setLocation_iff f.numBits_pos hchecked

/-- A vertex that a round comes to has been checked behind the round. -/
def checkOnce (f : Hashed w) (v : ℕ) (s : Hashed.Tables w) : Option (Hashed.Tables w) :=
  (checkLocation f.size v s.checked).bind fun isChecked =>
    if isChecked then some s else f.check v s

theorem checkOnce_spec (hv : v < f.nVertices) {s : Hashed.Tables w} (hs : MembersOnly f s) :
    ∃ s', checkOnce f v s = some s' ∧ MembersOnly f s' ∧
      {v | Mem s'.checked v} = {v | Mem s.checked v} ∪ {v} := by
  have hsize : v / w < f.size := div_lt_wordCount f.numBits_pos hv
  have hmem : (s.checked (v / w) &&& mask w v != 0#w) = true ↔ Mem s.checked v := by
    rw [bne_iff_ne]
    exact and_mask_ne_zero_iff f.numBits_pos
  rw [checkOnce, checkLocation, if_pos hsize, Option.bind_some]
  split
  · next hchecked =>
      refine ⟨s, rfl, hs, (Set.union_eq_left.mpr ?_).symm⟩
      rw [Set.singleton_subset_iff]
      exact hmem.mp hchecked
  · exact check_spec hv hs

theorem body1_eq_some_iff {s s' : Hashed.Tables w} : f.body1 i h k s = some s' ↔
    InInt (f.sample i h k.2) ∧ InInt (k.2 + 1) ∧
    if (f.aHash h : ℤ) ∣ f.numerator i h k.2 ∧ 0 < f.sample i h k.2 ∧
        f.sample i h k.2 < f.nVertices then
      checkOnce f (f.sample i h k.2).toNat s = some s'
    else s = s' := by
  simp only [Hashed.body1, f.truncate_value1, floor_value1_iff, bind, pure,
    Option.bind_eq_some_iff, toInt_eq_some_iff, and_assoc, exists_and_left, exists_eq_left]
  refine and_congr_right fun _ => ?_
  by_cases hcount : InInt ((k.2 : ℤ) + 1)
  · by_cases hhit : (f.aHash h : ℤ) ∣ f.numerator i h k.2 ∧ 0 < f.sample i h k.2 ∧
        f.sample i h k.2 < f.nVertices
    · simp [toInt, hcount, hhit, checkOnce]
    · simp [toInt, hcount, hhit]
  · simp [toInt, hcount]

theorem hit1_iff : (0 < v ∧ v < f.nVertices) ∧ f.numerator i h count = f.aHash h * v ↔
    ((f.aHash h : ℤ) ∣ f.numerator i h count ∧ 0 < f.sample i h count ∧
      f.sample i h count < f.nVertices) ∧ v = (f.sample i h count).toNat := by
  rw [and_right_comm, hit_iff, ← and_assoc, and_right_comm]
  refine and_congr_left fun hv => and_congr_right fun hhit => ?_
  omega

theorem body1_collects (f : Hashed w) (i h : ℕ) (k : ℤ × ℕ) :
    Collects (MembersOnly f) (fun s => {v | Mem s.checked v}) (f.body1 i h k) (Fits1 f i h k.2)
      {v | (0 < v ∧ v < f.nVertices) ∧ f.numerator i h k.2 = f.aHash h * v} where
  isSome s hs := by
    rw [Option.isSome_iff_exists]
    simp only [body1_eq_some_iff]
    constructor
    · rintro ⟨s', hsample, hcount, -⟩
      exact ⟨hsample, hcount⟩
    · intro hfits
      simp only [hfits.sample, hfits.count, true_and]
      split
      · next hhit =>
          obtain ⟨s', hs', -⟩ := checkOnce_spec (hit1_iff.mpr ⟨hhit, rfl⟩).1.2 hs
          exact ⟨s', hs'⟩
      · exact ⟨s, rfl⟩
  keeps s s' hs heq := by
    obtain ⟨-, -, hif⟩ := body1_eq_some_iff.mp heq
    split at hif
    · next hhit =>
        obtain ⟨t, ht, hmembers, hview⟩ := checkOnce_spec (hit1_iff.mpr ⟨hhit, rfl⟩).1.2 hs
        obtain rfl : t = s' := Option.some.inj (ht.symm.trans hif)
        refine ⟨hmembers, hview.trans (congrArg _ (Set.ext fun u => ?_))⟩
        exact (hit1_iff.trans (and_iff_right hhit)).symm
    · next hmiss =>
        subst hif
        refine ⟨hs, (Set.union_eq_left.mpr fun u hu => ?_).symm⟩
        exact absurd (hit1_iff.mp hu).1 hmiss

theorem while1_collects (f : Hashed w) (i h : ℕ) :
    Collects (MembersOnly f) (fun s => {v | Mem s.checked v}) (f.while1 i h (0, 0))
      (∀ count, Executed f i h count → Fits1 f i h count)
      {v | (0 < v ∧ v < f.nVertices) ∧
        ∃ count, Executed f i h count ∧ f.numerator i h count = f.aHash h * v} := by
  refine (Collects.whileM (body1_collects f i h) (0, 0)).congr ?_ (Set.ext fun v => ?_)
  · rw [next1_eq]
    exact visited_imp_iff
  · rw [next1_eq]
    refine (visited_iff_executed (P := fun count =>
      (0 < v ∧ v < f.nVertices) ∧ f.numerator i h count = f.aHash h * v)).trans ?_
    simp only [and_left_comm, exists_and_left]
    exact Iff.rfl

theorem bit1_collects (f : Hashed w) (loc : ℕ) (hi : i ∈ List.range' (loc * w) w) :
    Collects (MembersOnly f) (fun s => {v | Mem s.checked v}) (f.bit1 loc i)
      (Mem f.bloomVector i → ∀ h < 3, ∀ count, Executed f i h count → Fits1 f i h count)
      {v | Mem f.bloomVector i ∧ (0 < v ∧ v < f.nVertices) ∧ ∃ h < 3, ∃ count,
        Executed f i h count ∧ f.numerator i h count = f.aHash h * v} := by
  refine (Collects.foldlM fun h _ => while1_collects f i h).ite.congr ?_ (Set.ext fun v => ?_)
  · rw [Ne, bits_eq_zero_iff f.toBloom hi, not_not]
    simp only [List.mem_range]
  · rw [Ne, bits_eq_zero_iff f.toBloom hi, not_not]
    simp only [List.mem_range, Set.mem_ofPred_eq, and_left_comm, exists_and_left]

theorem reconstruct1_collects (f : Hashed w) (loc : ℕ) :
    Collects (MembersOnly f) (fun s => {v | Mem s.checked v}) (f.reconstruct1 loc)
      (InInt ((loc + 1) * w) ∧ ∀ i ∈ List.range' (loc * w) w, Mem f.bloomVector i →
        ∀ h < 3, ∀ count, Executed f i h count → Fits1 f i h count)
      {v | ∃ i ∈ List.range' (loc * w) w, Mem f.bloomVector i ∧ (0 < v ∧ v < f.nVertices) ∧
        ∃ h < 3, ∃ count, Executed f i h count ∧ f.numerator i h count = f.aHash h * v} := by
  have hbits := Collects.foldlM fun i hi => bit1_collects f loc hi
  have hreset : Collects (MembersOnly f) (fun s => {v | Mem s.checked v})
      (fun s => some { s with localCount := 0 }) True ∅ := collects_pure fun s hs => ⟨hs, rfl⟩
  have hadd : Collects (MembersOnly f) (fun s => {v | Mem s.checked v})
      (fun s => some { s with numMemberships := s.numMemberships + s.localCount }) True ∅ :=
    collects_pure fun s hs => ⟨hs, rfl⟩
  refine (((hreset.bind hbits).bind hadd).guard toInt_isSome_iff).congr ?_ ?_
  · simp
  · simp

theorem run1_collects (f : Hashed w) (hwords : InInt (f.words * w)) :
    Collects (MembersOnly f) (fun s => {v | Mem s.checked v})
      (fun s => (List.range f.words).foldlM (fun s loc => f.reconstruct1 loc s) s)
      (∀ i < f.words * w, Mem f.bloomVector i →
        ∀ h < 3, ∀ count, Executed f i h count → Fits1 f i h count)
      {v | (0 < v ∧ v < f.nVertices) ∧ Reached f (Mem f.bloomVector) v} := by
  refine (collects_words f.numBits_pos (reconstruct1_collects f) hwords).congr Iff.rfl
    (Set.ext fun v => ?_)
  constructor
  · rintro ⟨i, hi, hbit, hv, hreached⟩
    exact ⟨hv, i, hi, hbit, hreached⟩
  · rintro ⟨hv, i, hi, hbit, hreached⟩
    exact ⟨i, hi, hbit, hv, hreached⟩

/-! ## Results -/

/-- Both runs come to an end, and find the members. -/
def Agree (f : Hashed w) (M : ℕ → BitVec w) : Prop :=
  ∃ M₀ s₁, f.run0 M = some M₀ ∧ f.run1 M = some s₁ ∧ ∀ v, 0 < v → v < f.nVertices →
    (Mem M₀ v ↔ Mem s₁.M v) ∧ (Mem s₁.M v ↔ f.isIn v)

/-- The sums in `ceilDiv` are `int`s. -/
structure Sized (f : Bloom w) : Prop where
  nVertices : f.nVertices + w ≤ 2147483647
  vectSize : f.vectSize + w ≤ 2147483647

/-- The sums in `ceilDiv` are `int`s, all rounds stay within `int` and within `M`, and every bit
that stands for a member is set, also those from `m[h]` on. -/
structure Harmless (f : Hashed w) : Prop where
  sized : Sized f.toBloom
  fits0 : ∀ i < f.words * w, ¬ Mem f.bloomVector i →
    ∀ h < 3, ∀ count, Executed f i h count → Fits0 f i h count
  fits1 : ∀ i < f.words * w, Mem f.bloomVector i →
    ∀ h < 3, ∀ count, Executed f i h count → Fits1 f i h count
  ones : ∀ v, 0 < v → v < f.nVertices → f.isIn v → ∀ h < 3, ∀ i < f.words * w,
    i ≤ f.aHash h * v + f.bHash h → i % f.m h = (f.aHash h * v + f.bHash h) % f.m h →
      Mem f.bloomVector i

theorem mem_setM (f : Hashed w) (M : ℕ → BitVec w) (hv : v < f.nVertices) :
    Mem (setM f.size M) v := by
  have hsize : v / w < f.size := div_lt_wordCount f.numBits_pos hv
  simp [Mem, setM, hsize, Nat.mod_lt v f.numBits_pos]

theorem not_mem_resetM (f : Hashed w) (M : ℕ → BitVec w) (hv : v < f.nVertices) :
    ¬ Mem (resetM f.size M) v := by
  have hsize : v / w < f.size := div_lt_wordCount f.numBits_pos hv
  simp [Mem, resetM, hsize]

/-- The bit that a hash function gives to a vertex lies in the filter. -/
theorem hash_lt (f : Hashed w) (h v : ℕ) :
    (f.aHash h * v + f.bHash h) % f.m h < f.words * w := by
  have hm : 0 < f.m h := (Nat.zero_le _).trans_lt (f.bHash_lt h)
  have hlt := Nat.mod_lt (f.aHash h * v + f.bHash h) hm
  have hvect : f.vectSize ≤ f.words * w := by
    by_contra hgt
    have hdiv := div_lt_wordCount f.numBits_pos (not_le.mp hgt)
    rw [Nat.mul_div_cancel _ f.numBits_pos] at hdiv
    exact lt_irrefl _ hdiv
  exact (hlt.trans_le (f.m_le h)).trans_le hvect

theorem reached_iff (hv : v < f.nVertices) {P : ℕ → Prop} :
    Reached f P v ↔ ∃ i < f.words * w, P i ∧ ∃ h < 3, i ≤ f.aHash h * v + f.bHash h ∧
      i % f.m h = (f.aHash h * v + f.bHash h) % f.m h := by
  simp only [Reached, exists_executed_iff hv]

/-- Each member is reached from the bits that its hash values set. -/
theorem reached_of_isIn (hv : v < f.nVertices) (hin : f.isIn v) :
    Reached f (fun i => Mem f.bloomVector i) v :=
  (reached_iff hv).mpr ⟨_, hash_lt f 0 v, hin 0 (by omega), 0, by omega, Nat.mod_le _ _,
    Nat.mod_mod _ _⟩

/-- What is not a member is reached from a bit that it lacks. -/
theorem reached_of_not_isIn (hv : v < f.nVertices) (hout : ¬ f.isIn v) :
    Reached f (fun i => ¬ Mem f.bloomVector i) v := by
  simp only [Hashed.isIn, not_forall] at hout
  obtain ⟨h, hh, hzero⟩ := hout
  exact (reached_iff hv).mpr ⟨_, hash_lt f h v, hzero, h, hh, Nat.mod_le _ _, Nat.mod_mod _ _⟩

theorem Sized.inInt_words (h : Sized f.toBloom) : InInt (f.words * w) := by
  have hlt := wordCount_mul_lt f.vectSize f.numBits_pos
  have hle := h.vectSize
  rw [InInt, Bloom.words]
  omega

/-- Where the sums in `ceilDiv` are `int`s, `main` and the threads take the right numbers of
words. -/
theorem ceilDivs_eq_some_iff {α : Type*} {k : ℤ → ℤ → Option α} {y : α} :
    ((ceilDiv f.nVertices w).bind fun size => (ceilDiv f.vectSize w).bind fun words =>
      k size words) = some y ↔ Sized f.toBloom ∧ k f.size f.words = some y := by
  by_cases hsize : f.nVertices + w ≤ 2147483647
  · by_cases hwords : f.vectSize + w ≤ 2147483647
    · rw [ceilDiv_of_le f.numBits_pos hsize, ceilDiv_of_le f.numBits_pos hwords]
      exact (and_iff_right ⟨hsize, hwords⟩).symm
    · rw [ceilDiv_of_lt (not_le.mp hwords)]
      refine iff_of_false (fun h => ?_) fun h => hwords h.1.vectSize
      obtain ⟨_, -, h⟩ := Option.bind_eq_some_iff.mp h
      cases h
  · rw [ceilDiv_of_lt (not_le.mp hsize)]
    exact iff_of_false (fun h => by cases h) fun h => hsize h.1.nVertices

theorem run0_eq_some_iff {M₀ : ℕ → BitVec w} : f.run0 M = some M₀ ↔ Sized f.toBloom ∧
    (List.range f.words).foldlM (fun M loc => f.reconstruct0 loc M) (setM f.size M) = some M₀ :=
  ceilDivs_eq_some_iff

theorem run1_eq_some_iff {s₁ : Hashed.Tables w} : f.run1 M = some s₁ ↔ Sized f.toBloom ∧
    (List.range f.words).foldlM (fun s loc => f.reconstruct1 loc s)
      ⟨fun _ => 0#w, resetM f.size M, 0, 0⟩ = some s₁ :=
  ceilDivs_eq_some_iff

theorem run0_mem_iff {M₀ : ℕ → BitVec w} (hrun : f.run0 M = some M₀) (hpos : 0 < v)
    (hv : v < f.nVertices) : Mem M₀ v ↔ ¬ Reached f (fun i => ¬ Mem f.bloomVector i) v := by
  obtain ⟨hsized, hrun⟩ := run0_eq_some_iff.mp hrun
  obtain ⟨-, hview⟩ := (run0_collects f hsized.inInt_words).keeps _ _ trivial hrun
  have hiff := Set.ext_iff.mp hview v
  simp only [Set.mem_ofPred_eq, Set.mem_union, mem_setM f M hv, not_true_eq_false, false_or, hpos,
    true_and] at hiff
  rw [← hiff, not_not]

theorem membersOnly_start (f : Hashed w) (M : ℕ → BitVec w) :
    MembersOnly f ⟨fun _ => 0#w, resetM f.size M, 0, 0⟩ := fun _ hu =>
  iff_of_false (not_mem_resetM f M hu) (by simp [Mem])

theorem run1_mem_iff {s₁ : Hashed.Tables w} (hrun : f.run1 M = some s₁) (hpos : 0 < v)
    (hv : v < f.nVertices) : Mem s₁.M v ↔ f.isIn v := by
  obtain ⟨hsized, hrun⟩ := run1_eq_some_iff.mp hrun
  obtain ⟨hmembers, hview⟩ :=
    (run1_collects f hsized.inInt_words).keeps _ _ (membersOnly_start f M) hrun
  have hiff := Set.ext_iff.mp hview v
  rw [hmembers v hv]
  refine and_iff_right_of_imp fun hin => hiff.mpr (.inr ⟨⟨hpos, hv⟩, reached_of_isIn hv hin⟩)

theorem exists_run0_iff : (∃ M₀, f.run0 M = some M₀) ↔ Sized f.toBloom ∧ ∀ i < f.words * w,
    ¬ Mem f.bloomVector i → ∀ h < 3, ∀ count, Executed f i h count → Fits0 f i h count := by
  simp only [run0_eq_some_iff, exists_and_left]
  refine and_congr_right fun hsized => ?_
  rw [← Option.isSome_iff_exists]
  exact (run0_collects f hsized.inInt_words).isSome _ trivial

theorem exists_run1_iff : (∃ s₁, f.run1 M = some s₁) ↔ Sized f.toBloom ∧ ∀ i < f.words * w,
    Mem f.bloomVector i → ∀ h < 3, ∀ count, Executed f i h count → Fits1 f i h count := by
  simp only [run1_eq_some_iff, exists_and_left]
  refine and_congr_right fun hsized => ?_
  rw [← Option.isSome_iff_exists]
  exact (run1_collects f hsized.inInt_words).isSome _ (membersOnly_start f M)

/-- The member `v` is removed if a bit that stands for it is not set. -/
theorem ones_iff (hv : v < f.nVertices) :
    ¬ Reached f (fun i => ¬ Mem f.bloomVector i) v ↔ ∀ h < 3, ∀ i < f.words * w,
      i ≤ f.aHash h * v + f.bHash h → i % f.m h = (f.aHash h * v + f.bHash h) % f.m h →
        Mem f.bloomVector i := by
  rw [reached_iff hv]
  constructor
  · intro hnot h hh i hi hle hmod
    by_contra hzero
    exact hnot ⟨i, hi, hzero, h, hh, hle, hmod⟩
  · rintro hall ⟨i, hi, hzero, h, hh, hle, hmod⟩
    exact hzero (hall h hh i hi hle hmod)

/-- For any filter and any initial content of `M`: both reconstructions come to an end and find the
members if and only if the sums in `ceilDiv` are `int`s, no round leaves `int` or `M`, and all bits
that stand for a member, also those that its hash function never sets, are set. -/
theorem reconstructions_agree_iff (f : Hashed w) (M : ℕ → BitVec w) :
    Agree f M ↔ Harmless f := by
  constructor
  · rintro ⟨M₀, s₁, hrun0, hrun1, hagree⟩
    obtain ⟨hsized, hfits0⟩ := exists_run0_iff.mp ⟨M₀, hrun0⟩
    refine ⟨hsized, hfits0, (exists_run1_iff.mp ⟨s₁, hrun1⟩).2,
      fun v hpos hv hin => (ones_iff hv).mp ?_⟩
    rw [← run0_mem_iff hrun0 hpos hv, (hagree v hpos hv).1, (hagree v hpos hv).2]
    exact hin
  · rintro ⟨hsized, hfits0, hfits1, hones⟩
    obtain ⟨M₀, hrun0⟩ := exists_run0_iff.mpr ⟨hsized, hfits0⟩
    obtain ⟨s₁, hrun1⟩ := exists_run1_iff.mpr ⟨hsized, hfits1⟩
    refine ⟨M₀, s₁, hrun0, hrun1, fun v hpos hv => ⟨?_, run1_mem_iff hrun1 hpos hv⟩⟩
    rw [run0_mem_iff hrun0 hpos hv, run1_mem_iff hrun1 hpos hv]
    refine ⟨fun hnot => ?_, fun hin => (ones_iff hv).mpr (hones v hpos hv hin)⟩
    by_contra hout
    exact hnot (reached_of_not_isIn hv hout)

/-- A filter of one word, of which the hash functions use 31 bits. -/
def oneSpareBit (word : BitVec 32) : Hashed 32 where
  numBits_pos := by decide
  vectSize := 32
  nVertices := 33
  bloomVector := fun loc => if loc = 0 then word else 0#32
  aHash := fun _ => 1
  bHash := fun _ => 0
  m := fun _ => 31
  aHash_pos _ := by decide
  bHash_lt _ := by decide
  m_le _ := by decide
  clear i hi := by
    have hloc : i / 32 ≠ 0 := by omega
    simp [Mem, hloc]

theorem oneSpareBit_numerator {word : BitVec 32} (hi : i < (oneSpareBit word).words * 32)
    (hex : Executed (oneSpareBit word) i h count) :
    (oneSpareBit word).numerator i h count = i + count * 31 ∧ i + count * 31 < 64 := by
  have hnumerator : ∀ count, (oneSpareBit word).numerator i h count = i + count * 31 :=
    fun count => by simp [Hashed.numerator, oneSpareBit]
  refine ⟨hnumerator count, ?_⟩
  have hwords : (oneSpareBit word).words = 1 := by simp [Bloom.words, oneSpareBit, wordCount]
  rw [hwords] at hi
  obtain ⟨-, rfl | hlt⟩ := hex
  · omega
  · have hbound : (oneSpareBit word).numerator i h (count - 1) < 33 := by
      simpa [oneSpareBit] using hlt
    rw [hnumerator] at hbound
    omega

theorem oneSpareBit_fits {word : BitVec 32} (hi : i < (oneSpareBit word).words * 32)
    (hex : Executed (oneSpareBit word) i h count) :
    Fits0 (oneSpareBit word) i h count ∧ Fits1 (oneSpareBit word) i h count := by
  obtain ⟨hnumerator, hlt⟩ := oneSpareBit_numerator hi hex
  have hsample : (oneSpareBit word).sample i h count = i + count * 31 := by
    rw [Hashed.sample, hnumerator]
    exact Int.tdiv_one _
  have hsampleInt : InInt ((oneSpareBit word).sample i h count) := by
    rw [InInt, hsample]
    omega
  have hcountInt : InInt ((count : ℤ) + 1) := by
    rw [InInt]
    omega
  refine ⟨⟨?_, ?_, ?_, hsampleInt, fun v _ hv => ?_, hcountInt⟩, hsampleInt, hcountInt⟩
  · simp only [InInt, oneSpareBit]
    omega
  · simp only [InInt, oneSpareBit]
    omega
  · simp [InInt, oneSpareBit]
  · rw [hnumerator] at hv
    have heq : (i : ℤ) + count * 31 = 1 * v := hv
    have hsize : (oneSpareBit word).size = 2 := by simp [Bloom.size, oneSpareBit, wordCount]
    omega

theorem oneSpareBit_sized (word : BitVec 32) : Sized (oneSpareBit word).toBloom :=
  ⟨by simp [oneSpareBit], by simp [oneSpareBit]⟩

/-- With all bits set the two agree. -/
theorem reconstructions_agree_full :
    Agree (oneSpareBit (BitVec.allOnes 32)) fun _ => 0#32 := by
  have hone : ∀ i < (oneSpareBit (BitVec.allOnes 32)).words * 32,
      Mem (oneSpareBit (BitVec.allOnes 32)).bloomVector i := by decide
  refine (reconstructions_agree_iff _ _).mpr
    ⟨oneSpareBit_sized _, fun i hi hzero => absurd (hone i hi) hzero, ?_, ?_⟩
  · exact fun i hi _ h _ count hex => (oneSpareBit_fits hi hex).2
  · exact fun v _ _ _ h _ i hi _ _ => hone i hi

/-- With only the bit 0 set, `reconstruct0` removes the member 31, since it takes the bit 31 for its
hash value. -/
theorem reconstructions_disagree : ¬ Agree (oneSpareBit 1#32) (fun _ => 0#32) ∧
    ∃ M₀ s₁, (oneSpareBit 1#32).run0 (fun _ => 0#32) = some M₀ ∧
      (oneSpareBit 1#32).run1 (fun _ => 0#32) = some s₁ ∧
      ¬ Mem M₀ 31 ∧ Mem s₁.M 31 ∧ (oneSpareBit 1#32).isIn 31 := by
  have hin : (oneSpareBit 1#32).isIn 31 := by decide
  obtain ⟨M₀, hrun0⟩ := (exists_run0_iff (f := oneSpareBit 1#32) (M := fun _ => 0#32)).mpr
    ⟨oneSpareBit_sized _, fun i hi _ h _ count hex => (oneSpareBit_fits hi hex).1⟩
  obtain ⟨s₁, hrun1⟩ := (exists_run1_iff (f := oneSpareBit 1#32) (M := fun _ => 0#32)).mpr
    ⟨oneSpareBit_sized _, fun i hi _ h _ count hex => (oneSpareBit_fits hi hex).2⟩
  have hlost : ¬ Mem M₀ 31 := by
    rw [run0_mem_iff hrun0 (by decide) (by decide), ones_iff (by decide)]
    intro hones
    exact absurd (hones 0 (by decide) 31 (by decide) (by decide) (by decide)) (by decide)
  have hfound : Mem s₁.M 31 := (run1_mem_iff hrun1 (by decide) (by decide)).mpr hin
  refine ⟨?_, M₀, s₁, hrun0, hrun1, hlost, hfound, hin⟩
  rintro ⟨M₁, s₂, hrun, hrun', hagree⟩
  cases hrun0.symm.trans hrun
  cases hrun1.symm.trans hrun'
  exact hlost ((hagree 31 (by decide) (by decide)).1.mpr hfound)

end PthreadBenchmark.HashInvert
