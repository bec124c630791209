import PthreadBenchmark.DampCg.Model
import PthreadBenchmark.Shared.Int32
import Mathlib.Data.Rat.Floor
import Mathlib.Tactic.IntervalCases

/-! # The blocks of `fd4t10s_nobndry_zjh_2d_vtrans_cg`

An `int` that overflows wraps around. The division is one of doubles, which is exact for
all numbers of an `int`. -/

namespace PthreadBenchmark.DampCg

/-- `X_MAX` -/
def xMax : ℕ := 4

/-- `Z_MAX` -/
def zMax : ℕ := 4

def d : ℤ := 1

/-- `snxbeg` and `snx`, or `snzbeg` and `snz`, of a block. -/
structure Range where
  sbeg : ℤ
  size : ℤ
  deriving DecidableEq, Repr

/-- The range of the part `i` in a dimension of the size `n` that is divided into `max` parts. -/
def blockRange (n : ℤ) (max i : ℕ) : Range :=
  let cn := toInt (n - 2 * d)
  let sn := ⌈(cn : ℚ) / max⌉
  let sbeg := toInt (sn * i - d + d)
  let send := toInt (sn * (i + 1) + d + d)
  let send := if send < n then send else n
  ⟨sbeg, toInt (send - sbeg)⟩

/-- The fields of a `struct Param` that are set for a block. -/
structure Param where
  nx : ℤ
  nz : ℤ
  ldnx : ℤ
  ldnz : ℤ
  nb : ℤ
  freeSurface : ℤ
  id : ℕ
  nd : ℕ
  icg : ℕ
  status : ℤ
  exit : ℤ
  gnxbeg : ℤ
  gnzbeg : ℤ
  deriving DecidableEq, Repr

/-- The block of the round `iz` in the round `ix` of the two loops. -/
def param (nx nz nb freeSurface : ℤ) (ix iz : ℕ) : Param where
  nx := (blockRange nx xMax ix).size
  nz := (blockRange nz zMax iz).size
  ldnx := nx
  ldnz := nz
  nb := nb
  freeSurface := freeSurface
  id := ix * zMax + iz
  nd := nd
  icg := (ix * zMax + iz) / nd
  status := 1
  exit := 0
  gnxbeg := (blockRange nx xMax ix).sbeg
  gnzbeg := (blockRange nz zMax iz).sbeg

/-- The table `params`. -/
def params (nx nz nb freeSurface : ℤ) : List Param :=
  (List.range xMax).flatMap fun ix => (List.range zMax).map (param nx nz nb freeSurface ix)

/-- The padded range of the block lies in the grid. -/
def Param.InGrid (nx nz : ℤ) (p : Param) : Prop :=
  (0 ≤ p.nx ∧ 0 ≤ p.gnxbeg ∧ p.gnxbeg + p.nx ≤ nx) ∧
    0 ≤ p.nz ∧ 0 ≤ p.gnzbeg ∧ p.gnzbeg + p.nz ≤ nz

/-- The point lies in the block without its border. -/
def Param.Interior (p : Param) (x z : ℤ) : Prop :=
  (p.gnxbeg + d ≤ x ∧ x < p.gnxbeg + p.nx - d) ∧ p.gnzbeg + d ≤ z ∧ z < p.gnzbeg + p.nz - d

/-- The blocks tile the grid. -/
structure Tiles (nx nz nb freeSurface : ℤ) : Prop where
  inGrid : ∀ p ∈ params nx nz nb freeSurface, p.InGrid nx nz
  unique : ∀ x z, d ≤ x → x < nx - d → d ≤ z → z < nz - d →
    ∃! id : ℕ, ∃ p, (params nx nz nb freeSurface)[id]? = some p ∧ Param.Interior p x z
  id : ∀ ix < xMax, ∀ iz < zMax,
    (params nx nz nb freeSurface)[(param nx nz nb freeSurface ix iz).id]? =
      some (param nx nz nb freeSurface ix iz) ∧
    (param nx nz nb freeSurface ix iz).id / zMax = ix ∧
    (param nx nz nb freeSurface ix iz).id % zMax = iz

variable {n nx nz nb freeSurface x z : ℤ} {i j ix iz : ℕ}

/-! ## One dimension -/

/-- `sn` is the size of a part without its border. -/
theorem exists_size (h : 3 ≤ n) (hmax : n < 2 ^ 31) :
    ∃ sn, ⌈((toInt (n - 2 * d) : ℤ) : ℚ) / (4 : ℕ)⌉ = sn ∧ n - 2 ≤ 4 * sn ∧ 4 * sn < n + 2 := by
  have hcn : toInt (n - 2 * d) = n - 2 := toInt_of_inIntRange (by rw [InIntRange, d]; omega)
  refine ⟨_, rfl, ?_⟩
  rw [hcn, Rat.ceil_intCast_div_natCast]
  omega

/-- The ranges, unless something overflows. -/
theorem exists_blockRange (h : 3 ≤ n) (hmax : n < 2 ^ 31 - 1) :
    ∃ sn, n - 2 ≤ 4 * sn ∧ 4 * sn < n + 2 ∧ ∀ i < 4,
      blockRange n 4 i = ⟨sn * i, min (sn * (i + 1) + 2) n - sn * i⟩ := by
  obtain ⟨sn, hsn, hlow, hhigh⟩ := exists_size h (by omega)
  refine ⟨sn, hlow, hhigh, fun i hi => ?_⟩
  have hbegin : toInt (sn * i - d + d) = sn * i := by
    rw [sub_add_cancel]
    interval_cases i <;> exact toInt_of_inIntRange ⟨by omega, by omega⟩
  have hend : toInt (sn * (i + 1) + d + d) = sn * (i + 1) + 2 := by
    rw [add_assoc, d]
    interval_cases i <;> exact toInt_of_inIntRange ⟨by omega, by omega⟩
  simp only [blockRange, hsn, hbegin, hend, min_def_lt]
  congr 1
  interval_cases i <;> split <;> exact toInt_of_inIntRange ⟨by omega, by omega⟩

/-- The largest `int` makes the end of the last range overflow. -/
theorem blockRange_max : blockRange (2 ^ 31 - 1) 4 3 = ⟨1610612736, 536870914⟩ := by
  obtain ⟨sn, hsn, hlow, hhigh⟩ := exists_size (n := 2 ^ 31 - 1) (by decide) (by decide)
  obtain rfl : sn = 536870912 := by omega
  simp only [blockRange, hsn]
  decide

/-- The range `i` lies in its dimension. -/
theorem blockRange_bounds (h : 3 ≤ n) (hmax : n < 2 ^ 31 - 1) (hi : i < 4) :
    0 ≤ (blockRange n 4 i).size ∧ 0 ≤ (blockRange n 4 i).sbeg ∧
      (blockRange n 4 i).sbeg + (blockRange n 4 i).size ≤ n := by
  obtain ⟨sn, hlow, hhigh, heq⟩ := exists_blockRange h hmax
  simp only [heq i hi]
  interval_cases i <;> omega

/-- The number `x` lies in the range without its border. -/
def Range.Inner (r : Range) (x : ℤ) : Prop := r.sbeg + d ≤ x ∧ x < r.sbeg + r.size - d

/-- Each number lies in one range. -/
theorem exists_inner (h : 3 ≤ n) (hmax : n < 2 ^ 31 - 1) (hx : d ≤ x) (hx' : x < n - d) :
    ∃ i < 4, (blockRange n 4 i).Inner x := by
  obtain ⟨sn, hlow, hhigh, heq⟩ := exists_blockRange h hmax
  rw [d] at hx hx'
  have hcases : x - 1 < sn ∨ (sn ≤ x - 1 ∧ x - 1 < 2 * sn) ∨ (2 * sn ≤ x - 1 ∧ x - 1 < 3 * sn) ∨
      3 * sn ≤ x - 1 := by omega
  rcases hcases with hpart | hpart | hpart | hpart
  · exact ⟨0, by decide, by simp only [heq 0 (by decide), Range.Inner, d]; omega⟩
  · exact ⟨1, by decide, by simp only [heq 1 (by decide), Range.Inner, d]; omega⟩
  · exact ⟨2, by decide, by simp only [heq 2 (by decide), Range.Inner, d]; omega⟩
  · exact ⟨3, by decide, by simp only [heq 3 (by decide), Range.Inner, d]; omega⟩

theorem inner_unique (h : 3 ≤ n) (hmax : n < 2 ^ 31 - 1) (hi : i < 4) (hj : j < 4)
    (hx : (blockRange n 4 i).Inner x) (hx' : (blockRange n 4 j).Inner x) : i = j := by
  obtain ⟨sn, hlow, hhigh, heq⟩ := exists_blockRange h hmax
  simp only [heq i hi, Range.Inner, d] at hx
  simp only [heq j hj, Range.Inner, d] at hx'
  interval_cases i <;> interval_cases j <;> omega

/-! ## The table -/

theorem getElem?_params (hix : ix < xMax) (hiz : iz < zMax) :
    (params nx nz nb freeSurface)[ix * zMax + iz]? = some (param nx nz nb freeSurface ix iz) := by
  rw [xMax] at hix
  rw [zMax] at hiz
  interval_cases ix <;> interval_cases iz <;> rfl

theorem length_params : (params nx nz nb freeSurface).length = xMax * zMax := rfl

/-- Each index of the table is the id of a block. -/
theorem eq_param_of_getElem? {id : ℕ} {p : Param}
    (h : (params nx nz nb freeSurface)[id]? = some p) : ∃ ix < xMax, ∃ iz < zMax,
      id = ix * zMax + iz ∧ p = param nx nz nb freeSurface ix iz := by
  obtain ⟨hlt, -⟩ := List.getElem?_eq_some_iff.mp h
  rw [length_params, xMax, zMax] at hlt
  have hix : id / zMax < xMax := by
    rw [xMax, zMax]
    omega
  have hiz : id % zMax < zMax := Nat.mod_lt _ (by decide)
  have hid : id = id / zMax * zMax + id % zMax := (Nat.div_add_mod' id zMax).symm
  refine ⟨_, hix, _, hiz, hid, ?_⟩
  rw [hid, getElem?_params hix hiz] at h
  exact (Option.some.inj h).symm

theorem tiles_of_lt (h : 3 ≤ nx) (hmax : nx < 2 ^ 31 - 1) (h' : 3 ≤ nz) (hmax' : nz < 2 ^ 31 - 1) :
    Tiles nx nz nb freeSurface where
  inGrid p hp := by
    obtain ⟨id, hid⟩ := List.mem_iff_getElem?.mp hp
    obtain ⟨ix, hix, iz, hiz, -, rfl⟩ := eq_param_of_getElem? hid
    exact ⟨blockRange_bounds h hmax hix, blockRange_bounds h' hmax' hiz⟩
  unique x z hx hx' hz hz' := by
    obtain ⟨ix, hix, hinner⟩ := exists_inner h hmax hx hx'
    obtain ⟨iz, hiz, hinner'⟩ := exists_inner h' hmax' hz hz'
    refine ⟨ix * zMax + iz, ⟨_, getElem?_params hix hiz, hinner, hinner'⟩, ?_⟩
    rintro id ⟨p, hp, hinterior⟩
    obtain ⟨jx, hjx, jz, hjz, rfl, rfl⟩ := eq_param_of_getElem? hp
    obtain rfl := inner_unique h hmax hjx hix hinterior.1 hinner
    obtain rfl := inner_unique h' hmax' hjz hiz hinterior.2 hinner'
    rfl
  id ix hix iz hiz := by
    refine ⟨getElem?_params hix hiz, ?_, ?_⟩
    · rw [zMax] at hiz
      simp only [param, zMax]
      omega
    · rw [zMax] at hiz
      simp only [param, zMax]
      omega

/-! ## Result -/

/-- The last part of a dimension of the largest size leaves the grid. -/
theorem not_tiles_of_max (h : nx = 2 ^ 31 - 1 ∨ nz = 2 ^ 31 - 1) :
    ¬ Tiles nx nz nb freeSurface := by
  intro htiles
  have hmem : param nx nz nb freeSurface 3 3 ∈ params nx nz nb freeSurface :=
    List.mem_of_getElem? (getElem?_params (by decide) (by decide))
  have hgrid := htiles.inGrid _ hmem
  rcases h with rfl | rfl
  · have hend := hgrid.1.2.2
    simp only [param, xMax, blockRange_max] at hend
    omega
  · have hend := hgrid.2.2.2
    simp only [param, zMax, blockRange_max] at hend
    omega

/-- For all sizes of an `int` from 3 on: the blocks tile the grid if and only if no size is the
largest `int`. -/
theorem tiles_iff (h : 3 ≤ nx) (hint : nx < 2 ^ 31) (h' : 3 ≤ nz) (hint' : nz < 2 ^ 31)
    (nb freeSurface : ℤ) :
    Tiles nx nz nb freeSurface ↔ nx ≠ 2 ^ 31 - 1 ∧ nz ≠ 2 ^ 31 - 1 := by
  constructor
  · intro htiles
    rw [← not_or]
    exact fun hmax => not_tiles_of_max hmax htiles
  · rintro ⟨hne, hne'⟩
    exact tiles_of_lt h (by omega) h' (by omega)

theorem tiles_seven : Tiles 7 3 0 0 :=
  (tiles_iff (by decide) (by decide) (by decide) (by decide) 0 0).mpr (by decide)

theorem not_tiles_max : ¬ Tiles 2147483647 3 0 0 :=
  not_tiles_of_max (.inl rfl)

end PthreadBenchmark.DampCg
