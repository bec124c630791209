import PthreadBenchmark.DampCg.Model
import PthreadBenchmark.Shared.PthreadConditions

/-! # Where the slaves go in `params`

A slave adds its loop variable to the `id` of a pointer that it has moved before, so that it goes
from its first block to the second, the fourth and the seventh. There it waits, on a `status` that
nobody sets; the seventh block of the last group is behind the end of `params`. -/

namespace PthreadBenchmark.DampCg

open Pthread

variable {calls : ℕ} {s s' : Shared} {ps : Tid → Point} {t : Tid} {g : Fin cgMax} {p q : Point}
  {k param i : ℕ} {c c' : Config Tid Shared Point Empty Empty}

/-- The indices are in `params`, and in each round that `master_wait` has ended each block has been
processed once, by its group, and by no other. -/
structure Right (s : Shared) : Prop where
  inside : ∀ idx ∈ s.used, idx < tableSize
  once : ∀ k < s.returned, ∀ (g : Fin cgMax) (id : ℕ),
    s.processed.count ⟨k, g, id⟩ = if g * nd ≤ id ∧ id < g * nd + nd then 1 else 0

/-! ## The condition -/

/-- The last group is about to process a block for the last time. -/
def LastIteration : Point → Prop
  | .body g _ i => g.val + 1 = cgMax ∧ i + 1 = nd
  | _ => False

instance (p : Point) : Decidable (LastIteration p) :=
  match p with
  | .body g _ i => inferInstanceAs (Decidable (g.val + 1 = cgMax ∧ i + 1 = nd))
  | .call _ | .masterSignal _ _ | .masterBroadcast _ | .masterTest _ | .masterReset _
  | .slaveTest _ _ | .slaveExit _ _ | .slaveStatus _ _ | .signalLoad _ _ | .signalStore _ _ _
  | .signalCond _ _ | .returned _ | .outside _ => isFalse id

def Early (_ : Shared) (ps : Tid → Point) (t : Tid) : Prop := ¬ LastIteration (ps t)

instance (s : Shared) (ps : Tid → Point) (t : Tid) : Decidable (Early s ps t) :=
  inferInstanceAs (Decidable (¬ _))

/-! ## The invariant -/

/-- How far the slave has moved `param` before its iteration `i`. -/
def advance : ℕ → ℕ
  | 0 => 0
  | i + 1 => advance i + i

/-- Where a thread can be. The last group does not get behind its loop, nor the master behind
`master_wait`. -/
def Point.Fits : Tid → Point → Prop
  | none, .call k | none, .masterSignal k _ | none, .masterBroadcast k | none, .masterTest k =>
    k = 0
  | some g, .slaveTest icg id =>
    icg = g ∧ (id = g * nd ∨ id = g * nd + advance nd ∧ g.val + 1 < cgMax)
  | some g, .slaveExit icg id | some g, .slaveStatus icg id => icg = g ∧ id = g * nd
  | some g, .body icg id i =>
    icg = g ∧ i ≤ nd ∧ id = g * nd + advance i ∧ (i = nd → g.val + 1 < cgMax)
  | some g, .signalLoad icg id | some g, .signalStore icg id _ | some g, .signalCond icg id =>
    icg = g ∧ id = g * nd + advance nd ∧ g.val + 1 < cgMax
  | some g, .returned icg => icg = g
  | some g, .outside icg => icg = g ∧ g.val + 1 = cgMax
  | _, _ => False

/-- Counts the slaves that have decremented `g_status`. -/
def signalled : Point → ℕ
  | .signalCond _ _ => 1
  | .slaveTest g id => if id = g * nd then 0 else 1
  | _ => 0

/-- The iterations that the slave has completed. -/
def iterations : Point → ℕ
  | .body _ _ i => i
  | .signalLoad _ _ | .signalStore _ _ _ | .signalCond _ _ => nd
  | .slaveTest g id => if id = g * nd then 0 else nd
  | .outside _ => nd - 1
  | _ => 0

/-- The blocks that the slave of the group has processed. -/
def worked (s : Shared) (g : Fin cgMax) : List ℕ :=
  (s.processed.filter fun w => w.icg = g).map Work.id

structure Sound (s : Shared) (ps : Tid → Point) : Prop where
  fits : ∀ t, (ps t).Fits t
  waits : ∀ id, id % nd ≠ 0 → s.status id ≠ 0
  low : cgMax ≤ s.gStatus + weight signalled ps
  loaded : ∀ t g id v, ps t = .signalStore g id v → cgMax ≤ v + weight signalled ps
  returned : s.returned = 0
  worked : ∀ g, worked s g =
    (List.range (iterations (ps (some g)))).map fun j => g * nd + advance (j + 1)

theorem sound_start : Sound initial start where
  fits t := by
    cases t with
    | none => rfl
    | some g => exact ⟨rfl, .inl rfl⟩
  waits _ _ := one_ne_zero
  low := Int.le_add_of_nonneg_right (Int.natCast_nonneg _)
  loaded t g id v h := by
    cases t <;> cases h
  returned := rfl
  worked g := by simp [DampCg.worked, initial, start, iterations]

/-- What the slaves of the groups can add to the count. -/
def mostSignalled : Tid → ℕ
  | none => 0
  | some g => if g.val + 1 < cgMax then 1 else 0

theorem Point.Fits.signalled_le (h : p.Fits t) : signalled p ≤ mostSignalled t := by
  cases t with
  | none => cases p <;> first | exact h.elim | exact Nat.zero_le _
  | some g =>
      cases p with
      | slaveTest icg id =>
          obtain ⟨rfl, rfl | ⟨rfl, hg⟩⟩ := h
          · simp [signalled]
          · simp only [signalled, mostSignalled, if_pos hg]
            split <;> decide
      | signalCond icg id =>
          obtain ⟨rfl, -, hg⟩ := h
          simp only [signalled, mostSignalled, if_pos hg, le_refl]
      | _ => exact Nat.zero_le _

/-- The last group is missing. -/
theorem Sound.weight_lt (h : Sound s ps) : weight signalled ps < cgMax := by
  calc weight signalled ps ≤ ∑ t, mostSignalled t :=
        Finset.sum_le_sum fun t _ => (h.fits t).signalled_le
    _ < cgMax := by decide

theorem Sound.gStatus_pos (h : Sound s ps) : 0 < s.gStatus := by
  have hlow := h.low
  have hlt := h.weight_lt
  omega

/-- A step of one thread. -/
theorem Sound.next (h : Sound s ps) (hfits : q.Fits t)
    (hwaits : ∀ id, id % nd ≠ 0 → s'.status id ≠ 0) (hmono : signalled (ps t) ≤ signalled q)
    (hlow : cgMax ≤ s'.gStatus + weight signalled (Function.update ps t q))
    (hloaded : ∀ g id v, q = .signalStore g id v → cgMax ≤ v + weight signalled ps)
    (hreturned : s'.returned = 0)
    (hother : ∀ g, some g ≠ t → DampCg.worked s' g = DampCg.worked s g)
    (hself : ∀ g, some g = t → DampCg.worked s' g =
      (List.range (iterations q)).map fun j => g * nd + advance (j + 1)) :
    Sound s' (Function.update ps t q) := by
  have hweight := weight_update signalled ps t q
  refine ⟨?_, hwaits, hlow, fun t' g id v ht' => ?_, hreturned, fun g => ?_⟩
  · exact (Function.forall_update_iff ps fun t p => p.Fits t).mpr ⟨hfits, fun t' _ => h.fits t'⟩
  · have hv : cgMax ≤ v + weight signalled ps := by
      by_cases heq : t' = t
      · subst heq
        rw [Function.update_self] at ht'
        exact hloaded g id v ht'
      · rw [Function.update_of_ne heq] at ht'
        exact h.loaded t' g id v ht'
    omega
  · by_cases heq : some g = t
    · rw [heq, Function.update_self]
      exact hself g heq
    · rw [Function.update_of_ne heq, hother g heq]
      exact h.worked g

/-- A step that processes nothing and leaves `g_status` alone. -/
theorem Sound.move (h : Sound s ps) (hfits : q.Fits t)
    (hwaits : ∀ id, id % nd ≠ 0 → s'.status id ≠ 0) (hsignalled : signalled q = signalled (ps t))
    (hstore : ∀ g id v, q = .signalStore g id v → v = s.gStatus)
    (hiterations : iterations q = iterations (ps t)) (hstatus : s'.gStatus = s.gStatus)
    (hreturned : s'.returned = s.returned) (hprocessed : s'.processed = s.processed) :
    Sound s' (Function.update ps t q) := by
  have hweight := weight_update signalled ps t q
  have hlow := h.low
  have hsame : ∀ g, DampCg.worked s' g = DampCg.worked s g := by
    intro g
    simp only [DampCg.worked, hprocessed]
  refine h.next hfits hwaits hsignalled.ge ?_ ?_ (hreturned.trans h.returned)
    (fun g _ => hsame g) ?_
  · rw [hstatus]
    omega
  · intro g id v hq
    rw [hstore g id v hq]
    exact hlow
  · rintro g rfl
    rw [hsame, hiterations]
    exact h.worked g

/-- The slave processes a block. -/
theorem Sound.process (h : Sound s ps) (hp : ps (some g) = .body g param i)
    (hfits : (Point.body g (param + i) (i + 1)).Fits (some g)) :
    Sound { s with
        processed := s.processed ++ [⟨s.round, g, param + i⟩]
        used := s.used ++ [param + i] }
      (Function.update ps (some g) (.body g (param + i) (i + 1))) := by
  have hweight := weight_update signalled ps (some g) (.body g (param + i) (i + 1))
  have hlow := h.low
  have hsignalled : signalled (ps (some g)) = 0 := by rw [hp]; rfl
  refine h.next hfits h.waits (by rw [hsignalled]; exact Nat.zero_le _) ?_ nofun h.returned ?_ ?_
  · rw [hsignalled] at hweight
    simp only [signalled] at hweight ⊢
    omega
  · intro g' hg'
    have hne : g ≠ g' := fun heq => hg' (by rw [heq])
    simp [DampCg.worked, hne]
  · rintro g' hg'
    obtain rfl : g' = g := Option.some.inj hg'
    have hworked := h.worked g'
    have hmoved : param + i = g' * nd + advance (i + 1) := hfits.2.2.1
    rw [hp] at hworked
    simp only [DampCg.worked, iterations] at hworked ⊢
    rw [List.filter_append, List.map_append, hworked, List.range_succ, List.map_append, hmoved]
    simp

/-- The slave counts itself off. -/
theorem Sound.store (h : Sound s ps) {v : ℤ} (hp : ps (some g) = .signalStore g param v)
    (hfits : (Point.signalCond g param).Fits (some g)) :
    Sound { s with gStatus := v - 1 } (Function.update ps (some g) (.signalCond g param)) := by
  have hweight := weight_update signalled ps (some g) (.signalCond g param)
  have hloaded := h.loaded (some g) g param v hp
  rw [hp] at hweight
  simp only [signalled] at hweight
  refine h.next hfits h.waits (by rw [hp]; exact Nat.zero_le _) ?_ nofun h.returned
    (fun g' _ => rfl) ?_
  · simp only
    omega
  · rintro g' hg'
    obtain rfl : g' = g := Option.some.inj hg'
    have hworked := h.worked g'
    rw [hp] at hworked
    exact hworked

theorem Sound.master (h : Sound s ps) (hq : (code calls s (ps none)).next? = some q) :
    Sound ((code calls s (ps none)).after s) (Function.update ps none q) := by
  have hfits := h.fits none
  have hmove : ∀ s' q, q.Fits none → (∀ id, id % nd ≠ 0 → s'.status id ≠ 0) →
      s'.gStatus = s.gStatus → s'.returned = s.returned → s'.processed = s.processed →
      Sound s' (Function.update ps none q) := by
    intro s' q hq hwaits hstatus hreturned hprocessed
    have hnone : ∀ {p : Point}, p.Fits none → signalled p = 0 ∧ iterations p = 0 ∧
        ∀ g id v, p ≠ .signalStore g id v := by
      intro p hp
      cases p <;> first | exact hp.elim | exact ⟨rfl, rfl, nofun⟩
    refine h.move hq hwaits ?_ (fun g id v heq => absurd heq ((hnone hq).2.2 g id v)) ?_ hstatus
      hreturned hprocessed
    · rw [(hnone hq).1, (hnone hfits).1]
    · rw [(hnone hq).2.1, (hnone hfits).2.1]
  cases hp : ps none with
  | call k =>
      rw [hp] at hfits hq
      simp only [code] at hq ⊢
      split at hq
      · next hk =>
          cases hq
          rw [if_pos hk]
          exact hmove _ _ hfits h.waits rfl rfl rfl
      · cases hq
  | masterSignal k i =>
      rw [hp] at hfits hq
      simp only [code] at hq ⊢
      split at hq
      · next hi =>
          cases hq
          rw [if_pos hi]
          refine hmove _ _ hfits (fun id hid => ?_) rfl rfl rfl
          have hne : id ≠ i * nd := fun heq => hid (by rw [heq, Nat.mul_mod_left])
          simp only [Op.after, Function.update_of_ne hne]
          exact h.waits id hid
      · next hi =>
          cases hq
          rw [if_neg hi]
          exact hmove _ _ hfits h.waits rfl rfl rfl
  | masterBroadcast k =>
      rw [hp] at hfits hq
      cases hq
      exact hmove _ _ hfits h.waits rfl rfl rfl
  | masterTest k =>
      rw [hp] at hfits hq
      have hpos := h.gStatus_pos
      cases hq
      rw [if_pos hpos.ne']
      exact hmove _ _ hfits h.waits rfl rfl rfl
  | _ =>
      rw [hp] at hfits
      exact hfits.elim

/-- Only the last group gets to the end of the table, in its last iteration. -/
theorem inside_iff : ∀ (g : Fin cgMax) (i : ℕ), i < nd →
    (g * nd + advance i + i < tableSize ↔ ¬ (g.val + 1 = cgMax ∧ i + 1 = nd)) := by
  have hall : ∀ (g : Fin cgMax) (i : Fin nd), (g * nd + advance i + i < tableSize ↔
      ¬ (g.val + 1 = cgMax ∧ i.val + 1 = nd)) := by decide
  exact fun g i hi => hall g ⟨i, hi⟩

theorem Sound.body (h : Sound s ps) (hp : ps (some g) = .body g param i)
    (hq : (code calls s (.body g param i)).next? = some q) :
    Sound ((code calls s (.body g param i)).after s) (Function.update ps (some g) q) := by
  have hfits := h.fits (some g)
  rw [hp] at hfits
  obtain ⟨-, hle, hparam, hlast⟩ := hfits
  by_cases hi : i < nd
  · have hiff := inside_iff g i hi
    by_cases hin : param + i < tableSize
    · simp only [code, if_pos hi, if_pos hin] at hq ⊢
      cases hq
      refine h.process hp ⟨rfl, hi, by rw [hparam, advance, Nat.add_assoc], fun heq => ?_⟩
      rw [hparam, hiff] at hin
      have hg := g.isLt
      omega
    · simp only [code, if_pos hi, if_neg hin] at hq ⊢
      cases hq
      rw [hparam, hiff, not_not] at hin
      refine h.move ⟨rfl, hin.1⟩ h.waits (by rw [hp]; rfl) nofun ?_ rfl rfl rfl
      rw [hp]
      exact Nat.sub_eq_of_eq_add hin.2.symm
  · obtain rfl : i = nd := by omega
    simp only [code, if_neg hi] at hq ⊢
    cases hq
    exact h.move ⟨rfl, hparam, hlast rfl⟩ h.waits (by rw [hp]; rfl) nofun (by rw [hp]; rfl) rfl rfl
      rfl

/-- Nobody sets the `status` of the block behind the loop. -/
theorem advance_mod : ∀ g : Fin cgMax, (g * nd + advance nd) % nd ≠ 0 := by
  decide

theorem signalled_behind : ∀ g : Fin cgMax, signalled (.slaveTest g (g * nd + advance nd)) = 1 ∧
    iterations (.slaveTest g (g * nd + advance nd)) = nd := by
  decide

theorem Sound.slave (h : Sound s ps) (hq : (code calls s (ps (some g))).next? = some q) :
    Sound ((code calls s (ps (some g))).after s) (Function.update ps (some g) q) := by
  have hfits := h.fits (some g)
  cases hp : ps (some g) with
  | slaveTest icg param =>
      rw [hp] at hfits hq
      obtain ⟨rfl, hparam⟩ := hfits
      cases hq
      by_cases hstatus : s.status param = 0
      · obtain rfl : param = icg * nd := by
          refine hparam.resolve_right fun hfar => h.waits param ?_ hstatus
          rw [hfar.1]
          exact advance_mod icg
        rw [if_neg (not_not.mpr hstatus)]
        refine h.move ⟨rfl, rfl⟩ h.waits ?_ nofun ?_ rfl rfl rfl
        · rw [hp]
          exact (if_pos rfl).symm
        · rw [hp]
          exact (if_pos rfl).symm
      · rw [if_pos hstatus]
        exact h.move ⟨rfl, hparam⟩ h.waits (by rw [hp]) nofun (by rw [hp]) rfl rfl rfl
  | slaveExit icg param =>
      rw [hp] at hfits hq
      obtain ⟨rfl, hparam⟩ := hfits
      cases hq
      by_cases hexit : s.exit param = true
      · rw [if_pos hexit]
        exact h.move rfl h.waits (by rw [hp]; rfl) nofun (by rw [hp]; rfl) rfl rfl rfl
      · rw [if_neg hexit]
        exact h.move ⟨rfl, hparam⟩ h.waits (by rw [hp]; rfl) nofun (by rw [hp]; rfl) rfl rfl rfl
  | slaveStatus icg param =>
      rw [hp] at hfits hq
      obtain ⟨rfl, hparam⟩ := hfits
      cases hq
      refine h.move ⟨rfl, Nat.zero_le _, hparam, nofun⟩ ?_ (by rw [hp]; rfl) nofun
        (by rw [hp]; rfl) rfl rfl rfl
      exact (Function.forall_update_iff s.status fun id v => id % nd ≠ 0 → v ≠ 0).mpr
        ⟨fun _ => one_ne_zero, fun id _ => h.waits id⟩
  | body icg param i =>
      rw [hp] at hfits hq
      obtain ⟨rfl, -⟩ := hfits
      exact h.body hp hq
  | signalLoad icg param =>
      rw [hp] at hfits hq
      obtain ⟨rfl, hparam⟩ := hfits
      cases hq
      refine h.move ⟨rfl, hparam⟩ h.waits (by rw [hp]; rfl) ?_ (by rw [hp]; rfl) rfl rfl rfl
      rintro _ _ _ ⟨⟩
      rfl
  | signalStore icg param v =>
      rw [hp] at hfits hq
      obtain ⟨rfl, hparam⟩ := hfits
      cases hq
      exact h.store hp ⟨rfl, hparam⟩
  | signalCond icg param =>
      rw [hp] at hfits hq
      obtain ⟨rfl, rfl, hlast⟩ := hfits
      cases hq
      refine h.move ⟨rfl, .inr ⟨rfl, hlast⟩⟩ h.waits ?_ nofun ?_ rfl rfl rfl
      · rw [hp]
        exact (signalled_behind icg).1
      · rw [hp]
        exact (signalled_behind icg).2
  | returned | outside =>
      rw [hp] at hq
      cases hq
  | _ =>
      rw [hp] at hfits
      exact hfits.elim

theorem sound_of_reachable (h : (program calls).Reachable c) : Sound c.shared (points c) := by
  refine points_invariant h sound_start fun s ps t q hsound hq => ?_
  cases t with
  | none => exact hsound.master hq
  | some g => exact hsound.slave hq

/-! ## The indices -/

/-- The index that the last group reads in its last iteration is behind the end of `params`. -/
theorem Sound.outside (h : Sound s ps) (hlast : LastIteration (ps t)) :
    ¬ Right ((code calls s (ps t)).after s) := by
  have hfits := h.fits t
  intro hright
  cases hp : ps t with
  | body g param i =>
      rw [hp] at hfits hlast hright
      cases t with
      | none => exact hfits
      | some g' =>
          obtain ⟨rfl, -, hparam, -⟩ := hfits
          have hi : i < nd := by
            have hend := hlast.2
            omega
          have hout : ¬ param + i < tableSize := by
            rw [hparam, inside_iff g i hi, not_not]
            exact hlast
          simp only [code, if_pos hi, if_neg hout, Op.after] at hright
          exact hout (hright.inside _ (by simp))
  | _ =>
      rw [hp] at hlast
      exact hlast

/-- All other accesses are inside. -/
theorem Sound.inside (h : Sound s ps) (hearly : ¬ LastIteration (ps t))
    (hused : ∀ idx ∈ s.used, idx < tableSize) :
    ∀ idx ∈ ((code calls s (ps t)).after s).used, idx < tableSize := by
  have hfits := h.fits t
  have hadd : ∀ idx, idx < tableSize → ∀ idx' ∈ s.used ++ [idx], idx' < tableSize := by
    intro idx hidx
    simpa [or_imp, forall_and] using ⟨hused, hidx⟩
  cases hp : ps t with
  | masterSignal k i =>
      simp only [code]
      split
      · next hi =>
          refine hadd _ ?_
          simp only [cgMax, nd, tableSize] at hi ⊢
          omega
      · exact hused
  | call k =>
      simp only [code]
      split <;> exact hused
  | body g param i =>
      rw [hp] at hfits hearly
      cases t with
      | none => exact hfits.elim
      | some g' =>
          obtain ⟨rfl, -, hparam, -⟩ := hfits
          by_cases hi : i < nd
          · have hin : param + i < tableSize := by
              rw [hparam, inside_iff g i hi]
              exact hearly
            simp only [code, if_pos hi, if_pos hin]
            exact hadd _ hin
          · simp only [code, if_neg hi]
            exact hused
  | _ => exact hused

/-- The runs that meet the condition. -/
abbrev EarlyRun (calls : ℕ) : Config Tid Shared Point Empty Empty → Prop :=
  (program calls).ReachableBy (Meets Early fun _ _ _ => True)

theorem right_of_early (h : EarlyRun calls c) : Right c.shared := by
  obtain ⟨hsound, hused⟩ : Sound c.shared (points c) ∧ ∀ idx ∈ c.shared.used, idx < tableSize := by
    refine conditional_points_invariant
      (P := fun s ps => Sound s ps ∧ ∀ idx ∈ s.used, idx < tableSize) h ⟨sound_start, nofun⟩ ?_
    rintro s ps t q ⟨hsound, hused⟩ hearly hq
    refine ⟨?_, hsound.inside hearly hused⟩
    cases t with
    | none => exact hsound.master hq
    | some g => exact hsound.slave hq
  refine ⟨hused, fun k hk => ?_⟩
  rw [hsound.returned] at hk
  exact absurd hk (Nat.not_lt_zero k)

/-- The step against the condition reads behind the end. -/
theorem not_right_of_last {a : Action Tid} (h : (program calls).Reachable c)
    (hs : (program calls).step c a = some c')
    (hbad : ¬ Meets Early (fun _ _ _ => True) c a) : ¬ Right c'.shared := by
  obtain ⟨t, p, q, -, hlast, -, -, hshared⟩ := exists_of_not_meets hs hbad
  rw [Early, not_not] at hlast
  rw [hshared]
  exact (sound_of_reachable h).outside hlast

/-! ## The blocks -/

theorem Point.Fits.iterations_le (h : p.Fits t) : iterations p ≤ nd := by
  cases t with
  | none => cases p <;> first | exact h.elim | exact Nat.zero_le _
  | some g =>
      cases p with
      | body icg param i => exact h.2.1
      | signalLoad | signalStore | signalCond => exact le_rfl
      | slaveTest icg param =>
          simp only [iterations]
          split
          · exact Nat.zero_le _
          · exact le_rfl
      | outside => exact Nat.sub_le ..
      | _ => exact Nat.zero_le _

/-- A slave processes the first block of its group, the second, the fourth and the seventh. -/
theorem Sound.worked_order (h : Sound s ps) (g : Fin cgMax) :
    DampCg.worked s g <+: [g * nd, g * nd + 1, g * nd + 3, g * nd + 6] := by
  have hall : [g * nd, g * nd + 1, g * nd + 3, g * nd + 6] =
      (List.range nd).map fun j => g.val * nd + advance (j + 1) := rfl
  rw [h.worked g, hall]
  have hle := (h.fits (some g)).iterations_le
  refine List.IsPrefix.map _ ?_
  rw [List.prefix_iff_eq_take, List.take_range, List.length_range, Nat.min_eq_left hle]

/-! ## Results -/

/-- The master begins its first round, and the slave of a group goes through its loop. -/
def firstRound (calls : ℕ) (g : Fin cgMax) : Option (Config Tid Shared Point Empty Empty) :=
  (program calls).exec (program calls).init
    (List.replicate 5 (Action.run none none) ++ List.replicate 7 (Action.run (some g) none))

theorem exists_outside (hcalls : calls ≠ 0) :
    ∃ c, (program calls).Reachable c ∧ ¬ Right c.shared := by
  obtain ⟨n, rfl⟩ := Nat.exists_eq_succ_of_ne_zero hcalls
  have hrun : (firstRound (n + 1) ⟨3, by decide⟩).any
      (fun c => decide (18 ∈ c.shared.used)) = true := by rfl
  obtain ⟨c, hexec, hused⟩ := (Option.any_eq_true _ _).mp hrun
  exact ⟨c, System.Reachable.init.exec hexec,
    fun hright => absurd (hright.inside 18 (of_decide_eq_true hused)) (by decide)⟩

/-- Without a call no slave gets to work. -/
theorem early_of_no_calls (h : (program 0).Reachable c) : EarlyRun 0 c := by
  refine reachableBy_of_good (fun c i p hc _ => ?_) h
  have hidle : points c = start ∧ ∀ id, c.shared.status id ≠ 0 := by
    refine points_invariant (P := fun s ps => ps = start ∧ ∀ id, s.status id ≠ 0) hc.reachable
      ⟨rfl, fun _ => one_ne_zero⟩ ?_
    rintro s _ t q ⟨rfl, hstatus⟩ hq
    cases t with
    | none => cases hq
    | some g =>
        cases hq
        rw [if_pos (hstatus _)]
        exact ⟨Function.update_eq_self .., hstatus⟩
  rw [Early, hidle.1]
  cases i <;> exact id

/-- For any number of calls and any interleaving: the property holds up to the last iteration of the
last group, which ends it. No call of `master_wait` returns, and the groups process other blocks
than their own. All runs have the property only if there is no call. -/
theorem right_until_last (calls : ℕ) :
    (∀ c, EarlyRun calls c → Right c.shared) ∧
    (∀ c a c', (program calls).Reachable c → (program calls).step c a = some c' →
      ¬ Meets Early (fun _ _ _ => True) c a → ¬ Right c'.shared) ∧
    (∀ c, (program calls).Reachable c → c.shared.returned = 0 ∧
      ∀ g : Fin cgMax, worked c.shared g <+: [g * nd, g * nd + 1, g * nd + 3, g * nd + 6]) ∧
    ((∀ c, (program calls).Reachable c → Right c.shared) ↔ calls = 0) := by
  refine ⟨fun c h => right_of_early h, fun c a c' h hs hbad => not_right_of_last h hs hbad,
    fun c h => ⟨(sound_of_reachable h).returned, (sound_of_reachable h).worked_order⟩,
    fun hall => ?_, ?_⟩
  · by_contra hcalls
    obtain ⟨c, hreach, hwrong⟩ := exists_outside hcalls
    exact hwrong (hall c hreach)
  · rintro rfl c h
    exact right_of_early (early_of_no_calls h)

/-- The last group has three iterations behind it. -/
def threeIterations (g : Fin cgMax) : Option (Config Tid Shared Point Empty Empty) :=
  ((program 1).guarded (Meets Early fun _ _ _ => True)).exec (program 1).init
    (List.replicate 5 (Action.run none none) ++ List.replicate 6 (Action.run (some g) none))

theorem right_threeIterations : ∃ c, threeIterations ⟨3, by decide⟩ = some c ∧ Right c.shared ∧
    c.shared.used = [0, 4, 8, 12, 12, 13, 15] := by
  have hrun : (threeIterations ⟨3, by decide⟩).any
      (fun c => decide (c.shared.used = [0, 4, 8, 12, 12, 13, 15])) = true := by decide
  obtain ⟨c, hexec, hused⟩ := (Option.any_eq_true _ _).mp hrun
  have hreach : EarlyRun 1 c := .of_exec hexec
  exact ⟨c, hexec, (right_until_last 1).1 c hreach, of_decide_eq_true hused⟩

/-- With one call the last group reads `params[18]`. -/
theorem outside_in_first_round : ¬ ∀ calls c, (program calls).Reachable c → Right c.shared := by
  intro hright
  obtain ⟨c, hreach, hwrong⟩ := exists_outside one_ne_zero
  exact hwrong (hright 1 c hreach)

end PthreadBenchmark.DampCg
