import PthreadBenchmark.Shared.PthreadRules

/-! # Programs that refine each other

A program that has more shared variables and more points than another one is seen as the
other one by forgetting them. If each of its operations is one of the other program, or is an access
that cannot be seen there, its runs are runs of the other program. -/

namespace PthreadBenchmark

variable {ι σ σ' π π' μ κ : Type*} {f : σ' → σ} {g : π' → π}

def Status.map (g : π' → π) : Status π' μ κ → Status π μ κ
  | .running p => .running (g p)
  | .asleep c m p => .asleep c m (g p)
  | .woken m p => .woken m (g p)

def Config.map (f : σ' → σ) (g : π' → π) (c : Config ι σ' π' μ κ) : Config ι σ π μ κ :=
  ⟨c.owner, f c.shared, fun i => Status.map g (c.threads i)⟩

namespace Pthread

/-- The operation `o'` of the finer program is the operation `o` of the coarser one, or an access
that cannot be seen there. -/
def Refines (f : σ' → σ) (g : π' → π) (s : σ') (p : π') (o : Op ι σ π μ κ)
    (o' : Op ι σ' π' μ κ) : Prop :=
  o'.map (fun i => i) f g = o ∨ ∃ s' q, o' = .run s' q ∧ f s' = f s ∧ g q = g p

/-- What has been lifted to a larger program refines it. -/
theorem refines_map {h : σ → σ'} {k : π → π'} {s : σ'} {p : π'} {o : Op ι σ π μ κ}
    (hshared : ∀ s, f (h s) = s) (hpoint : ∀ p, g (k p) = p) :
    Refines f g s p o (o.map (fun i => i) h k) := by
  refine .inl ?_
  cases o <;> simp only [Op.map, hshared, hpoint]

theorem points_map (c : Config ι σ' π' μ κ) :
    points (c.map f g) = fun i => g (points c i) := by
  funext i
  cases ht : c.threads i <;> simp only [points, Config.map, ht, Status.map, point]

theorem asleepOn_map {cond : κ} {t : Status π' μ κ} :
    AsleepOn cond (t.map g) ↔ AsleepOn cond t := by
  cases t <;> exact Iff.rfl

theorem wake_map [DecidableEq κ] (cond : κ) (t : Status π' μ κ) :
    wake cond (t.map g) = (wake cond t).map g := by
  cases t with
  | running p => rfl
  | woken m p => rfl
  | asleep c m p =>
      simp only [wake, Status.map]
      split <;> rfl

section Steps

variable {code : σ → π → Op ι σ π μ κ} {code' : σ' → π' → Op ι σ' π' μ κ}
  {c c' : Config ι σ' π' μ κ} {shared : σ} {shared' : σ'} {start : ι → π} {start' : ι → π'}
  {i : ι} {target : Option ι}

theorem map_update [DecidableEq ι] (threads : ι → Status π' μ κ) (i : ι) (t : Status π' μ κ) :
    (fun j => (Function.update threads i t j).map g) =
      Function.update (fun j => (threads j).map g) i (t.map g) :=
  Function.comp_update (Status.map g) threads i t

/-- What is seen of a move of the thread `i`. -/
theorem map_move [DecidableEq ι] (owner : μ → Option ι) (s : σ') (threads : ι → Status π' μ κ)
    (i : ι) (t : Status π' μ κ) :
    Config.map f g ⟨owner, s, Function.update threads i t⟩ =
      ⟨owner, f s, Function.update (fun j => (threads j).map g) i (t.map g)⟩ :=
  congrArg (Config.mk owner (f s)) (map_update threads i t)

/-- A halted thread has halted in the coarser program too. -/
theorem halted_map (hrefines : ∀ s p, Refines f g s p (code (f s) (g p)) (code' s p)) {s : σ'}
    {t : Status π' μ κ} (h : Halted code' s t) : Halted code (f s) (t.map g) := by
  cases t with
  | running p =>
      have hhalt : isHalt (code' s p) = true := h
      rcases hrefines s p with heq | ⟨s', q, heq, -⟩
      · simp only [Status.map, Halted, ← heq, isHalt_map]
        exact hhalt
      · rw [heq] at hhalt
        cases hhalt
  | asleep cond m p => exact h.elim
  | woken m p => exact h.elim

variable [Fintype ι] [DecidableEq ι] [DecidableEq μ] [DecidableEq κ]

/-- An operation has the same effect in both programs. -/
theorem exec_map (hrefines : ∀ s p, Refines f g s p (code (f s) (g p)) (code' s p))
    {o : Op ι σ' π' μ κ} (h : exec code' c i target o = some c') :
    exec code (c.map f g) i target (o.map (fun i => i) f g) = some (c'.map f g) := by
  cases o with
  | lock m q | unlock m q | wait cond m q =>
      simp only [exec] at h
      split at h
      · next hown =>
          cases h
          have hmap : (c.map f g).owner m = _ := hown
          simp only [Op.map, exec]
          rw [if_pos hmap, map_move]
          rfl
      · cases h
  | signal cond q =>
      cases target with
      | none =>
          simp only [exec] at h
          split at h
          · cases h
          · next hnone =>
              cases h
              have hmap : ¬ ∃ j, AsleepOn cond ((c.map f g).threads j) := by
                rintro ⟨j, hj⟩
                exact hnone ⟨j, asleepOn_map.mp hj⟩
              simp only [Op.map, exec]
              rw [if_neg hmap, map_move]
              rfl
      | some j =>
          simp only [exec] at h
          split at h
          · next hasleep =>
              cases h
              have hmap : AsleepOn cond ((c.map f g).threads j) := asleepOn_map.mpr hasleep
              simp only [Op.map, exec]
              rw [if_pos hmap, map_move, map_update, ← wake_map]
              rfl
          · cases h
  | broadcast cond q =>
      cases h
      simp only [map_move, ← wake_map]
      rfl
  | run s q =>
      cases h
      rw [map_move]
      rfl
  | join j q =>
      simp only [exec] at h
      split at h
      · next hhalted =>
          cases h
          have hmap : Halted code (c.map f g).shared ((c.map f g).threads j) :=
            halted_map hrefines hhalted
          simp only [Op.map, exec]
          rw [if_pos hmap, map_move]
          rfl
      · cases h
  | halt => cases h

/-- Each step is one of the coarser program, or cannot be seen there. -/
theorem step_map (hrefines : ∀ s p, Refines f g s p (code (f s) (g p)) (code' s p))
    {a : Action ι} (h : step code' c a = some c') :
    c'.map f g = c.map f g ∨ step code (c.map f g) a = some (c'.map f g) := by
  cases a with
  | spurious i =>
      refine .inr ?_
      cases ht : c.threads i with
      | running p | woken m p => simp [step, ht] at h
      | asleep cond m p =>
          simp only [step, ht] at h
          cases h
          have hmap : (c.map f g).threads i = .asleep cond m (g p) := by
            simp only [Config.map, ht, Status.map]
          simp only [step, hmap, map_move]
          rfl
  | run i target =>
      cases ht : c.threads i with
      | asleep cond m q => simp [step, ht] at h
      | woken m q =>
          refine .inr ?_
          simp only [step, ht] at h
          simp only [step, Config.map, ht, Status.map]
          exact exec_map hrefines h
      | running p =>
          simp only [step, ht] at h
          have hp : (c.map f g).threads i = .running (g p) := by
            simp only [Config.map, ht, Status.map]
          rcases hrefines c.shared p with heq | ⟨s', q, heq, hshared, hpoint⟩
          · refine .inr ?_
            have hexec := exec_map hrefines h
            rw [heq] at hexec
            simp only [step, hp]
            exact hexec
          · refine .inl ?_
            rw [heq] at h
            cases h
            have hstill : Function.update (c.map f g).threads i (.running (g q)) =
                (c.map f g).threads := by
              rw [hpoint, ← hp]
              exact Function.update_eq_self i _
            rw [Config.map, hshared]
            simp only [map_update]
            exact congrArg _ hstill

/-- The runs of the finer program are runs of the coarser one. -/
theorem reachable_map (hrefines : ∀ s p, Refines f g s p (code (f s) (g p)) (code' s p))
    (hshared : f shared' = shared) (hstart : ∀ i, g (start' i) = start i)
    (h : (program code' shared' start').Reachable c) :
    (program code shared start).Reachable (c.map f g) := by
  induction h with
  | init =>
      have hinit : (program code' shared' start').init.map f g =
          (program code shared start).init := by
        simp only [program, Config.map, Status.map, hshared, hstart]
      rw [hinit]
      exact .init
  | @step c c' a _ hs ih =>
      rcases step_map hrefines hs with hsame | hstep
      · rw [hsame]
        exact ih
      · exact ih.step a hstep

end Steps

end Pthread

end PthreadBenchmark
