import PthreadBenchmark.Employees.Locked

/-! # The employee of the day without the lock -/

namespace PthreadBenchmark.Employees

open Pthread

variable {n : ℕ} {table : Fin (n + 1) → Employee} {order : List Field} {day : Employee}
  {k l : Fin (n + 1)} {f : Field} {i : Tid (n + 1)} {q : Point (n + 1)}
  {ps : Tid (n + 1) → Point (n + 1)}
  {c : Config (Tid (n + 1)) Employee (Point (n + 1)) Empty Empty}

/-! ## Employees that look the same -/

/-- `main` cannot tell the employees apart, except by their numbers. -/
def Alike (table : Fin (n + 1) → Employee) : Prop :=
  ∀ k l, ∀ f ∈ checked, (table k).same (table l) f = true

/-- Each field of the record is that of one of the employees. -/
def Mixed (table : Fin (n + 1) → Employee) (day : Employee) : Prop :=
  ∀ f, ∃ k, (table k).same day f = true

theorem same_trans {a b c : Employee} (hab : a.same b f = true) (hbc : b.same c f = true) :
    a.same c f = true := by
  cases f <;> simp only [Employee.same, decide_eq_true_eq] at hab hbc ⊢ <;> exact hab.trans hbc

theorem Mixed.copyField (h : Mixed table day) (k : Fin (n + 1)) (f : Field) :
    Mixed table ((table k).copyField day f) := by
  intro g
  by_cases hg : g = f
  · subst hg
    exact ⟨k, same_copyField_self _ _ _⟩
  · obtain ⟨l, hl⟩ := h g
    exact ⟨l, by rwa [same_copyField_of_ne _ _ _ hg]⟩

/-- What holds of the points without the lock. -/
def UnlockedFits (table : Fin (n + 1) → Employee) : Point (n + 1) → Prop
  | .mainCheck _ rest => ∀ f ∈ rest, f ∈ checked
  | .mainMismatch _ => ¬ Alike table
  | .mainOutside => False
  | _ => True

structure Mix (table : Fin (n + 1) → Employee) (day : Employee)
    (ps : Tid (n + 1) → Point (n + 1)) : Prop where
  mixed : Mixed table day
  fits : ∀ i, UnlockedFits table (ps i)

theorem Mix.move (h : Mix table day ps) (hfits : UnlockedFits table q) :
    Mix table day (Function.update ps i q) := by
  refine ⟨h.mixed, (Function.forall_update_iff ps fun _ p => UnlockedFits table p).mpr ?_⟩
  exact ⟨hfits, fun j _ => h.fits j⟩

theorem Mix.step (hnumber : ∀ k, (table k).number = k + 1) (h : Mix table day ps)
    (hq : (unlocked (code (ι := Tid (n + 1)) table order) day (ps i)).next? = some q) :
    Mix table ((unlocked (code (ι := Tid (n + 1)) table order) day (ps i)).after day)
      (Function.update ps i q) := by
  have hfits := h.fits i
  cases hp : ps i with
  | lock k | mainLock =>
      rw [hp] at hq
      cases hq
      exact h.move trivial
  | copy k rest =>
      rw [hp] at hq
      cases rest with
      | nil =>
          cases hq
          exact h.move trivial
      | cons f rest =>
          cases hq
          have hnext : Mix table ((table k).copyField day f) ps :=
            ⟨h.mixed.copyField k f, h.fits⟩
          exact hnext.move trivial
  | mainFind =>
      rw [hp] at hq
      obtain ⟨k, hk⟩ := h.mixed .number
      simp only [Employee.same, decide_eq_true_eq, hnumber] at hk
      have hrange : 1 ≤ day.number ∧ day.number ≤ (n + 1 : ℕ) := by omega
      simp only [unlocked, code, dif_pos hrange, Op.unlocked, Op.next?] at hq ⊢
      cases hq
      exact h.move fun f hf => hf
  | mainCheck p rest =>
      rw [hp] at hq hfits
      cases rest with
      | nil =>
          cases hq
          exact h.move trivial
      | cons f rest =>
          simp only [unlocked, code, Op.unlocked, Op.next?, Op.after] at hq ⊢
          cases hq
          by_cases hsame : (table p).same day f = true
          · rw [if_pos hsame]
            exact h.move fun g hg => hfits g (List.mem_cons_of_mem f hg)
          · rw [if_neg hsame]
            refine h.move fun halike => hsame ?_
            obtain ⟨k, hk⟩ := h.mixed f
            exact same_trans (halike p k f (hfits f List.mem_cons_self)) hk
  | mainMismatch | mainOutside =>
      rw [hp] at hq
      cases hq

theorem mix_of_reachable (hnumber : ∀ k, (table k).number = k + 1)
    (h : (unlockedProgram table order).Reachable c) : Mix table c.shared (points c) := by
  refine points_invariant h ⟨fun f => ⟨_, same_self _ f⟩, fun i => ?_⟩
    fun _ _ _ _ hmix hq => hmix.step hnumber hq
  cases i <;> trivial

/-! ## A run to a mismatch -/

section Runs

variable {G : Config (Tid (n + 1)) Employee (Point (n + 1)) Empty Empty → Prop}
  {rest : List Field}

theorem leads_copies (hi : ps i = .copy k rest)
    (h : (unlockedProgram table order).Leads G
      (placed (fun _ => none) (rest.foldl (table k).copyField day)
        (Function.update ps i (.lock k)))) :
    (unlockedProgram table order).Leads G (placed (fun _ => none) day ps) := by
  induction rest generalizing day ps with
  | nil => exact leads_placed_run i (by rw [hi]; rfl) h
  | cons f rest ih =>
      refine leads_placed_run (q := .copy k rest) i (by rw [hi]; rfl) (ih ?_ ?_)
      · rw [Function.update_self]
      · rwa [Function.update_idem]

theorem same_foldl (a : Employee) (hf : a.same day f = true ∨ f ∈ rest) :
    a.same (rest.foldl a.copyField day) f = true := by
  induction rest generalizing day with
  | nil => exact hf.resolve_right List.not_mem_nil
  | cons g rest ih =>
      refine ih ?_
      by_cases hfg : f = g
      · subst hfg
        exact .inl (same_copyField_self _ _ _)
      · rw [same_copyField_of_ne _ _ _ hfg]
        exact hf.imp_right fun hmem => (List.mem_cons.mp hmem).resolve_left hfg

/-- A thread copies its employee, from the first field to the last. -/
theorem leads_employee (horder : ∀ f, f ∈ order) (hi : ps i = .lock k)
    (h : (unlockedProgram table order).Leads G (placed (fun _ => none) (table k) ps)) :
    (unlockedProgram table order).Leads G (placed (fun _ => none) day ps) := by
  refine leads_placed_run (q := .copy k order) i (by rw [hi]; rfl) ?_
  refine leads_copies (Function.update_self ..) ?_
  rw [Function.update_idem, ← hi, Function.update_eq_self]
  rwa [eq_of_same fun f => same_foldl (table k) (.inr (horder f))]

theorem leads_mismatch (hi : ps i = .mainCheck k rest)
    (hne : ∃ f ∈ rest, (table k).same day f = false) :
    (unlockedProgram table order).Leads
      (fun c => ∃ i f, c.threads i = .running (.mainMismatch f))
      (placed (fun _ => none) day ps) := by
  induction rest generalizing ps with
  | nil =>
      obtain ⟨f, hf, -⟩ := hne
      cases hf
  | cons f rest ih =>
      by_cases hsame : (table k).same day f = true
      · have hop : unlocked (code (ι := Tid (n + 1)) table order) day (ps i) =
            .run day (.mainCheck k rest) := by
          rw [hi, unlocked, code, if_pos hsame]
          rfl
        refine leads_placed_run i hop (ih (Function.update_self ..) ?_)
        obtain ⟨g, hg, hgne⟩ := hne
        rcases List.mem_cons.mp hg with rfl | hg
        · rw [hsame] at hgne
          cases hgne
        · exact ⟨g, hg, hgne⟩
      · have hop : unlocked (code (ι := Tid (n + 1)) table order) day (ps i) =
            .run day (.mainMismatch f) := by
          rw [hi, unlocked, code, if_neg hsame]
          rfl
        refine leads_placed_run i hop (.here ⟨i, f, ?_⟩)
        simp only [placed, Function.update_self]

end Runs

/-! ## Results -/

/-- Without the lock `main` may leave its loop with a mismatch if and only if two employees differ
in a field that it compares. It never looks outside of the table. -/
theorem unlocked_mismatch_iff (horder : ∀ f, f ∈ order)
    (hnumber : ∀ k, (table k).number = k + 1) :
    ((∃ c, (unlockedProgram table order).Reachable c ∧
        ∃ i f, c.threads i = .running (.mainMismatch f)) ↔
      ∃ k l, ∃ f ∈ checked, (table k).same (table l) f = false) ∧
    ∀ c, (unlockedProgram table order).Reachable c → ∀ i, c.threads i ≠ .running .mainOutside := by
  refine ⟨⟨?_, ?_⟩, fun c hc i hi => ?_⟩
  · rintro ⟨c, hc, i, f, hi⟩
    have hfits := (mix_of_reachable hnumber hc).fits i
    rw [points_of_running hi] at hfits
    simpa [UnlockedFits, Alike] using hfits
  · rintro ⟨k, l, hne⟩
    have hk := hnumber k
    have hrange : 1 ≤ (table k).number ∧ (table k).number ≤ (n + 1 : ℕ) := by omega
    have hindex : (⟨((table k).number - 1).toNat, by omega⟩ : Fin (n + 1)) = k :=
      Fin.ext (by simp only; omega)
    have hfind : unlocked (code (ι := Tid (n + 1)) table order) (table k) .mainFind =
        .run (table k) (.mainCheck k checked) := by
      rw [unlocked, code, dif_pos hrange, hindex]
      rfl
    have hleads : (unlockedProgram table order).Leads
        (fun c => ∃ i f, c.threads i = .running (.mainMismatch f))
        (placed (fun _ => none) (table ⟨0, n.succ_pos⟩) start) := by
      -- `main` finds `k`, and then compares it with `l`
      refine leads_employee (i := some k) horder rfl ?_
      refine leads_placed_run (q := .mainFind) none rfl ?_
      refine leads_placed_run none (by rw [Function.update_self]; exact hfind) ?_
      refine leads_employee (i := some l) (k := l) horder rfl ?_
      exact leads_mismatch (i := none) (by rw [Function.update_self]) hne
    exact hleads.reachable .init
  · have hfits := (mix_of_reachable hnumber hc).fits i
    rwa [points_of_running hi] at hfits

/-- The employees of the source differ. -/
theorem unlocked_mismatch_employees : ∃ c, (unlockedProgram employees allFields).Reachable c ∧
    ∃ i f, c.threads i = .running (.mainMismatch f) :=
  (unlocked_mismatch_iff (fun f => by cases f <;> decide) (by decide)).1.mpr
    ⟨0, 1, .id, by decide, by decide⟩

end PthreadBenchmark.Employees
