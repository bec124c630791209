import Mathlib.Data.Set.Basic
import Mathlib.Data.Set.Lattice

/-! # Loops that collect a set

A program that may fail collects a set if it adds the set to what can be seen of its state, and
whether it fails does not depend on the state. Such programs are put together from smaller ones. -/

namespace PthreadBenchmark

namespace Collect

variable {σ κ α : Type*}

/-- A loop whose variables `k` go their way whatever becomes of the state. -/
def whileM (test : κ → Bool) (next : κ → κ) (μ : κ → ℕ)
    (hμ : ∀ k, test k = true → μ (next k) < μ k) (body : κ → σ → Option σ) (k : κ) (s : σ) :
    Option σ :=
  if test k = true then (body k s).bind (whileM test next μ hμ body (next k)) else some s
termination_by μ k
decreasing_by exact hμ k ‹_›

/-- The values of its variables with which a loop executes its body. -/
inductive Visited (test : κ → Bool) (next : κ → κ) : κ → κ → Prop where
  | here {k : κ} (hk : test k = true) : Visited test next k k
  | next {k k' : κ} (hk : test k = true) (h : Visited test next (next k) k') :
      Visited test next k k'

/-- In the states with `inv`, the program `p` fails unless `safe` holds, and adds `E` to what `view`
shows. -/
structure Collects (inv : σ → Prop) (view : σ → Set α) (p : σ → Option σ) (safe : Prop)
    (E : Set α) : Prop where
  isSome : ∀ s, inv s → ((p s).isSome = true ↔ safe)
  keeps : ∀ s s', inv s → p s = some s' → inv s' ∧ view s' = view s ∪ E

variable {inv : σ → Prop} {view : σ → Set α} {p q : σ → Option σ} {safe safe' : Prop}
  {E F : Set α} {test : κ → Bool} {next : κ → κ} {k k' : κ}

theorem Collects.congr (h : Collects inv view p safe E) (hsafe : safe ↔ safe') (hE : E = F) :
    Collects inv view p safe' F :=
  ⟨fun s hs => (h.isSome s hs).trans hsafe, hE ▸ h.keeps⟩

/-- A step that cannot be seen. -/
theorem collects_pure {g : σ → σ} (hg : ∀ s, inv s → inv (g s) ∧ view (g s) = view s) :
    Collects inv view (fun s => some (g s)) True ∅ where
  isSome _ _ := by simp
  keeps s s' hs heq := by
    cases heq
    exact ⟨(hg s hs).1, by rw [(hg s hs).2, Set.union_empty]⟩

theorem collects_some : Collects inv view some True ∅ := collects_pure fun _ hs => ⟨hs, rfl⟩

theorem Collects.ite {c : Prop} [Decidable c] (h : Collects inv view p safe E) :
    Collects inv view (fun s => if c then p s else some s) (c → safe) {v | c ∧ v ∈ E} := by
  by_cases hc : c
  · simp only [if_pos hc]
    exact h.congr (by simp [hc]) (by simp [hc])
  · simp only [if_neg hc]
    exact collects_some.congr (by simp [hc]) (by simp [hc])

theorem Collects.bind (hp : Collects inv view p safe E) (hq : Collects inv view q safe' F) :
    Collects inv view (fun s => (p s).bind q) (safe ∧ safe') (E ∪ F) where
  isSome s hs := by
    have hsafe := hp.isSome s hs
    cases hps : p s with
    | none =>
        rw [hps] at hsafe
        simp only [Option.bind_none, Option.isSome_none, Bool.false_eq_true, false_iff, not_and]
        exact fun h => absurd (hsafe.mpr h) (by simp)
    | some t =>
        rw [hps] at hsafe
        rw [Option.bind_some, hq.isSome t (hp.keeps s t hs hps).1]
        exact (and_iff_right (hsafe.mp rfl)).symm
  keeps s s' hs heq := by
    obtain ⟨t, ht, hqt⟩ := Option.bind_eq_some_iff.mp heq
    obtain ⟨hinv, hview⟩ := hp.keeps s t hs ht
    obtain ⟨hinv', hview'⟩ := hq.keeps t s' hinv hqt
    exact ⟨hinv', by rw [hview', hview, Set.union_assoc]⟩

/-- A check in front that does not look at the state. -/
theorem Collects.guard {β : Type*} {o : Option β} {c : Prop} (ho : o.isSome = true ↔ c)
    (h : Collects inv view p safe E) :
    Collects inv view (fun s => o.bind fun _ => p s) (c ∧ safe) E := by
  cases o with
  | none =>
      have hc : ¬ c := fun hc => absurd (ho.mpr hc) (by simp)
      exact ⟨fun s _ => by simp [hc], fun s s' _ heq => by cases heq⟩
  | some x => exact h.congr (and_iff_right (ho.mp rfl)).symm rfl

theorem Collects.foldlM {p : κ → σ → Option σ} {safe : κ → Prop} {E : κ → Set α} {ks : List κ}
    (h : ∀ k ∈ ks, Collects inv view (p k) (safe k) (E k)) :
    Collects inv view (fun s => ks.foldlM (fun s k => p k s) s) (∀ k ∈ ks, safe k)
      {v | ∃ k ∈ ks, v ∈ E k} := by
  induction ks with
  | nil => exact collects_some.congr (by simp) (by simp)
  | cons k ks ih =>
      have htail := ih fun k' hk' => h k' (List.mem_cons_of_mem k hk')
      refine ((h k List.mem_cons_self).bind htail).congr (by simp) ?_
      ext v
      simp

theorem visited_iff : Visited test next k k' ↔
    test k = true ∧ (k' = k ∨ Visited test next (next k) k') := by
  constructor
  · intro h
    cases h with
    | here hk => exact ⟨hk, .inl rfl⟩
    | next hk h => exact ⟨hk, .inr h⟩
  · rintro ⟨hk, rfl | h⟩
    · exact .here hk
    · exact .next hk h

/-- The loop goes on behind a visit. -/
theorem Visited.step (h : Visited test next k k') (hk : test (next k') = true) :
    Visited test next k (next k') := by
  induction h with
  | here hk₀ => exact .next hk₀ (.here hk)
  | next hk₀ _ ih => exact .next hk₀ (ih hk)

theorem Visited.test_eq (h : Visited test next k k') : test k = true := (visited_iff.mp h).1

theorem Collects.whileM {μ : κ → ℕ} {hμ : ∀ k, test k = true → μ (next k) < μ k}
    {body : κ → σ → Option σ} {safe : κ → Prop} {E : κ → Set α}
    (h : ∀ k, Collects inv view (body k) (safe k) (E k)) (k : κ) :
    Collects inv view (whileM test next μ hμ body k)
      (∀ k', Visited test next k k' → safe k') {v | ∃ k', Visited test next k k' ∧ v ∈ E k'} := by
  induction hn : μ k using Nat.strong_induction_on generalizing k with
  | _ n ih =>
      by_cases hk : test k = true
      · have htail := ih (μ (next k)) (hn ▸ hμ k hk) (next k) rfl
        have hloop : Collect.whileM test next μ hμ body k =
            fun s => (body k s).bind (Collect.whileM test next μ hμ body (next k)) := by
          funext s
          rw [Collect.whileM, if_pos hk]
        rw [hloop]
        refine ((h k).bind htail).congr ?_ ?_
        · simp [visited_iff (k := k), hk]
        · ext v
          simp [visited_iff (k := k), hk]
      · have hloop : Collect.whileM test next μ hμ body k = some := by
          funext s
          rw [Collect.whileM, if_neg hk]
        rw [hloop]
        refine collects_some.congr ?_ ?_
        · simp [visited_iff (k := k), hk]
        · ext v
          simp [visited_iff (k := k), hk]

end Collect

end PthreadBenchmark
