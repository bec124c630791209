import Mathlib.Data.List.Basic
import Mathlib.Data.List.Infix
import Mathlib.Data.List.Nodup
import Mathlib.Logic.Function.Basic

/-! # Several writers replay one log

A table is a list of keys with values. Each of several writers writes the entries of the
same log into it, in their order but at its own pace, so a late writer puts old values
back. When all have finished, the table is the one a single writer leaves. -/

namespace PthreadBenchmark

variable {ι υ τ : Type*} [DecidableEq υ]

/-- Overwrites the value of a key, or appends the key. -/
def upsert : List (υ × τ) → υ → τ → List (υ × τ)
  | [], k, v => [(k, v)]
  | d :: ds, k, v => if d.1 = k then (k, v) :: ds else d :: upsert ds k v

/-- The value of the last entry for the key. -/
def latest (log : List (υ × τ)) (k : υ) : Option τ :=
  (log.filter fun d => d.1 = k).getLast?.map Prod.snd

/-- The keys in the order of their first entries, with their latest values. -/
def summary (log : List (υ × τ)) : List (υ × τ) :=
  (log.map Prod.fst).eraseDups.filterMap fun k => (latest log k).map (k, ·)

variable {log table rest : List (υ × τ)} {k : υ} {v : τ}

theorem upsert_map_fst (table : List (υ × τ)) (k : υ) (v : τ) :
    (upsert table k v).map Prod.fst =
      if k ∈ table.map Prod.fst then table.map Prod.fst else table.map Prod.fst ++ [k] := by
  induction table with
  | nil => rfl
  | cons d ds ih =>
      by_cases hd : d.1 = k
      · simp [upsert, hd]
      · simp only [upsert, hd, if_false, List.map_cons, ih, List.mem_cons, Ne.symm hd, false_or]
        split <;> rfl

/-- With unique keys, an upsert leaves no old entry of its key. -/
theorem mem_upsert (hnodup : (table.map Prod.fst).Nodup) {d : υ × τ}
    (hd : d ∈ upsert table k v) : d = (k, v) ∨ d ∈ table ∧ d.1 ≠ k := by
  induction table with
  | nil => exact .inl (by simpa [upsert] using hd)
  | cons e es ih =>
      rw [List.map_cons, List.nodup_cons] at hnodup
      by_cases he : e.1 = k
      · simp only [upsert, he, if_true, List.mem_cons] at hd
        rcases hd with hd | hd
        · exact .inl hd
        · refine .inr ⟨List.mem_cons_of_mem _ hd, fun hk => hnodup.1 ?_⟩
          rw [he, ← hk]
          exact List.mem_map_of_mem hd
      · simp only [upsert, he, if_false, List.mem_cons] at hd
        rcases hd with rfl | hd
        · exact .inr ⟨List.mem_cons_self, he⟩
        · rcases ih hnodup.2 hd with hd | ⟨hd, hne⟩
          · exact .inl hd
          · exact .inr ⟨List.mem_cons_of_mem _ hd, hne⟩

/-- The last entry for a key decides. -/
theorem latest_append_cons (log : List (υ × τ)) (hrest : k ∉ rest.map Prod.fst) :
    latest (log ++ (k, v) :: rest) k = some v := by
  have hnone : rest.filter (fun d => d.1 = k) = [] := by
    rw [List.filter_eq_nil_iff]
    intro d hd hk
    exact hrest (List.mem_map.mpr ⟨d, hd, by simpa using hk⟩)
  simp [latest, hnone]

theorem eraseDups_concat (ks : List υ) (k : υ) :
    (ks ++ [k]).eraseDups = if k ∈ ks then ks.eraseDups else ks.eraseDups ++ [k] := by
  rw [List.eraseDups_append]
  by_cases hk : k ∈ ks <;> simp [List.removeAll, hk, List.eraseDups_cons]

/-- What the writers have still to write, `rest i` for the writer `i`, and what the table
holds meanwhile: the keys of the fastest writer's entries, and the latest value of every key
that no writer will write again. -/
structure Replay (log table : List (υ × τ)) (rest : ι → List (υ × τ)) : Prop where
  suffix : ∀ i, rest i <:+ log
  keys : ∃ pre post, pre ++ post = log ∧ table.map Prod.fst = (pre.map Prod.fst).eraseDups ∧
    ∀ i, post <:+ rest i
  nodup : (table.map Prod.fst).Nodup
  values : ∀ d ∈ table, (∀ i, d.1 ∉ (rest i).map Prod.fst) → latest log d.1 = some d.2

theorem Replay.start (log : List (υ × τ)) : Replay log [] fun _ : ι => log where
  suffix _ := List.suffix_rfl
  keys := ⟨[], log, rfl, rfl, fun _ => List.suffix_rfl⟩
  nodup := List.nodup_nil
  values := by simp

/-- One writer writes its next entry. -/
theorem Replay.write [DecidableEq ι] {rests : ι → List (υ × τ)} (h : Replay log table rests)
    {i : ι} (hi : rests i = (k, v) :: rest) :
    Replay log (upsert table k v) (Function.update rests i rest) := by
  have hlog : ∃ done, done ++ (k, v) :: rest = log := hi ▸ h.suffix i
  obtain ⟨done, hdone⟩ := hlog
  refine ⟨(Function.forall_update_iff rests fun _ r => r <:+ log).mpr ?_, ?_, ?_, ?_⟩
  · exact ⟨⟨done ++ [(k, v)], by simpa using hdone⟩, fun j _ => h.suffix j⟩
  · obtain ⟨pre, post, hpre, hkeys, hpost⟩ := h.keys
    rcases List.suffix_cons_iff.mp (hi ▸ hpost i) with hfirst | hbehind
    · -- this writer is the fastest, and the key may be new
      refine ⟨pre ++ [(k, v)], rest, by simp [← hpre, hfirst], ?_,
        (Function.forall_update_iff rests fun _ r => rest <:+ r).mpr ?_⟩
      · rw [upsert_map_fst, hkeys, List.map_append, List.map_singleton, eraseDups_concat]
        simp only [List.mem_eraseDups]
      · exact ⟨List.suffix_rfl, fun j _ =>
          (List.suffix_cons (k, v) rest).trans (hfirst ▸ hpost j)⟩
    · -- a faster writer has written this entry before
      refine ⟨pre, post, hpre, ?_,
        (Function.forall_update_iff rests fun _ r => post <:+ r).mpr ⟨hbehind, fun j _ => hpost j⟩⟩
      obtain ⟨mid, hmid⟩ := hbehind
      have hmem : k ∈ pre.map Prod.fst := by
        have hpre' : pre = done ++ (k, v) :: mid := by
          have happend : pre ++ post = done ++ (k, v) :: mid ++ post := by
            rw [hpre, ← hdone, ← hmid]
            simp
          exact List.append_cancel_right happend
        rw [hpre']
        simp
      rw [upsert_map_fst, hkeys, if_pos (List.mem_eraseDups.mpr hmem)]
  · rw [upsert_map_fst]
    split
    · exact h.nodup
    · next hnew => exact List.Nodup.append h.nodup (List.nodup_singleton k) (by simpa using hnew)
  · intro d hd hlast
    rcases mem_upsert h.nodup hd with rfl | ⟨hd, hne⟩
    · have hrest := hlast i
      rw [Function.update_self] at hrest
      rw [← hdone]
      exact latest_append_cons done hrest
    · refine h.values d hd fun j hj => ?_
      have hlast' := hlast j
      by_cases hji : j = i
      · subst j
        rw [hi, List.map_cons, List.mem_cons] at hj
        rw [Function.update_self] at hlast'
        exact hj.elim hne hlast'
      · rw [Function.update_of_ne hji] at hlast'
        exact hlast' hj

/-- When all writers have finished, the table is the summary of the log. -/
theorem Replay.finish {rests : ι → List (υ × τ)} (h : Replay log table rests) [Nonempty ι]
    (hdone : ∀ i, rests i = []) : table = summary log := by
  obtain ⟨pre, post, hpre, hkeys, hpost⟩ := h.keys
  obtain ⟨i⟩ := ‹Nonempty ι›
  obtain rfl : post = [] := by
    have := hpost i
    rwa [hdone i, List.suffix_nil] at this
  rw [List.append_nil] at hpre
  subst hpre
  rw [summary, ← hkeys, List.filterMap_map]
  have hvalues : ∀ d ∈ table, ((fun k => (latest pre k).map (k, ·)) ∘ Prod.fst) d = some d := by
    intro d hd
    simp [h.values d hd fun j => by simp [hdone j]]
  rw [List.filterMap_congr hvalues, List.filterMap_some]

end PthreadBenchmark
