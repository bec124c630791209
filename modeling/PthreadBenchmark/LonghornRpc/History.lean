import PthreadBenchmark.LonghornRpc.Model

/-! # Numbers, entries and completions

What the calls and `response_process` have done so far. -/

namespace PthreadBenchmark.LonghornRpc

open Uthash (entries)

variable {n : ℕ} {τ : Type} {env : Env n} {s s' : Shared n τ} {i : Fin n} {k : ℕ}

def Completed (s : Shared n τ) (i : Fin n) : Prop := ∃ k, (i, k) ∈ s.completions

/-- The message `k` is a response to the request of the call `i`, which has entered `msg_table`
before the lookup. -/
structure Matches (env : Env n) (s : Shared n τ) (i : Fin n) (k : ℕ) : Prop where
  type : (env.receive k).2.type = typeResponse
  seq : (i, (env.receive k).2.seq) ∈ s.issued
  entered : ∃ e, s.entered i = some e ∧ e.handled ≤ k ∧ e.received ≤ k + 1
  received : k < s.received

theorem Matches.ne_none (h : Matches env s i k) : s.entered i ≠ none := by
  obtain ⟨e, he, -⟩ := h.entered
  rw [he]
  exact Option.some_ne_none e

theorem Matches.of_le (h : Matches env s i k)
    (hissued : ∀ x, (i, x) ∈ s.issued → (i, x) ∈ s'.issued)
    (hentered : s'.entered i = s.entered i) (hreceived : s.received ≤ s'.received) :
    Matches env s' i k :=
  ⟨h.type, hissued _ h.seq, by rw [hentered]; exact h.entered, h.received.trans_le hreceived⟩

variable [Uthash n τ]

/-- What holds of the history. -/
structure Recorded (env : Env n) (s : Shared n τ) : Prop where
  seq : s.seq = BitVec.ofNat 32 s.issued.length
  seqs : s.issued.map Prod.snd = (List.range s.issued.length).map (BitVec.ofNat 32)
  callers : (s.issued.map Prod.fst).Nodup
  table : ∀ i ∈ entries s.msgTable, s.entered i ≠ none ∧ ¬ Completed s i
  ahead : s.received ≤ s.handled + 1
  entered : ∀ i e, s.entered i = some e → e.handled ≤ s.handled ∧ e.received ≤ e.handled + 1
  requests : (s.completions.map Prod.fst).Nodup
  messages : (s.completions.map Prod.snd).Nodup
  completed : ∀ i k, (i, k) ∈ s.completions → Matches env s i k ∧
    ∀ b < (env.args i).count, s.bufs i b = (env.receive k).2.memory (env.behind k) b

theorem Completed.matches (h : Recorded env s) (hi : Completed s i) : ∃ k, Matches env s i k := by
  obtain ⟨k, hk⟩ := hi
  exact ⟨k, (h.completed i k hk).1⟩

/-! ## Steps -/

/-- A step that gives out no number, and leaves the table and the completions as they are. -/
theorem Recorded.keep (h : Recorded env s) (hseq : s'.seq = s.seq) (hissued : s'.issued = s.issued)
    (htable : s'.msgTable = s.msgTable) (hentered : s'.entered = s.entered)
    (hcompletions : s'.completions = s.completions) (hhandled : s.handled ≤ s'.handled)
    (hreceived : s.received ≤ s'.received) (hahead : s'.received ≤ s'.handled + 1)
    (hbufs : ∀ j, s.entered j ≠ none → s'.bufs j = s.bufs j) : Recorded env s' where
  seq := by rw [hseq, hissued, h.seq]
  seqs := by rw [hissued, h.seqs]
  callers := by rw [hissued]; exact h.callers
  table := by
    rw [htable, hentered]
    simp only [Completed, hcompletions]
    exact h.table
  ahead := hahead
  entered j e hj := by
    rw [hentered] at hj
    obtain ⟨hle, hnear⟩ := h.entered j e hj
    exact ⟨hle.trans hhandled, hnear⟩
  requests := by rw [hcompletions]; exact h.requests
  messages := by rw [hcompletions]; exact h.messages
  completed j k hj := by
    rw [hcompletions] at hj
    obtain ⟨hmatch, hcopied⟩ := h.completed j k hj
    rw [hbufs j hmatch.ne_none]
    exact ⟨hmatch.of_le (by simp [hissued]) (by rw [hentered]) hreceived, hcopied⟩

theorem Recorded.setReq (h : Recorded env s) (i : Fin n) (req : Option (Request n)) :
    Recorded env (s.setReq i req) :=
  h.keep rfl rfl rfl rfl rfl le_rfl le_rfl h.ahead fun _ _ => rfl

/-- `new_seq` gives out the next number. -/
theorem Recorded.issue (h : Recorded env s) (hfresh : ∀ x, (i, x) ∉ s.issued)
    (req : Option (Request n)) :
    Recorded env { s.setReq i req with
      seq := s.seq + 1
      issued := s.issued ++ [(i, s.seq)] } where
  seq := by
    simp only [List.length_append, List.length_singleton, h.seq, BitVec.ofNat_add]
    rfl
  seqs := by
    simp only [List.map_append, List.length_append, List.length_singleton, List.range_succ, h.seqs,
      ← h.seq, List.map_cons, List.map_nil]
  callers := by
    rw [List.map_append]
    apply h.callers.append (List.nodup_singleton i)
    intro j hj hi
    obtain rfl : j = i := by simpa using hi
    obtain ⟨⟨_, x⟩, hx, rfl⟩ := List.mem_map.mp hj
    exact hfresh x hx
  table := h.table
  ahead := h.ahead
  entered := h.entered
  requests := h.requests
  messages := h.messages
  completed j k hj := by
    obtain ⟨hmatch, hcopied⟩ := h.completed j k hj
    exact ⟨hmatch.of_le (fun x hx => List.mem_append_left _ hx) rfl le_rfl, hcopied⟩

/-- A request enters the table. -/
theorem Recorded.enter (h : Recorded env s) (hnone : s.entered i = none) :
    Recorded env { s with
      msgTable := Uthash.hashAdd s.msgTable i
      entered := Function.update s.entered i (some ⟨s.received, s.handled⟩) } where
  seq := h.seq
  seqs := h.seqs
  callers := h.callers
  table j hj := by
    have hopen : ¬ Completed s i := by
      intro hcompleted
      obtain ⟨k, hk⟩ := hcompleted.matches h
      exact hk.ne_none hnone
    by_cases hji : j = i
    · subst hji
      simp only [Function.update_self]
      exact ⟨Option.some_ne_none _, hopen⟩
    · have hnew : i ∉ entries s.msgTable := fun hi => (h.table i hi).1 hnone
      rw [Uthash.entries_hashAdd _ _ hnew] at hj
      simp only [Function.update_of_ne hji]
      exact h.table j (Finset.mem_of_mem_insert_of_ne hj hji)
  ahead := h.ahead
  entered j e hj := by
    by_cases hji : j = i
    · subst hji
      simp only [Function.update_self] at hj
      cases hj
      exact ⟨le_rfl, h.ahead⟩
    · simp only [Function.update_of_ne hji] at hj
      exact h.entered j e hj
  requests := h.requests
  messages := h.messages
  completed j k hj := by
    obtain ⟨hmatch, hcopied⟩ := h.completed j k hj
    have hji : j ≠ i := by
      intro heq
      exact hmatch.ne_none (heq ▸ hnone)
    exact ⟨hmatch.of_le (fun _ hx => hx) (Function.update_of_ne hji ..) le_rfl, hcopied⟩

/-- A request leaves the table. -/
theorem Recorded.remove (h : Recorded env s) (hi : i ∈ entries s.msgTable) :
    Recorded env { s with msgTable := Uthash.hashDel s.msgTable i } where
  seq := h.seq
  seqs := h.seqs
  callers := h.callers
  table j hj := by
    rw [Uthash.entries_hashDel _ _ hi] at hj
    exact h.table j (Finset.mem_of_mem_erase hj)
  ahead := h.ahead
  entered := h.entered
  requests := h.requests
  messages := h.messages
  completed j k hj := by
    obtain ⟨hmatch, hcopied⟩ := h.completed j k hj
    exact ⟨hmatch.of_le (fun _ hx => hx) rfl le_rfl, hcopied⟩

/-- The message `k` is copied into the buffer of a call. -/
theorem Recorded.complete (h : Recorded env s) (hmatch : Matches env s i k)
    (htable : i ∉ entries s.msgTable) (hopen : ¬ Completed s i)
    (hbelow : ∀ j m, (j, m) ∈ s.completions → m < k) :
    Recorded env { s with
      bufs := Function.update s.bufs i
        (overwrite (s.bufs i) ((env.receive k).2.memory (env.behind k)) (env.args i).count)
      completions := s.completions ++ [(i, k)] } where
  seq := h.seq
  seqs := h.seqs
  callers := h.callers
  table j hj := by
    refine ⟨(h.table j hj).1, ?_⟩
    rintro ⟨m, hm⟩
    rcases List.mem_append.mp hm with hm | hm
    · exact (h.table j hj).2 ⟨m, hm⟩
    · cases List.mem_singleton.mp hm
      exact htable hj
  ahead := h.ahead
  entered := h.entered
  requests := by
    rw [List.map_append]
    apply h.requests.append (List.nodup_singleton i)
    intro j hj hi
    obtain rfl : j = i := by simpa using hi
    obtain ⟨⟨_, m⟩, hm, rfl⟩ := List.mem_map.mp hj
    exact hopen ⟨m, hm⟩
  messages := by
    rw [List.map_append]
    apply h.messages.append (List.nodup_singleton k)
    intro m hm hk
    obtain rfl : m = k := by simpa using hk
    obtain ⟨⟨j, _⟩, hj, rfl⟩ := List.mem_map.mp hm
    exact (hbelow j _ hj).false
  completed j m hj := by
    rcases List.mem_append.mp hj with hj | hj
    · obtain ⟨hold, hcopied⟩ := h.completed j m hj
      have hji : j ≠ i := by
        intro heq
        exact hopen ⟨m, heq ▸ hj⟩
      simp only [Function.update_of_ne hji]
      exact ⟨hold.of_le (fun _ hx => hx) rfl le_rfl, hcopied⟩
    · cases List.mem_singleton.mp hj
      refine ⟨hmatch.of_le (fun _ hx => hx) rfl le_rfl, fun b hb => ?_⟩
      simp only [Function.update_self]
      exact if_pos hb

/-! ## Numbers -/

theorem ofNat_injOn {a b : ℕ} (ha : a < 2 ^ 32) (hb : b < 2 ^ 32)
    (hab : BitVec.ofNat 32 a = BitVec.ofNat 32 b) : a = b := by
  have htoNat := congrArg BitVec.toNat hab
  rwa [BitVec.toNat_ofNat, BitVec.toNat_ofNat, Nat.mod_eq_of_lt ha, Nat.mod_eq_of_lt hb] at htoNat

/-- No two calls have the same number, so that a lookup cannot find more than one request. -/
theorem Recorded.unique (h : Recorded env s) (hn : n < 2 ^ 32) {j : Fin n} {x : BitVec 32}
    (hi : (i, x) ∈ s.issued) (hj : (j, x) ∈ s.issued) : i = j := by
  have hlength : s.issued.length ≤ n := by
    have hle := h.callers.length_le_card
    rwa [List.length_map, Fintype.card_fin] at hle
  have hnodup : (s.issued.map Prod.snd).Nodup := by
    rw [h.seqs]
    apply List.nodup_range.map_on
    intro a ha b hb hab
    rw [List.mem_range] at ha hb
    exact ofNat_injOn (by omega) (by omega) hab
  exact congrArg Prod.fst (List.inj_on_of_nodup_map hnodup hi hj rfl)

end PthreadBenchmark.LonghornRpc
