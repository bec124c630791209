import PthreadBenchmark.LonghornRpc.Invariant

/-! # Responses reach the calls that they answer -/

namespace PthreadBenchmark.LonghornRpc

open Pthread

open Uthash (entries)

variable {n : ℕ} {τ : Type} {env : Env n} {s s' : Shared n τ} {ps : Tid n → Point n}
  {sl sl' : Tid n → Option (Fin n)} {i : Fin n} {k : ℕ} {q : Point n}

/-! ## Calls -/

theorem deref_of_eq {req : Request n} (h : s.reqs i = some req)
    (access : Request n → Step n τ) : deref s i access = access req := by
  simp only [deref, h]

variable [Uthash n τ]

theorem extends_setReq (s : Shared n τ) (i : Fin n) (req : Option (Request n)) :
    Extends s (s.setReq i req) i :=
  { extends_refl s i with
    reqs := fun _ hne => Function.update_of_ne hne .. }

theorem extends_issue (s : Shared n τ) (i : Fin n) (req : Option (Request n)) :
    Extends s { s.setReq i req with
      seq := s.seq + 1
      issued := s.issued ++ [(i, s.seq)] } i :=
  { extends_setReq s i req with
    issued := fun j x hx => List.mem_append_left _ hx
    issuedOther := by
      intro j x hne hx
      rcases List.mem_append.mp hx with hx | hx
      · exact hx
      · cases List.mem_singleton.mp hx
        exact absurd rfl hne }

theorem extends_enter (hnone : s.entered i = none) (hnew : i ∉ entries s.msgTable) :
    Extends s { s with
      msgTable := Uthash.hashAdd s.msgTable i
      entered := Function.update s.entered i (some ⟨s.received, s.handled⟩) } i := by
  have hother : ∀ j, s.entered j ≠ none → j ≠ i := by
    intro j hj heq
    exact hj (heq ▸ hnone)
  refine { extends_refl s i with
    entered := fun j hj => Function.update_of_ne (hother j hj) ..
    table := fun j hj => ?_
    enteredOther := fun j hne => Function.update_of_ne hne .. }
  simp [Uthash.entries_hashAdd _ _ hnew, hother j hj]

theorem Sound.stepCall (h : Sound env s ps sl) {pc : CallPc} (hp : ps (some i) = .call i pc)
    (hsl : sl (some i) = none) (hq : (processRequest env s i pc).next? = some q)
    (hsleeps : Sleeps (some i) sl sl' (processRequest env s i pc)) :
    Sound env ((processRequest env s i pc).after s) (Function.update ps (some i) q) sl' := by
  have hstage := h.call_fine hp
  have hmove : ∀ {pc' : CallPc}, pc'.stage.Fine env s i → (pc'.Past → pc.Past) →
      Sound env s (Function.update ps (some i) (.call i pc')) sl :=
    fun hfine hpast => h.call hp hsl h.recorded (extends_refl s i) hfine hpast
  cases pc with
  | returned rc | failed rc => cases hq
  | unlockFailed rc => exact hstage.elim
  | malloc =>
      cases hm : env.malloc i with
      | none =>
          simp only [processRequest, hm] at hq hsleeps ⊢
          cases hq
          cases hsleeps
          exact hmove hstage.1 id
      | some req =>
          simp only [processRequest, hm] at hq hsleeps ⊢
          cases hq
          cases hsleeps
          exact h.call hp hsl (h.recorded.setReq i _) (extends_setReq s i _)
            ⟨hstage.1, hstage.2, req, Function.update_self ..⟩ id
  | checkType =>
      cases hq
      cases hsleeps
      split
      · exact hmove hstage.1 id
      · exact hmove hstage id
  | newSeq =>
      obtain ⟨hnone, hfresh, req, hreq⟩ := hstage
      simp only [processRequest, deref_of_eq hreq] at hq hsleeps ⊢
      cases hq
      cases hsleeps
      exact h.call hp hsl (h.recorded.issue hfresh _) (extends_issue s i _)
        ⟨hnone, _, Function.update_self .., List.mem_append_right _ (List.mem_singleton_self _)⟩ id
  | fill =>
      obtain ⟨hnone, req, hreq, hseq⟩ := hstage
      simp only [processRequest, deref_of_eq hreq] at hq hsleeps ⊢
      cases hq
      cases hsleeps
      exact h.call hp hsl (h.recorded.setReq i _) (extends_setReq s i _)
        ⟨hnone, _, Function.update_self .., hseq, rfl, rfl⟩ id
  | memset =>
      obtain ⟨hnone, req, hreq, hseq, hlength, hdata⟩ := hstage
      simp only [processRequest, deref_of_eq hreq] at hq hsleeps ⊢
      cases hq
      cases hsleeps
      by_cases htype : req.type = typeRead
      · simp only [if_pos htype, Op.after]
        refine h.call hp hsl ?_ { extends_refl s i with }
          ⟨hnone, req, hreq, hseq, hlength, hdata⟩ id
        refine h.recorded.keep rfl rfl rfl rfl rfl le_rfl le_rfl h.recorded.ahead fun j hj => ?_
        apply Function.update_of_ne
        intro heq
        rw [heq, hdata] at hj
        exact hj hnone
      · simp only [if_neg htype, Op.after]
        exact hmove ⟨hnone, req, hreq, hseq, hlength, hdata⟩ id
  | condInit | mutexInit =>
      cases hq
      cases hsleeps
      split
      · exact hmove hstage.1 id
      · exact hmove hstage id
  | lockConn | unlockConn | lockReq =>
      cases hq
      cases hsleeps
      exact hmove hstage id
  | add =>
      obtain ⟨hnone, hfilled⟩ := hstage
      simp only [processRequest, if_pos h.alive] at hq hsleeps ⊢
      cases hq
      cases hsleeps
      have hnew : i ∉ entries s.msgTable := fun hi => (h.recorded.table i hi).1 hnone
      refine h.call hp hsl (h.recorded.enter hnone) (extends_enter hnone hnew) ⟨?_, hfilled⟩ id
      simp only [Op.after, Function.update_self]
      exact Option.some_ne_none _
  | send =>
      obtain ⟨hentered, req, hreq, hrest⟩ := hstage
      have hsent : ¬ sendRequest req < 0 := Int.lt_irrefl 0
      simp only [processRequest, deref_of_eq hreq, if_neg hsent] at hq hsleeps ⊢
      cases hq
      cases hsleeps
      exact hmove ⟨hentered, req, hreq, hrest⟩ id
  | wait rc =>
      cases hq
      cases hsleeps
      exact h.sleep hp
  | unlockReq rc =>
      cases hq
      cases hsleeps
      exact hmove hstage id
  | free rc =>
      cases hq
      cases hsleeps
      exact h.call hp hsl (h.recorded.setReq i _) (extends_setReq s i _) hstage.1 id
  | freeFailed rc =>
      cases hq
      cases hsleeps
      exact h.call hp hsl (h.recorded.setReq i _) (extends_setReq s i _) hstage id

/-! ## `response_process` -/

theorem hashFind_some {key : BitVec 32} (h : hashFind s key = some i) :
    i ∈ entries s.msgTable ∧ ∃ req, s.reqs i = some req ∧ req.seq = key := by
  obtain ⟨hmem, hkey⟩ := Uthash.hashFind_some _ _ _ _ h
  obtain ⟨req, hreq, hseq⟩ := Option.map_eq_some_iff.mp hkey
  exact ⟨hmem, req, hreq, hseq⟩

/-- A request that the lookup finds waits for the message. -/
theorem Sound.matches (h : Sound env s ps sl) {resp : Response}
    (hhold : Holding env s k resp) (hhandled : s.handled = k) (htype : resp.type = typeResponse)
    (hfind : hashFind s resp.seq = some i) : Matches env s i k := by
  obtain ⟨hmem, req, hreq, hseq⟩ := hashFind_some hfind
  obtain ⟨hne, hopen⟩ := h.recorded.table i hmem
  obtain ⟨req', hreq', hissued, -⟩ := h.filled hne (.inl hopen)
  obtain ⟨e, he⟩ := Option.ne_none_iff_exists'.mp hne
  obtain ⟨hle, hnear⟩ := h.recorded.entered i e he
  rw [hreq, Option.some.injEq] at hreq'
  rw [← hreq', hseq] at hissued
  rw [hhold.resp] at htype hissued
  have hreceived := hhold.received
  exact ⟨htype, hissued, ⟨e, he, by omega, by omega⟩, by omega⟩

/-- The message `k` has been looked up. -/
theorem Sound.handled (h : Sound env s ps sl) {resp : Response}
    (hhold : Holding env s k resp) (hhandled : s.handled = k) :
    Recorded env { s with handled := k + 1 } ∧ Idle { s with handled := k + 1 } := by
  have hreceived := hhold.received
  constructor
  · refine h.recorded.keep rfl rfl rfl rfl rfl ?_ le_rfl ?_ fun _ _ => rfl
    · simp only
      omega
    · simp only
      omega
  · refine ⟨hreceived.symm, ?_⟩
    intro j m hm
    exact Nat.lt_succ_of_lt (hhold.below j m hm)

/-- A message of the right type is looked up. -/
theorem Sound.stepFind (h : Sound env s ps sl) {resp : Response}
    (hfine : ResponsePc.Fine env s (.find k resp))
    (hq : (responseProcess env s (.find k resp)).next? = some q)
    (hsleeps : Sleeps none sl sl' (responseProcess env s (.find k resp))) :
    Sound env ((responseProcess env s (.find k resp)).after s) (Function.update ps none q) sl' := by
  obtain ⟨hhold, hhandled, htype⟩ := hfine
  obtain ⟨hrecorded, hidle⟩ := h.handled hhold hhandled
  simp only [responseProcess, if_pos h.alive] at hq hsleeps ⊢
  cases hq
  cases hsleeps
  cases hfind : hashFind s resp.seq with
  | none => exact h.handle hrecorded rfl rfl rfl (fun _ => id) hidle (fun _ => nofun)
  | some i =>
      have hmatch := h.matches hhold hhandled htype hfind
      have hmem := (hashFind_some hfind).1
      refine h.handle hrecorded rfl rfl rfl (fun _ => id)
        ⟨⟨hhold.resp, hhold.received, hhold.below⟩, rfl, hmatch.of_le (fun _ => id) rfl le_rfl,
          hmem⟩ ?_
      intro j hj
      cases hj
      exact .inr hmem

/-- The message is copied into the buffer of the request. -/
theorem Sound.stepCopy (h : Sound env s ps sl) {resp : Response}
    (hp : ps none = .response (.copy k resp i))
    (hfine : ResponsePc.Fine env s (.copy k resp i))
    (hq : (responseProcess env s (.copy k resp i)).next? = some q)
    (hsleeps : Sleeps none sl sl' (responseProcess env s (.copy k resp i))) :
    Sound env ((responseProcess env s (.copy k resp i)).after s)
      (Function.update ps none q) sl' := by
  obtain ⟨hhold, hhandled, hmatch, hmem, hopen⟩ := hfine
  obtain ⟨req, hreq, -, hlength, hdata⟩ :=
    h.filled hmatch.ne_none (.inr (by rw [hp]; rfl))
  have hreceived := hhold.received
  have hrecorded := h.recorded.complete hmatch hmem hopen hhold.below
  simp only [responseProcess, deref_of_eq hreq, hlength, hdata, hhold.resp] at hq hsleeps ⊢
  cases hq
  cases hsleeps
  refine h.handle hrecorded rfl rfl rfl ?_ ⟨⟨by simp only [Op.after]; omega, ?_⟩, ?_⟩ ?_
  · intro j hj
    obtain ⟨m, hm⟩ := hj
    exact ⟨m, List.mem_append_left _ hm⟩
  · intro j m hm
    rcases List.mem_append.mp hm with hm | hm
    · have hlt := hhold.below j m hm
      simp only [Op.after]
      omega
    · cases List.mem_singleton.mp hm
      simp only [Op.after]
      omega
  · exact ⟨k, List.mem_append_right _ (List.mem_singleton_self _)⟩
  · intro j hj
    cases hj
    exact .inl (by rw [hp]; rfl)

/-- The call is woken, if it sleeps already. -/
theorem Sound.stepSignal (h : Sound env s ps sl)
    (hp : ps none = .response (.signal i)) (hfine : ResponsePc.Fine env s (.signal i))
    (hq : (responseProcess env s (.signal i)).next? = some q)
    (hsleeps : Sleeps none sl sl' (responseProcess env s (.signal i))) :
    Sound env ((responseProcess env s (.signal i)).after s) (Function.update ps none q) sl' := by
  obtain ⟨hidle, hcompleted⟩ := hfine
  obtain ⟨k, hmatch⟩ := hcompleted.matches h.recorded
  obtain ⟨req, hreq, -⟩ := h.filled hmatch.ne_none (.inr (by rw [hp]; rfl))
  simp only [responseProcess, deref_of_eq hreq] at hq hsleeps ⊢
  cases hq
  rcases hsleeps with rfl | ⟨t, ht, rfl⟩
  · exact h.handle h.recorded rfl rfl rfl (fun _ => id) hidle (fun _ => nofun)
  · obtain ⟨rfl, -⟩ := h.asleep t i ht
    refine h.respond h.recorded rfl rfl rfl (fun _ => id) hidle (fun _ => nofun) ?_ ?_
    · intro u j hu
      by_cases hui : u = some i
      · subst hui
        rw [Function.update_self] at hu
        cases hu
      · rwa [Function.update_of_ne hui] at hu
    · intro j hnone hsome
      by_cases hji : j = i
      · subst hji
        exact ⟨hcompleted, nofun⟩
      · rw [Function.update_of_ne fun heq => hji (Option.some.inj heq)] at hnone
        exact absurd hnone hsome

theorem Sound.stepResponse (h : Sound env s ps sl) {pc : ResponsePc n}
    (hp : ps none = .response pc) (hq : (responseProcess env s pc).next? = some q)
    (hsleeps : Sleeps none sl sl' (responseProcess env s pc)) :
    Sound env ((responseProcess env s pc).after s) (Function.update ps none q) sl' := by
  have hfine := h.response_fine hp
  cases pc with
  | exited => cases hq
  | malloc =>
      cases hq
      cases hsleeps
      split
      · exact h.handle h.recorded rfl rfl rfl (fun _ => id) hfine (fun _ => nofun)
      · exact h.handle h.recorded rfl rfl rfl (fun _ => id) trivial (fun _ => nofun)
  | receive =>
      have hhandled := hfine.handled
      by_cases hret : (env.receive s.received).1 = 0
      · simp only [responseProcess, if_pos hret] at hq hsleeps ⊢
        cases hq
        cases hsleeps
        have hrecorded : Recorded env { s with received := s.received + 1 } :=
          h.recorded.keep rfl rfl rfl rfl rfl le_rfl (Nat.le_succ _) (by simp only; omega)
            fun _ _ => rfl
        refine h.handle hrecorded rfl rfl rfl (fun _ => id) ⟨⟨rfl, rfl, ?_⟩, hhandled⟩
          (fun _ => nofun)
        intro j m hm
        exact hhandled ▸ hfine.below j m hm
      · simp only [responseProcess, if_neg hret] at hq hsleeps ⊢
        cases hq
        cases hsleeps
        exact h.handle h.recorded rfl rfl rfl (fun _ => id) trivial (fun _ => nofun)
  | checkType k resp =>
      obtain ⟨hhold, hhandled⟩ := hfine
      by_cases htype : resp.type = typeResponse
      · have hnot : ¬ resp.type ≠ typeResponse := not_not_intro htype
        simp only [responseProcess, if_neg hnot] at hq hsleeps ⊢
        cases hq
        cases hsleeps
        exact h.handle h.recorded rfl rfl rfl (fun _ => id) ⟨hhold, hhandled, htype⟩
          (fun _ => nofun)
      · simp only [responseProcess, ne_eq, htype, not_false_eq_true, if_true] at hq hsleeps ⊢
        cases hq
        cases hsleeps
        obtain ⟨hrecorded, hidle⟩ := h.handled hhold hhandled
        exact h.handle hrecorded rfl rfl rfl (fun _ => id) hidle (fun _ => nofun)
  | find k resp => exact h.stepFind hfine hq hsleeps
  | del k resp i =>
      obtain ⟨hhold, hhandled, hmatch, hmem⟩ := hfine
      simp only [responseProcess, if_pos h.alive] at hq hsleeps ⊢
      cases hq
      cases hsleeps
      have hgone : i ∉ entries (Uthash.hashDel s.msgTable i) := by
        rw [Uthash.entries_hashDel _ _ hmem]
        exact Finset.notMem_erase i _
      refine h.handle (h.recorded.remove hmem) rfl rfl rfl (fun _ => id)
        ⟨⟨hhold.resp, hhold.received, hhold.below⟩, hhandled,
          hmatch.of_le (fun _ => id) rfl le_rfl, hgone, (h.recorded.table i hmem).2⟩ ?_
      intro j hj
      cases hj
      exact .inr hmem
  | copy k resp i => exact h.stepCopy hp hfine hq hsleeps
  | signal i => exact h.stepSignal hp hfine hq hsleeps

/-! ## Runs -/

theorem Sound.step (h : Sound env s ps sl) {t : Tid n} (hsl : sl t = none)
    (hq : (code env s (ps t)).next? = some q) (hsleeps : Sleeps t sl sl' (code env s (ps t))) :
    Sound env ((code env s (ps t)).after s) (Function.update ps t q) sl' := by
  have hfine := h.fine t
  cases t with
  | none =>
      cases hp : ps none <;> rw [hp] at hfine hq hsleeps
      case response pc => exact h.stepResponse hp hq hsleeps
      all_goals exact hfine.elim
  | some i =>
      cases hp : ps (some i) <;> rw [hp] at hfine hq hsleeps
      case call j pc =>
        obtain rfl : j = i := hfine.1
        exact h.stepCall hp hsl hq hsleeps
      all_goals exact hfine.elim

theorem sound_of_reachable {c : Config (Tid n) (Shared n τ) (Point n) (Mutex n) (Fin n)}
    (h : (program env).Reachable c) : Sound env c.shared (points c) (sleepers c) := by
  apply signalled_invariant (P := Sound env) h
  · refine ⟨?_, fun t => ?_, fun i hi => hi.elim, fun t i ht => by cases ht⟩
    · constructor <;> simp [Uthash.entries_empty]
    · cases t with
      | none => exact ⟨rfl, by simp⟩
      | some i => exact ⟨rfl, rfl, by simp⟩
  · intro s ps sl sl' t q hsound hsl hq hsleeps
    exact hsound.step hsl hq hsleeps

/-! ## Result -/

/-- For any number of calls below `2 ^ 32`, any messages and any interleaving: a call that returns
behind its wait has in its buffer what `memcpy` has read behind the data pointer of a response with
its number, which `response_process` has looked up after the request had entered `msg_table`. No
message completes two requests, and no request is completed twice. No thread touches a request that
has been freed. -/
theorem response_matches (hn : n < 2 ^ 32)
    {c : Config (Tid n) (Shared n τ) (Point n) (Mutex n) (Fin n)} (h : (program env).Reachable c) :
    (∀ i rc, points c (some i) = .call i (.returned rc) →
      ∃ k, (i, k) ∈ c.shared.completions ∧ Matches env c.shared i k ∧
        ∀ b < (env.args i).count, c.shared.bufs i b = (env.receive k).2.memory (env.behind k) b) ∧
      (c.shared.completions.map Prod.fst).Nodup ∧ (c.shared.completions.map Prod.snd).Nodup ∧
      (∀ i j x, (i, x) ∈ c.shared.issued → (j, x) ∈ c.shared.issued → i = j) ∧
      ∀ t, points c t ≠ .fault := by
  have hsound := sound_of_reachable h
  have hrecorded := hsound.recorded
  refine ⟨fun i rc hi => ?_, hrecorded.requests, hrecorded.messages,
    fun i j x => hrecorded.unique hn, fun t ht => ?_⟩
  · have hawake : sleepers c (some i) = none := by
      cases hsl : sleepers c (some i) with
      | none => rfl
      | some j =>
          obtain ⟨-, rc', hrc⟩ := hsound.asleep _ _ hsl
          rw [hi] at hrc
          cases hrc
    obtain ⟨⟨k, hk⟩, -⟩ := hsound.awake i (by rw [hi]; trivial) hawake
    exact ⟨k, hk, hrecorded.completed i k hk⟩
  · have hfine := hsound.fine t
    rw [ht] at hfine
    cases t <;> exact hfine

/-- A call that reads four bytes, and messages that all answer the request 0. -/
def oneCall (i : Fin 1) (data : List UInt8) : Env 1 where
  args _ := ⟨4, 0, typeRead⟩
  bufs _ _ := 9
  malloc _ := some ⟨0, 0, 0, 0, i⟩
  condInit _ := 0
  mutexInit _ := 0
  respMalloc := true
  receive _ := (0, ⟨0, typeResponse, 0, data⟩)
  behind _ _ := 7

end PthreadBenchmark.LonghornRpc
