import PthreadBenchmark.LonghornRpc.Failing.Correctness

/-! # Responses that are too short or too early

`response_process` copies as many bytes as the request asks for, however short the response is, and
it may have received the message that it looks up before the request entered `msg_table`. -/

namespace PthreadBenchmark.LonghornRpc

open Pthread

open Uthash (entries)

variable {n : ℕ} {τ : Type} {env : Env n} {s s' : Shared n τ} {i j : Fin n} {k : ℕ}

/-! ## What a call gets -/

/-- The first `DataLength` bytes of the buffer of a call. -/
def buffer (env : Env n) (s : Shared n τ) (i : Fin n) : List UInt8 :=
  (List.range (env.args i).count).map (s.bufs i)

/-- The message `k` is a response to the request of the call `i` and received behind its entry into
`msg_table`, and the buffer has its first bytes. -/
structure Answers (env : Env n) (s : Shared n τ) (i : Fin n) (k : ℕ) : Prop where
  type : (env.receive k).2.type = typeResponse
  seq : (i, (env.receive k).2.seq) ∈ s.issued
  entered : ∃ e, s.entered i = some e ∧ e.received ≤ k
  received : k < s.received
  bytes : buffer env s i = (env.receive k).2.data.take (env.args i).count

/-- A call that has returned behind its wait has its answer. No message completes two requests, and
no request is completed twice. -/
structure Right (env : Env n) (c : Config (Tid n) (Shared n τ) (Point n) (Mutex n) (Fin n)) :
    Prop where
  answered : ∀ i rc, points c (some i) = .call i (.returned rc) →
    ∃ k, (i, k) ∈ c.shared.completions ∧ Answers env c.shared i k
  requests : (c.shared.completions.map Prod.fst).Nodup
  messages : (c.shared.completions.map Prod.snd).Nodup

/-- What `memcpy` reads from a message that is long enough is the message's. -/
theorem buffer_eq_take {resp : Response} {behind : Bytes}
    (hbytes : ∀ b < (env.args i).count, s.bufs i b = resp.memory behind b)
    (hlong : (env.args i).count ≤ resp.dataLength) :
    buffer env s i = resp.data.take (env.args i).count := by
  rw [Response.dataLength] at hlong
  apply List.ext_getElem
  · simp [buffer, hlong]
  · intro b hb hb'
    have hcount : b < (env.args i).count := by simpa [buffer] using hb
    simp [buffer, hbytes b hcount, Response.memory, hcount.trans_le hlong]

theorem Answers.long (h : Answers env s i k) :
    (env.args i).count ≤ (env.receive k).2.dataLength := by
  have hlength := congrArg List.length h.bytes
  rw [buffer, List.length_map, List.length_range, List.length_take] at hlength
  exact min_eq_left_iff.mp hlength.symm

/-! ## The condition -/

/-- The number of the response that `response_process` has received, and not yet looked up. -/
def Point.pending : Point n → Option (BitVec 32)
  | .response (.checkType _ resp) | .response (.find _ resp) =>
    if resp.type = typeResponse then some resp.seq else none
  | _ => none

def FittingAt (s : Shared n τ) (ps : Tid n → Point n) : Point n → Prop
  | .call i .add => ∀ req ∈ s.reqs i, (ps none).pending ≠ some req.seq
  | .response (.copy _ resp i) => ∀ req ∈ s.reqs i, req.dataLength ≤ resp.dataLength
  | _ => True

instance (s : Shared n τ) (ps : Tid n → Point n) (p : Point n) : Decidable (FittingAt s ps p) :=
  match p with
  | .call i .add =>
    inferInstanceAs (Decidable (∀ req ∈ s.reqs i, (ps none).pending ≠ some req.seq))
  | .response (.copy _ resp i) =>
    inferInstanceAs (Decidable (∀ req ∈ s.reqs i, req.dataLength ≤ resp.dataLength))
  | .call _ .malloc | .call _ .checkType | .call _ .newSeq | .call _ .fill | .call _ .memset
  | .call _ .condInit | .call _ .mutexInit | .call _ .lockConn | .call _ .unlockConn
  | .call _ .lockReq | .call _ .send | .call _ (.wait _) | .call _ (.unlockReq _)
  | .call _ (.free _) | .call _ (.returned _) | .call _ (.unlockFailed _)
  | .call _ (.freeFailed _) | .call _ (.failed _) | .response .malloc | .response .receive
  | .response (.checkType _ _) | .response (.find _ _) | .response (.del _ _ _)
  | .response (.signal _) | .response .exited | .fault => isTrue trivial

/-- A response is copied only if it is as long as its request asks for, and a request enters
`msg_table` only while no response to it waits for the lookup. -/
def Fitting (s : Shared n τ) (ps : Tid n → Point n) (t : Tid n) : Prop := FittingAt s ps (ps t)

instance (s : Shared n τ) (ps : Tid n → Point n) (t : Tid n) : Decidable (Fitting s ps t) :=
  inferInstanceAs (Decidable (FittingAt s ps (ps t)))

/-- The request whose response is looked up, and not yet copied. -/
def Point.taken : Point n → Option (Fin n)
  | .response (.del _ _ i) | .response (.copy _ _ i) => some i
  | _ => none

/-- What holds of the history in the runs that meet the condition. -/
structure Served (env : Env n) (s : Shared n τ) (ps : Tid n → Point n) : Prop where
  entered : ∀ i e, s.entered i = some e → e.received ≤ s.received
  pending : ∀ x, (ps none).pending = some x → ∀ i, (i, x) ∈ s.issued →
    ∀ e, s.entered i = some e → e.received < s.received
  taken : ∀ i, (ps none).taken = some i → ∀ e, s.entered i = some e → e.received < s.received
  completed : ∀ i k, (i, k) ∈ s.completions →
    (env.args i).count ≤ (env.receive k).2.dataLength ∧
      ∀ e, s.entered i = some e → e.received ≤ k

variable [Uthash n τ] {ps : Tid n → Point n} {sl sl' : Tid n → Option (Fin n)} {q : Point n}
  {pc : CallPc} {c c' : Config (Tid n) (Shared n τ) (Point n) (Mutex n) (Fin n)}

/-! ## Steps -/

/-- What a step of a call does to the history. -/
structure CallEffect (s s' : Shared n τ) (i : Fin n) (pc : CallPc) : Prop where
  received : s'.received = s.received
  completions : s'.completions = s.completions
  issued : ∀ j x, (j, x) ∈ s'.issued → (j, x) ∈ s.issued ∨ j = i ∧ pc = .newSeq
  entered : ∀ j e, s'.entered j = some e →
    s.entered j = some e ∨ j = i ∧ pc = .add ∧ e.received = s.received

omit [Uthash n τ] in
theorem callEffect_of_eq (hreceived : s'.received = s.received)
    (hcompletions : s'.completions = s.completions) (hissued : s'.issued = s.issued)
    (hentered : s'.entered = s.entered) : CallEffect s s' i pc where
  received := hreceived
  completions := hcompletions
  issued _ _ hx := .inl (hissued ▸ hx)
  entered _ _ he := .inl (hentered ▸ he)

theorem callEffect (env : Env n) (s : Shared n τ) (i : Fin n) (pc : CallPc) :
    CallEffect s ((processRequest env s i pc).after s) i pc := by
  cases pc with
  | newSeq =>
      cases hreq : s.reqs i with
      | none =>
          simp only [processRequest, deref, hreq]
          exact callEffect_of_eq rfl rfl rfl rfl
      | some req =>
          simp only [processRequest, deref, hreq]
          refine ⟨rfl, rfl, fun j x hx => ?_, fun j e he => .inl he⟩
          rcases List.mem_append.mp hx with hx | hx
          · exact .inl hx
          · cases List.mem_singleton.mp hx
            exact .inr ⟨rfl, rfl⟩
  | add =>
      simp only [processRequest]
      split
      · refine ⟨rfl, rfl, fun j x hx => .inl hx, fun j e he => ?_⟩
        by_cases hji : j = i
        · subst hji
          simp only [Op.after, Function.update_self, Option.some.injEq] at he
          exact .inr ⟨rfl, rfl, he ▸ rfl⟩
        · simp only [Op.after, Function.update_of_ne hji] at he
          exact .inl he
      · exact callEffect_of_eq rfl rfl rfl rfl
  | malloc =>
      simp only [processRequest]
      split <;> exact callEffect_of_eq rfl rfl rfl rfl
  | fill | memset | send =>
      cases hreq : s.reqs i <;> simp only [processRequest, deref, hreq, Op.after]
      · exact callEffect_of_eq rfl rfl rfl rfl
      · first
        | exact callEffect_of_eq rfl rfl rfl rfl
        | (split <;> exact callEffect_of_eq rfl rfl rfl rfl)
  | _ => exact callEffect_of_eq rfl rfl rfl rfl

/-- The request of a response that is not copied yet is in `msg_table`, or has just left it. -/
theorem Sound.matches_of_taken (h : Sound env s ps sl) (hi : (ps none).taken = some i) :
    ∃ k, Matches env s i k := by
  have hfine := h.fine none
  cases hp : ps none <;> rw [hp] at hfine hi
  case response r =>
    cases r <;> cases hi
    case del k resp => exact ⟨k, hfine.2.2.1⟩
    case copy k resp => exact ⟨k, hfine.2.2.1⟩
  all_goals cases hi

/-- A call has one number. -/
theorem Recorded.seq_unique (h : Recorded env s) {x y : BitVec 32} (hx : (i, x) ∈ s.issued)
    (hy : (i, y) ∈ s.issued) : x = y :=
  congrArg Prod.snd (List.inj_on_of_nodup_map h.callers hx hy rfl)

theorem Served.stepCall (h : Served env s ps) (hsound : Sound env s ps sl)
    (hp : ps (some i) = .call i pc) (hfit : FittingAt s ps (.call i pc)) :
    Served env ((processRequest env s i pc).after s) (Function.update ps (some i) q) := by
  have hnone : Function.update ps (some i) q none = ps none :=
    Function.update_of_ne (Option.some_ne_none i).symm ..
  have hstage := hsound.call_fine hp
  obtain ⟨hreceived, hcompletions, hissued, hentered⟩ := callEffect env s i pc
  -- only a request that is not in `msg_table` enters it
  have hadds : pc = .add → s.entered i = none := by
    rintro rfl
    exact hstage.1
  refine ⟨fun j e he => ?_, fun x hx j hj e he => ?_, fun j hj e he => ?_, fun j k hk => ?_⟩
  · rw [hreceived]
    rcases hentered j e he with he | ⟨-, -, he⟩
    · exact h.entered j e he
    · exact he.le
  · rw [hnone] at hx
    rw [hreceived]
    rcases hissued j x hj with hold | ⟨rfl, rfl⟩
    · rcases hentered j e he with he | ⟨rfl, rfl, -⟩
      · exact h.pending x hx j hold e he
      · obtain ⟨-, req, hreq, hseq, -⟩ := hstage
        rw [hsound.recorded.seq_unique hold hseq] at hx
        exact absurd hx (hfit req hreq)
    · rcases hentered j e he with he | ⟨-, hadd, -⟩
      · rw [hstage.1] at he
        cases he
      · cases hadd
  · rw [hnone] at hj
    rw [hreceived]
    rcases hentered j e he with he | ⟨rfl, hadd, -⟩
    · exact h.taken j hj e he
    · obtain ⟨k, hmatch⟩ := hsound.matches_of_taken hj
      exact absurd (hadds hadd) hmatch.ne_none
  · rw [hcompletions] at hk
    obtain ⟨hlong, hearlier⟩ := h.completed j k hk
    refine ⟨hlong, fun e he => ?_⟩
    rcases hentered j e he with he | ⟨rfl, hadd, -⟩
    · exact hearlier e he
    · exact absurd (hadds hadd) (hsound.recorded.completed j k hk).1.ne_none

omit [Uthash n τ] in
/-- A step of `response_process` that copies nothing. -/
theorem Served.handle {r' : ResponsePc n} (h : Served env s ps) (hissued : s'.issued = s.issued)
    (hentered : s'.entered = s.entered) (hcompletions : s'.completions = s.completions)
    (hreceived : s.received ≤ s'.received)
    (hpending : ∀ x, (Point.response r').pending = some x →
      (ps none).pending = some x ∨ s.received < s'.received)
    (htaken : ∀ i, (Point.response r').taken = some i →
      (ps none).taken = some i ∨ ∃ x, (ps none).pending = some x ∧ (i, x) ∈ s.issued) :
    Served env s' (Function.update ps none (.response r')) := by
  refine ⟨fun i e he => ?_, fun x hx i hi e he => ?_, fun i hi e he => ?_, fun i k hk => ?_⟩
  · rw [hentered] at he
    exact (h.entered i e he).trans hreceived
  · rw [Function.update_self] at hx
    rw [hissued] at hi
    rw [hentered] at he
    rcases hpending x hx with hx | hlt
    · exact (h.pending x hx i hi e he).trans_le hreceived
    · exact (h.entered i e he).trans_lt hlt
  · rw [Function.update_self] at hi
    rw [hentered] at he
    rcases htaken i hi with hi | ⟨x, hx, hseq⟩
    · exact (h.taken i hi e he).trans_le hreceived
    · exact (h.pending x hx i hseq e he).trans_le hreceived
  · rw [hcompletions] at hk
    rw [hentered]
    exact h.completed i k hk

omit [Uthash n τ] in
/-- A step of `response_process` to where no response waits and no request is taken. -/
theorem Served.handle_idle {r' : ResponsePc n} (h : Served env s ps)
    (hissued : s'.issued = s.issued) (hentered : s'.entered = s.entered)
    (hcompletions : s'.completions = s.completions) (hreceived : s.received ≤ s'.received)
    (hpending : (Point.response r').pending = none) (htaken : (Point.response r').taken = none) :
    Served env s' (Function.update ps none (.response r')) := by
  refine h.handle hissued hentered hcompletions hreceived (fun x hx => ?_) fun i hi => ?_
  · rw [hpending] at hx
    cases hx
  · rw [htaken] at hi
    cases hi

theorem Served.stepResponse {r : ResponsePc n} (h : Served env s ps)
    (hsound : Sound env s ps sl) (hp : ps none = .response r)
    (hfit : FittingAt s ps (.response r)) (hq : (responseProcess env s r).next? = some q) :
    Served env ((responseProcess env s r).after s) (Function.update ps none q) := by
  have hfine := hsound.response_fine hp
  cases r with
  | exited => cases hq
  | malloc =>
      cases hq
      cases env.respMalloc <;> exact h.handle_idle rfl rfl rfl le_rfl rfl rfl
  | receive =>
      simp only [responseProcess] at hq ⊢
      split at hq
      · next hret =>
          cases hq
          simp only [if_pos hret]
          exact h.handle rfl rfl rfl (Nat.le_succ _) (fun _ _ => .inr (Nat.lt_succ_self _))
            fun i hi => by cases hi
      · next hret =>
          cases hq
          simp only [if_neg hret]
          exact h.handle_idle rfl rfl rfl le_rfl rfl rfl
  | checkType k resp =>
      simp only [responseProcess] at hq ⊢
      split at hq
      · next htype =>
          cases hq
          simp only [if_pos htype]
          exact h.handle_idle rfl rfl rfl le_rfl rfl rfl
      · next htype =>
          cases hq
          simp only [if_neg htype]
          refine h.handle rfl rfl rfl le_rfl (fun x hx => .inl ?_) fun i hi => ?_
          · rw [hp]
            exact hx
          · cases hi
  | find k resp =>
      obtain ⟨hhold, hhandled, htype⟩ := hfine
      simp only [responseProcess, if_pos hsound.alive] at hq ⊢
      cases hq
      cases hfind : hashFind s resp.seq with
      | none => exact h.handle_idle rfl rfl rfl le_rfl rfl rfl
      | some i =>
          have hmatch := hsound.matches hhold hhandled htype hfind
          refine h.handle rfl rfl rfl le_rfl (fun x hx => ?_) fun j hj => .inr ⟨resp.seq, ?_, ?_⟩
          · cases hx
          · rw [hp, Point.pending, if_pos htype]
          · cases hj
            rw [hhold.resp]
            exact hmatch.seq
  | del k resp i =>
      simp only [responseProcess, if_pos hsound.alive] at hq ⊢
      cases hq
      refine h.handle rfl rfl rfl le_rfl (fun x hx => ?_) fun j hj => .inl ?_
      · cases hx
      · rw [hp]
        exact hj
  | copy k resp i =>
      obtain ⟨hhold, -, hmatch, -⟩ := hfine
      obtain ⟨req, hreq, -, hlength, -⟩ := hsound.filled hmatch.ne_none (.inr (by rw [hp]; rfl))
      have hlong := hfit req hreq
      rw [hlength, hhold.resp] at hlong
      have hearlier := h.taken i (by rw [hp]; rfl)
      rw [hhold.received] at hearlier
      simp only [responseProcess, deref_of_eq hreq] at hq ⊢
      cases hq
      refine ⟨h.entered, fun x hx => ?_, fun j hj => ?_, fun j m hm => ?_⟩
      · rw [Function.update_self] at hx
        cases hx
      · rw [Function.update_self] at hj
        cases hj
      · rcases List.mem_append.mp hm with hm | hm
        · exact h.completed j m hm
        · cases List.mem_singleton.mp hm
          exact ⟨hlong, fun e he => Nat.le_of_lt_succ (hearlier e he)⟩
  | signal i =>
      obtain ⟨-, hcompleted⟩ := hfine
      obtain ⟨k, hmatch⟩ := hcompleted.matches hsound.recorded
      obtain ⟨req, hreq, -⟩ := hsound.filled hmatch.ne_none (.inr (by rw [hp]; rfl))
      simp only [responseProcess, deref_of_eq hreq] at hq ⊢
      cases hq
      exact h.handle_idle rfl rfl rfl le_rfl rfl rfl

/-! ## Runs -/

/-- The runs that meet the condition. -/
abbrev FittingRun (env : Env n) :
    Config (Tid n) (Shared n τ) (Point n) (Mutex n) (Fin n) → Prop :=
  (program env).ReachableBy (Meets Fitting fun _ _ _ => True)

theorem served_of_fitting (h : FittingRun env c) : Served env c.shared (points c) := by
  apply h.invariant (P := fun c => Served env c.shared (points c))
  · refine ⟨fun i e he => ?_, fun x hx => ?_, fun i hi => ?_, fun i k hk => ?_⟩
    · cases he
    · cases hx
    · cases hi
    · exact absurd hk List.not_mem_nil
  · intro c a c' hreach hserved hmeets hs
    have hsound := sound_of_reachable hreach
    cases a with
    | spurious t => cases hs
    | run t target =>
        have hs : step (code env) c (.run t target) = some c' := hs
        by_cases hrunning : Running (c.threads t)
        · obtain ⟨p, hi⟩ := exists_of_running hrunning
          obtain ⟨q, -, hq, hpoints, hshared, -⟩ := project_of_running hs hi
          have hfit : FittingAt c.shared (points c) (points c t) := hmeets hrunning
          have hfine := hsound.fine t
          rw [hpoints, hshared]
          cases t with
          | none =>
              cases hp : points c none <;> rw [hp] at hfine hq hfit
              case response r => exact hserved.stepResponse hsound hp hfit hq
              all_goals exact hfine.elim
          | some i =>
              cases hp : points c (some i) <;> rw [hp] at hfine hq hfit
              case call j pc =>
                obtain rfl : j = i := hfine.1
                exact hserved.stepCall hsound hp hfit
              all_goals exact hfine.elim
        · obtain ⟨hpoints, hshared, -⟩ := project_of_not_running hs hrunning
          rw [hpoints, hshared]
          exact hserved

/-- A call that has returned has its answer. -/
theorem Served.right (hn : n < 2 ^ 32) (h : (program env).Reachable c)
    (hserved : Served env c.shared (points c)) : Right env c := by
  obtain ⟨hreturned, hrequests, hmessages, -⟩ := response_matches hn h
  refine ⟨fun i rc hi => ?_, hrequests, hmessages⟩
  obtain ⟨k, hk, hmatch, hbytes⟩ := hreturned i rc hi
  obtain ⟨hlong, hearlier⟩ := hserved.completed i k hk
  obtain ⟨e, he, -⟩ := hmatch.entered
  exact ⟨k, hk, hmatch.type, hmatch.seq, ⟨e, he, hearlier e he⟩, hmatch.received,
    buffer_eq_take hbytes hlong⟩

/-! ## The condition is needed -/

/-- The program in which no `send_msg` fails is one of those of `Failing`. -/
theorem answeredRun_of_reachable (h : (program env).Reachable c) :
    Failing.AnsweredRun env (fun _ => 0) c := by
  have hcode : Failing.code env (fun _ => 0) = code env (τ := τ) := by
    funext s p
    exact Failing.code_zero env s p
  induction h with
  | init => exact .init
  | @step c c' a _ hs ih =>
      cases a with
      | spurious t => cases hs
      | run t target =>
          refine ih.step (.run t target) (fun _ => ?_) ?_
          · rw [Failing.Answered]
            cases points c t with
            | call i pc =>
                cases pc with
                | send => exact fun hfails => absurd hfails (Int.lt_irrefl 0)
                | _ => trivial
            | _ => trivial
          · rw [Failing.program, hcode]
            exact hs

theorem schedules : Schedules (program (τ := τ) env) (code env) := schedules_signalledProgram

variable {G : Config (Tid n) (Shared n τ) (Point n) (Mutex n) (Fin n) → Prop}
  {o : Mutex n → Option (Tid n)} {threads : Tid n → Status (Point n) (Mutex n) (Fin n)} {rc : ℤ}

/-- A call that sleeps is signalled and returns. -/
theorem leads_returned {req : Request n} (hreq : s.reqs i = some req)
    (hnone : threads none = .running (.response (.signal i)))
    (hasleep : threads (some i) = .asleep i (.req i) (.call i (.unlockReq rc)))
    (hfree : o (.req i) = none) :
    (program env).Leads
      (fun c => points c (some i) = .call i (.returned rc) ∧ c.shared = s.setReq i none)
      ⟨o, s, threads⟩ := by
  have hsignal : code env s (.response (.signal i)) = .signal i (.response .receive) := by
    simp only [code, responseProcess, deref_of_eq hreq]
  have hfreed : code env s (.call i (.free rc)) =
      .run (s.setReq i none) (.call i (.returned rc)) := rfl
  refine schedules.leads_wake hnone hsignal hasleep ?_
  apply schedules.leads_relock (i := some i) (m := Mutex.req i)
    (q := Point.call i (.unlockReq rc)) _ hfree
  · refine schedules.leads_unlock rfl (Function.update_self ..) ?_
    refine schedules.leads_run hfreed ?_
    exact .here ⟨points_of_running (turn_threads_self ..), rfl⟩
  · rw [turn_threads_of_ne (Option.some_ne_none i), Function.update_self]

/-- A call that has entered `msg_table` falls asleep. -/
theorem leads_asleep (h : (program env).Reachable c)
    (hp : c.threads (some i) = .running (.call i pc)) (hstage : pc.stage = .entered)
    (hpast : ¬ pc.Past)
    (hG : ∀ o rc, o (.req i) = none → (program env).Leads G ⟨o, c.shared,
      Function.update c.threads (some i) (.asleep i (.req i) (.call i (.unlockReq rc)))⟩) :
    (program env).Leads G c := by
  have hsound := sound_of_reachable h
  obtain ⟨howned, hanswered⟩ := Failing.sound_of_answered (answeredRun_of_reachable h)
  have hpoint : points c (some i) = .call i pc := points_of_running hp
  have hentered : c.shared.entered i ≠ none ∧ Filled env c.shared i := by
    have hall := hsound.call_fine hpoint
    rwa [hstage] at hall
  obtain ⟨req, hreq, -⟩ := hentered.2
  have hsent : code env c.shared (.call i .send) = .run c.shared (.call i (.wait 0)) := by
    simp [code, processRequest, deref_of_eq hreq, sendRequest, sendMsg]
  have hfree : ¬ Failing.inside (.call i pc : Point n) (.req i) → c.owner (.req i) = none := by
    intro hout
    cases hown : c.owner (.req i) with
    | none => rfl
    | some t =>
        obtain ⟨rfl, hin⟩ := Failing.eq_of_owner howned hanswered hown
        rw [hpoint] at hin
        exact absurd hin hout
  -- from the end of the way to its start
  have hwait : ∀ o rc, o (.req i) = some (some i) →
      (program env).Leads G (turn o c.shared c.threads (some i) (.call i (.wait rc))) :=
    fun o rc hown => schedules.leads_sleep rfl hown (hG _ rc (Function.update_self ..))
  have hsend : ∀ o, o (.req i) = some (some i) →
      (program env).Leads G (turn o c.shared c.threads (some i) (.call i .send)) :=
    fun o hown => schedules.leads_run hsent (hwait o 0 hown)
  have hlock : ∀ o, o (.req i) = none →
      (program env).Leads G (turn o c.shared c.threads (some i) (.call i .lockReq)) :=
    fun o hnone => schedules.leads_lock rfl hnone (hsend _ (Function.update_self ..))
  have hunlock : ∀ o, o .conn = some (some i) → o (.req i) = none →
      (program env).Leads G (turn o c.shared c.threads (some i) (.call i .unlockConn)) :=
    fun o hown hnone => schedules.leads_unlock rfl hown (hlock _ (by simpa using hnone))
  rw [← turn_self hp]
  cases pc <;> first | exact absurd trivial hpast | (cases hstage; done) | skip
  case unlockConn => exact hunlock _ (howned.owner_of_inside hp trivial) (hfree id)
  case lockReq => exact hlock _ (hfree id)
  case send => exact hsend _ (howned.owner_of_inside hp rfl)
  case wait rc => exact hwait _ rc (howned.owner_of_inside hp rfl)

/-- Who holds the request of a call that has entered `msg_table` finds the call in front of its
wait, or asleep. -/
theorem Sound.waiting_of_held (h : Sound env s ps sl) (hheld : (ps none).held = some i)
    (hentered : s.entered i ≠ none) :
    (∃ pc, ps (some i) = .call i pc ∧ pc.stage = .entered ∧ ¬ pc.Past) ∨
      sl (some i) = some i := by
  have hfine := h.fine (some i)
  have hawake := h.awake i
  cases hp : ps (some i) <;> rw [hp] at hfine
  case call j pc =>
    obtain ⟨rfl, hstage⟩ := hfine
    rw [hp] at hawake
    by_cases hpast : pc.Past
    · cases hsl : sl (some j) with
      | none => exact absurd hheld (hawake hpast hsl).2
      | some j' =>
          obtain ⟨hj, -⟩ := h.asleep _ _ hsl
          exact .inr hj.symm
    · refine .inl ⟨pc, rfl, ?_, hpast⟩
      cases hpc : pc.stage <;> rw [hpc] at hstage
      case freed => cases pc <;> first | exact absurd trivial hpast | cases hpc
      case failed => exact absurd hstage hentered
      case impossible => exact hstage.elim
      all_goals exact absurd hstage.1 hentered
  all_goals exact hfine.elim

/-- A call whose request has been completed returns. -/
theorem leads_signalled (h : (program env).Reachable c)
    (hnone : c.threads none = .running (.response (.signal i))) :
    (program env).Leads (fun c' => ∃ rc, points c' (some i) = .call i (.returned rc) ∧
      c'.shared = c.shared.setReq i none) c := by
  have hsound := sound_of_reachable h
  have hpoint : points c none = .response (.signal i) := points_of_running hnone
  obtain ⟨-, hcompleted⟩ := hsound.response_fine hpoint
  have hheld : (points c none).held = some i := by rw [hpoint]; rfl
  obtain ⟨k, hmatch⟩ := hcompleted.matches hsound.recorded
  obtain ⟨req, hreq, -⟩ := hsound.filled hmatch.ne_none (.inr hheld)
  have hanswered := answeredRun_of_reachable h
  rcases hsound.waiting_of_held hheld hmatch.ne_none with ⟨pc, hp, hstage, hpast⟩ | hsleeps
  · have hi : c.threads (some i) = .running (.call i pc) := by
      refine Failing.running_of_points hanswered.reachable hp ?_
      rintro ⟨j, rc, hrc⟩
      cases hrc
      exact hpast trivial
    refine leads_asleep h hi hstage hpast fun o rc hfree => ?_
    refine (leads_returned hreq ?_ (Function.update_self ..) hfree).imp fun c' hc' => ⟨rc, hc'⟩
    rwa [Function.update_of_ne (Option.some_ne_none i).symm]
  · have hwaits := Failing.waits hanswered.reachable (some i)
    cases hi : c.threads (some i) with
    | asleep cond m q =>
        obtain rfl : cond = i := by
          simp only [sleepers, hi, sleeping] at hsleeps
          exact Option.some.inj hsleeps
        have hfree := Failing.free_of_asleep hanswered hi
        rw [hi] at hwaits
        obtain ⟨rc, rfl, rfl⟩ := hwaits
        exact (leads_returned hreq hnone hi hfree).imp fun c' hc' => ⟨rc, hc'⟩
    | _ => simp [sleepers, hi, sleeping] at hsleeps

omit [Uthash n τ] in
theorem Right.answers_of_mem (h : Right env c) (hi : points c (some i) = .call i (.returned rc))
    (hk : (i, k) ∈ c.shared.completions) : Answers env c.shared i k := by
  obtain ⟨k', hk', hanswers⟩ := h.answered i rc hi
  have hsame := List.inj_on_of_nodup_map h.requests hk hk' rfl
  cases hsame
  exact hanswers

/-- A response that is shorter than its request asks for is copied. -/
theorem leads_of_short {resp : Response} {t : Option (Tid n)} (h : (program env).Reachable c)
    (hnone : c.threads none = .running (.response (.copy k resp i)))
    (hshort : ¬ FittingAt c.shared (points c) (.response (.copy k resp i)))
    (hs : (program env).step c (.run none t) = some c') :
    (program env).Leads (fun c => ¬ Right env c) c' := by
  have hsound := sound_of_reachable h
  have hpoint : points c none = .response (.copy k resp i) := points_of_running hnone
  obtain ⟨hhold, -, hmatch, -⟩ := hsound.response_fine hpoint
  obtain ⟨req, hreq, -, hlength, -⟩ :=
    hsound.filled hmatch.ne_none (.inr (by rw [hpoint]; rfl))
  have hless : resp.dataLength < (env.args i).count := by
    simpa [FittingAt, hreq, hlength] using hshort
  have hreach := h.step _ hs
  have hs : step (code env) c (.run none t) = some c' := hs
  simp only [step, hnone, code, responseProcess, deref_of_eq hreq, exec, Option.some.injEq] at hs
  subst hs
  refine (leads_signalled (i := i) hreach (by simp only [Function.update_self])).imp ?_
  rintro c' ⟨rc, hreturned, hshared⟩ hright
  have hmem : (i, k) ∈ c'.shared.completions := by
    rw [hshared]
    exact List.mem_append_right _ (List.mem_singleton_self _)
  have hlong := (hright.answers_of_mem hreturned hmem).long
  rw [← hhold.resp] at hlong
  omega

/-- The lookup finds the request that has the number of the message. -/
theorem Sound.hashFind_eq (h : Sound env s ps sl) (hn : n < 2 ^ 32) {x : BitVec 32}
    (hmem : i ∈ entries s.msgTable) (hseq : (i, x) ∈ s.issued) : hashFind s x = some i := by
  obtain ⟨hentered, hopen⟩ := h.recorded.table i hmem
  obtain ⟨req, hreq, hissued, -⟩ := h.filled hentered (.inl hopen)
  cases hfind : hashFind s x with
  | none =>
      refine absurd ?_ (Uthash.hashFind_none _ _ _ hfind i hmem)
      rw [hreq, h.recorded.seq_unique hseq hissued]
      rfl
  | some j =>
      obtain ⟨hj, req', hreq', rfl⟩ := hashFind_some hfind
      obtain ⟨hne, hopen'⟩ := h.recorded.table j hj
      obtain ⟨req'', hreq'', hissued', -⟩ := h.filled hne (.inl hopen')
      rw [hreq', Option.some.injEq] at hreq''
      subst hreq''
      rw [h.recorded.unique hn hissued' hseq]

/-- What is known of a response that waits for the lookup. -/
theorem Sound.exists_pending (h : Sound env s ps sl) {x : BitVec 32}
    (hx : (ps none).pending = some x) :
    ∃ k resp, resp.type = typeResponse ∧ resp.seq = x ∧ s.received = k + 1 ∧
      (ps none = .response (.checkType k resp) ∨ ps none = .response (.find k resp)) := by
  have hfine := h.fine none
  cases hp : ps none <;> rw [hp] at hfine hx
  case response r =>
    cases r <;> simp only [Point.pending, Option.ite_none_right_eq_some, reduceCtorEq] at hx
    case checkType k resp =>
      exact ⟨k, resp, hx.1, Option.some.inj hx.2, hfine.1.received, .inl rfl⟩
    case find k resp => exact ⟨k, resp, hx.1, Option.some.inj hx.2, hfine.1.received, .inr rfl⟩
  all_goals cases hx

/-- The message `k` is looked up and copied. -/
theorem leads_lookup {resp : Response} {req : Request n} (hreq : s.reqs i = some req)
    (halive : Alive s) (hfind : hashFind s resp.seq = some i)
    (hG : ∀ bufs, (program env).Leads G (turn o { s with
      handled := k + 1
      msgTable := Uthash.hashDel s.msgTable i
      bufs := bufs
      completions := s.completions ++ [(i, k)] } threads none (.response (.signal i)))) :
    (program env).Leads G (turn o s threads none (.response (.find k resp))) := by
  have hfound : code env s (.response (.find k resp)) =
      .run { s with handled := k + 1 } (.response (.del k resp i)) := by
    simp only [code, responseProcess, if_pos halive, hfind]
  refine schedules.leads_run hfound ?_
  have hdel : ∀ s' : Shared n τ, Alive s' → code env s' (.response (.del k resp i)) =
      .run { s' with msgTable := Uthash.hashDel s'.msgTable i }
        (.response (.copy k resp i)) := fun s' h => if_pos h
  refine schedules.leads_run (hdel _ halive) ?_
  refine schedules.leads_run ?_ (hG (Function.update s.bufs req.data
    (overwrite (s.bufs req.data) (resp.memory (env.behind k)) req.dataLength)))
  simp only [code, responseProcess, deref, hreq]

/-- A call sleeps, and its request is about to be found for a message that had been received before
it entered `msg_table`. -/
theorem leads_of_waiting {resp : Response} {req : Request n} {e : Entry} {p : Point n}
    (hreq : s.reqs i = some req) (halive : Alive s) (hfind : hashFind s resp.seq = some i)
    (htype : resp.type = typeResponse) (he : s.entered i = some e) (hlate : k < e.received)
    (hfree : o (.req i) = none)
    (hasleep : threads (some i) = .asleep i (.req i) (.call i (.unlockReq rc)))
    (hnone : threads none = .running p)
    (hp : p = .response (.checkType k resp) ∨ p = .response (.find k resp)) :
    (program env).Leads (fun c => ¬ Right env c) ⟨o, s, threads⟩ := by
  have hfound : (program env).Leads (fun c => ¬ Right env c)
      (turn o s threads none (.response (.find k resp))) := by
    refine leads_lookup hreq halive hfind fun bufs => ?_
    have hsleeps : (turn o s threads none (.response (.signal i))).threads (some i) =
        .asleep i (.req i) (.call i (.unlockReq rc)) := by
      rw [turn_threads_of_ne (Option.some_ne_none i)]
      exact hasleep
    refine System.Leads.imp (leads_returned (i := i) hreq ?_ hsleeps hfree) ?_
    · rfl
    · rintro c' ⟨hreturned, hshared⟩ hright
      have hmem : (i, k) ∈ c'.shared.completions := by
        rw [hshared]
        exact List.mem_append_right _ (List.mem_singleton_self _)
      obtain ⟨e', he', hle⟩ := (hright.answers_of_mem hreturned hmem).entered
      rw [hshared] at he'
      obtain rfl : e = e' := Option.some.inj (he.symm.trans he')
      omega
  have hself := turn_self (c := ⟨o, s, threads⟩) hnone
  rw [← hself]
  rcases hp with rfl | rfl
  · refine schedules.leads_run ?_ hfound
    simp [code, responseProcess, htype]
  · exact hfound

/-- A request enters `msg_table` while a response to it waits for the lookup. -/
theorem leads_of_early {t : Option (Tid n)} (hn : n < 2 ^ 32) (h : (program env).Reachable c)
    (hi : c.threads (some i) = .running (.call i .add))
    (hearly : ¬ FittingAt c.shared (points c) (.call i .add))
    (hs : (program env).step c (.run (some i) t) = some c') :
    (program env).Leads (fun c => ¬ Right env c) c' := by
  have hsound := sound_of_reachable h
  have hpoint : points c (some i) = .call i .add := points_of_running hi
  obtain ⟨hopen, req, hreq, hissued, -⟩ := hsound.call_fine hpoint
  have hpending : (points c none).pending = some req.seq := by
    simpa [FittingAt, hreq] using hearly
  obtain ⟨k, resp, htype, hseq, hreceived, hwaits⟩ := hsound.exists_pending hpending
  have hnone : c.threads none = .running (points c none) := by
    refine Failing.running_of_points (answeredRun_of_reachable h).reachable rfl ?_
    rintro ⟨j, rc, hrc⟩
    rw [hrc] at hpending
    cases hpending
  have hreach := h.step _ hs
  have hs : step (code env) c (.run (some i) t) = some c' := hs
  simp only [step, hi, code, processRequest, if_pos hsound.alive, exec, Option.some.injEq] at hs
  subst hs
  refine leads_asleep hreach (Function.update_self ..) rfl id fun o rc hfree => ?_
  have hafter := sound_of_reachable hreach
  have hmem : i ∈ entries (Uthash.hashAdd c.shared.msgTable i) := by
    rw [Uthash.entries_hashAdd _ _ fun hi => (hsound.recorded.table i hi).1 hopen]
    exact Finset.mem_insert_self i _
  have hfind := hafter.hashFind_eq hn hmem hissued
  rw [← hseq] at hfind
  refine leads_of_waiting (k := k) hreq hafter.alive hfind htype (Function.update_self ..) ?_ hfree
    (Function.update_self ..) ?_ hwaits
  · simp only [hreceived]
    exact Nat.lt_succ_self k
  · rw [← hnone]
    simp

theorem leads_of_not_meets {a : Action (Tid n)} (hn : n < 2 ^ 32) (h : (program env).Reachable c)
    (hs : (program env).step c a = some c') (hbad : ¬ Meets Fitting (fun _ _ _ => True) c a) :
    (program env).Leads (fun c => ¬ Right env c) c' := by
  have hsound := sound_of_reachable h
  cases a with
  | spurious t => exact absurd trivial hbad
  | run t target =>
      simp only [Meets, Classical.not_imp, Fitting] at hbad
      obtain ⟨hrunning, hlack⟩ := hbad
      obtain ⟨p, hi⟩ := exists_of_running hrunning
      obtain rfl : points c t = p := points_of_running hi
      have hfine := hsound.fine t
      cases hp : points c t with
      | fault =>
          rw [hp] at hlack
          exact absurd trivial hlack
      | response r =>
          rw [hp] at hi hlack hfine
          cases t with
          | some i => exact hfine.elim
          | none =>
              cases r with
              | copy k resp i => exact leads_of_short h hi hlack hs
              | _ => exact absurd trivial hlack
      | call j pc =>
          rw [hp] at hi hlack hfine
          cases t with
          | none => exact hfine.elim
          | some i =>
              obtain rfl : j = i := hfine.1
              cases pc with
              | add => exact leads_of_early hn h hi hlack hs
              | _ => exact absurd trivial hlack

/-- For any number of calls below `2 ^ 32`, any messages and any interleaving: in a run in which
each message that is copied is as long as its request asks for, and no request enters `msg_table`
while a response to it waits for the lookup, each call that returns behind its wait has its answer;
the first step against this leads to a call that returns without. -/
theorem answers_right_until_unfitting (n : ℕ) (hn : n < 2 ^ 32) (τ : Type) [Uthash n τ]
    (env : Env n) (c : Config (Tid n) (Shared n τ) (Point n) (Mutex n) (Fin n))
    (h : FittingRun env c) :
    Right env c ∧ ∀ a c', (program env).step c a = some c' →
      ¬ Meets Fitting (fun _ _ _ => True) c a →
      (program env).Leads (fun c => ¬ Right env c) c' :=
  ⟨(served_of_fitting h).right hn h.reachable,
    fun _ _ hs hbad => leads_of_not_meets hn h.reachable hs hbad⟩

/-- A call goes to sleep, is answered by the first message and returns. -/
def oneSchedule (i : Fin 1) : List (Action (Tid 1)) :=
  List.replicate 13 (Action.run (some i) none) ++ List.replicate 6 (.run none none) ++
    .run none (some (some i)) :: List.replicate 3 (Action.run (some i) none)

/-- The message has six bytes, the call reads four. -/
def longRun (i : Fin 1) :
    Option (Config (Tid 1) (Shared 1 (List (Fin 1))) (Point 1) (Mutex 1) (Fin 1)) :=
  ((program (oneCall i [0, 1, 2, 3, 4, 5])).guarded (Meets Fitting fun _ _ _ => True)).exec
    (program (oneCall i [0, 1, 2, 3, 4, 5])).init (oneSchedule i)

theorem answers_right_long : ∃ c, longRun 0 = some c ∧
    points c (some 0) = .call 0 (.returned 0) ∧ Right (oneCall 0 [0, 1, 2, 3, 4, 5]) c ∧
    buffer (oneCall 0 [0, 1, 2, 3, 4, 5]) c.shared 0 = [0, 1, 2, 3] := by
  have hrun : (longRun 0).isSome = true := by decide
  have hreach := System.ReachableBy.of_exec (Option.some_get hrun).symm
  exact ⟨(longRun 0).get hrun, (Option.some_get hrun).symm, rfl,
    (answers_right_until_unfitting 1 (by decide) _ _ _ hreach).1, rfl⟩

/-- The message has two bytes. -/
def shortRun (i : Fin 1) :
    Option (Config (Tid 1) (Shared 1 (List (Fin 1))) (Point 1) (Mutex 1) (Fin 1)) :=
  (program (oneCall i [0, 1])).exec (program (oneCall i [0, 1])).init (oneSchedule i)

/-- The call returns with two bytes from behind the message. -/
theorem answered_short : ¬ ∀ (n : ℕ), n < 2 ^ 32 → ∀ (env : Env n)
    (c : Config (Tid n) (Shared n (List (Fin n))) (Point n) (Mutex n) (Fin n)),
    (program env).Reachable c → Right env c := by
  intro hright
  have hrun : (shortRun 0).isSome = true := by decide
  have hreach := System.Reachable.init.exec (Option.some_get hrun).symm
  obtain ⟨k, -, hanswers⟩ := (hright 1 (by decide) _ _ hreach).answered 0 0 rfl
  have hlong : 4 ≤ 2 := hanswers.long
  exact absurd hlong (by decide)

end PthreadBenchmark.LonghornRpc
