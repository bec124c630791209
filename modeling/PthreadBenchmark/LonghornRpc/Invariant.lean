import PthreadBenchmark.LonghornRpc.History

/-! # Requests, the table and the message in hand

A request is in `msg_table`, in the hands of `response_process` or completed, and only a
completed one is freed. -/

namespace PthreadBenchmark.LonghornRpc

open Pthread

open Uthash (entries)

variable {n : ℕ} {τ : Type} {env : Env n} {s s' : Shared n τ} {ps : Tid n → Point n}
  {sl : Tid n → Option (Fin n)} {i j : Fin n} {k : ℕ}

/-! ## Threads -/

/-- The request has its sequence number and its buffer. -/
def Filled (env : Env n) (s : Shared n τ) (i : Fin n) : Prop :=
  ∃ req, s.reqs i = some req ∧ (i, req.seq) ∈ s.issued ∧ req.dataLength = (env.args i).count ∧
    req.data = i

/-- How far a call has come. -/
inductive Stage where
  | unmade
  | made
  | issued
  | filled
  | entered
  | freed
  | failed
  | impossible
  deriving DecidableEq, Repr

def CallPc.stage : CallPc → Stage
  | .malloc => .unmade
  | .checkType | .newSeq => .made
  | .fill => .issued
  | .memset | .condInit | .mutexInit | .lockConn | .add => .filled
  | .unlockConn | .lockReq | .send | .wait _ | .unlockReq _ | .free _ => .entered
  | .returned _ => .freed
  | .freeFailed _ | .failed _ => .failed
  | .unlockFailed _ => .impossible

def Stage.Fine (env : Env n) (s : Shared n τ) (i : Fin n) : Stage → Prop
  | .unmade => s.entered i = none ∧ ∀ x, (i, x) ∉ s.issued
  | .made => s.entered i = none ∧ (∀ x, (i, x) ∉ s.issued) ∧ ∃ req, s.reqs i = some req
  | .issued => s.entered i = none ∧ ∃ req, s.reqs i = some req ∧ (i, req.seq) ∈ s.issued
  | .filled => s.entered i = none ∧ Filled env s i
  | .entered => s.entered i ≠ none ∧ Filled env s i
  | .freed => s.entered i ≠ none
  | .failed => s.entered i = none
  | .impossible => False

/-- The points behind the wait. -/
def CallPc.Past : CallPc → Prop
  | .unlockReq _ | .free _ | .returned _ => True
  | _ => False

/-- The message `k` is in `resp`, and no message from it on has been copied. -/
structure Holding (env : Env n) (s : Shared n τ) (k : ℕ) (resp : Response) : Prop where
  resp : resp = (env.receive k).2
  received : s.received = k + 1
  below : ∀ i m, (i, m) ∈ s.completions → m < k

structure Idle (s : Shared n τ) : Prop where
  handled : s.handled = s.received
  below : ∀ i m, (i, m) ∈ s.completions → m < s.handled

variable [Uthash n τ]

def ResponsePc.Fine (env : Env n) (s : Shared n τ) : ResponsePc n → Prop
  | .malloc | .receive => Idle s
  | .checkType k resp => Holding env s k resp ∧ s.handled = k
  | .find k resp => Holding env s k resp ∧ s.handled = k ∧ resp.type = typeResponse
  | .del k resp i =>
    Holding env s k resp ∧ s.handled = k + 1 ∧ Matches env s i k ∧ i ∈ entries s.msgTable
  | .copy k resp i =>
    Holding env s k resp ∧ s.handled = k + 1 ∧ Matches env s i k ∧ i ∉ entries s.msgTable ∧
      ¬ Completed s i
  | .signal i => Idle s ∧ Completed s i
  | .exited => True

/-- The request that `response_process` has taken from the table, or is about to. -/
def Point.held : Point n → Option (Fin n)
  | .response (.del _ _ i) | .response (.copy _ _ i) | .response (.signal i) => some i
  | _ => none

def Point.Past : Point n → Prop
  | .call _ pc => pc.Past
  | _ => False

def Fine (env : Env n) (s : Shared n τ) : Tid n → Point n → Prop
  | some i, .call i' pc => i' = i ∧ pc.stage.Fine env s i
  | none, .response pc => pc.Fine env s
  | _, _ => False

structure Sound (env : Env n) (s : Shared n τ) (ps : Tid n → Point n)
    (sl : Tid n → Option (Fin n)) : Prop where
  recorded : Recorded env s
  fine : ∀ t, Fine env s t (ps t)
  awake : ∀ i, (ps (some i)).Past → sl (some i) = none → Completed s i ∧ (ps none).held ≠ some i
  asleep : ∀ t i, sl t = some i → t = some i ∧ ∃ rc, ps t = .call i (.unlockReq rc)

theorem Sound.call_fine (h : Sound env s ps sl) {pc : CallPc} (hp : ps (some i) = .call i pc) :
    pc.stage.Fine env s i := by
  have hfine := h.fine (some i)
  rw [hp] at hfine
  exact hfine.2

theorem Sound.response_fine (h : Sound env s ps sl) {pc : ResponsePc n}
    (hp : ps none = .response pc) : pc.Fine env s := by
  have hfine := h.fine none
  rwa [hp] at hfine

/-! ## Requests that are in use -/

/-- A request that has entered the table is there until it has been completed and let go. -/
theorem Sound.filled (h : Sound env s ps sl) (hi : s.entered i ≠ none)
    (huse : ¬ Completed s i ∨ (ps none).held = some i) : Filled env s i := by
  have hfine := h.fine (some i)
  have hawake := h.awake i
  have hasleep := h.asleep (some i)
  cases hp : ps (some i) with
  | fault =>
      rw [hp] at hfine
      exact hfine.elim
  | response pc =>
      rw [hp] at hfine
      exact hfine.elim
  | call i' pc =>
      rw [hp] at hfine hawake hasleep
      obtain ⟨rfl, hstage⟩ := hfine
      cases hpc : pc.stage <;> rw [hpc] at hstage
      case entered => exact hstage.2
      case freed =>
        obtain ⟨rc, rfl⟩ : ∃ rc, pc = .returned rc := by
          cases pc <;> first | exact ⟨_, rfl⟩ | cases hpc
        have hsl : sl (some i') = none := by
          cases hsl : sl (some i') with
          | none => rfl
          | some c =>
              obtain ⟨-, rc', hrc⟩ := hasleep c hsl
              cases hrc
        obtain ⟨hcompleted, hheld⟩ := hawake trivial hsl
        exact (huse.elim (fun hnot => hnot hcompleted) hheld).elim
      case impossible => exact hstage.elim
      case failed => exact absurd hstage hi
      all_goals exact absurd hstage.1 hi

theorem Sound.alive (h : Sound env s ps sl) : Alive s := by
  intro i hi
  obtain ⟨hentered, hopen⟩ := h.recorded.table i hi
  obtain ⟨req, hreq, -⟩ := h.filled hentered (.inl hopen)
  rw [hreq]
  rfl

/-! ## Steps of the calls -/

/-- What a step of the call `i` may change. -/
structure Extends (s s' : Shared n τ) (i : Fin n) : Prop where
  received : s'.received = s.received
  handled : s'.handled = s.handled
  completions : s'.completions = s.completions
  issued : ∀ j x, (j, x) ∈ s.issued → (j, x) ∈ s'.issued
  entered : ∀ j, s.entered j ≠ none → s'.entered j = s.entered j
  table : ∀ j, s.entered j ≠ none → (j ∈ entries s'.msgTable ↔ j ∈ entries s.msgTable)
  enteredOther : ∀ j, j ≠ i → s'.entered j = s.entered j
  issuedOther : ∀ j x, j ≠ i → (j, x) ∈ s'.issued → (j, x) ∈ s.issued
  reqs : ∀ j, j ≠ i → s'.reqs j = s.reqs j

theorem extends_refl (s : Shared n τ) (i : Fin n) : Extends s s i where
  received := rfl
  handled := rfl
  completions := rfl
  issued _ _ hx := hx
  entered _ _ := rfl
  table _ _ := Iff.rfl
  enteredOther _ _ := rfl
  issuedOther _ _ _ hx := hx
  reqs _ _ := rfl

theorem Extends.matches (h : Extends s s' i) (hj : Matches env s j k) : Matches env s' j k where
  type := hj.type
  seq := h.issued j _ hj.seq
  entered := by
    rw [h.entered j hj.ne_none]
    exact hj.entered
  received := by
    rw [h.received]
    exact hj.received

theorem Extends.filled (h : Extends s s' i) (hne : j ≠ i) (hj : Filled env s j) :
    Filled env s' j := by
  obtain ⟨req, hreq, hseq, hrest⟩ := hj
  exact ⟨req, (h.reqs j hne).trans hreq, h.issued j _ hseq, hrest⟩

theorem Extends.stage (h : Extends s s' i) (hne : j ≠ i) {stage : Stage}
    (hj : stage.Fine env s j) : stage.Fine env s' j := by
  have hentered := h.enteredOther j hne
  have hfresh : (∀ x, (j, x) ∉ s.issued) → ∀ x, (j, x) ∉ s'.issued :=
    fun hall x hx => hall x (h.issuedOther j x hne hx)
  cases stage with
  | unmade => exact ⟨hentered.trans hj.1, hfresh hj.2⟩
  | made =>
      obtain ⟨hnone, hissued, req, hreq⟩ := hj
      exact ⟨hentered.trans hnone, hfresh hissued, req, (h.reqs j hne).trans hreq⟩
  | issued =>
      obtain ⟨hnone, req, hreq, hseq⟩ := hj
      exact ⟨hentered.trans hnone, req, (h.reqs j hne).trans hreq, h.issued j _ hseq⟩
  | filled => exact ⟨hentered.trans hj.1, h.filled hne hj.2⟩
  | entered => exact ⟨hentered ▸ hj.1, h.filled hne hj.2⟩
  | freed =>
      simp only [Stage.Fine, hentered] at hj ⊢
      exact hj
  | failed => exact hentered.trans hj
  | impossible => exact hj

theorem Extends.response (h : Extends s s' i) {pc : ResponsePc n} (hpc : pc.Fine env s) :
    pc.Fine env s' := by
  have hidle : Idle s → Idle s' := fun hidle =>
    ⟨by rw [h.handled, h.received, hidle.handled], by
      rw [h.handled, h.completions]
      exact hidle.below⟩
  have hholding : ∀ {k resp}, Holding env s k resp → Holding env s' k resp := fun hholding =>
    ⟨hholding.resp, h.received.trans hholding.received, by
      rw [h.completions]
      exact hholding.below⟩
  cases pc with
  | malloc | receive => exact hidle hpc
  | checkType k resp => exact ⟨hholding hpc.1, h.handled.trans hpc.2⟩
  | find k resp => exact ⟨hholding hpc.1, h.handled.trans hpc.2.1, hpc.2.2⟩
  | del k resp j =>
      obtain ⟨hhold, hhandled, hmatch, htable⟩ := hpc
      exact ⟨hholding hhold, h.handled.trans hhandled, h.matches hmatch,
        (h.table j hmatch.ne_none).mpr htable⟩
  | copy k resp j =>
      obtain ⟨hhold, hhandled, hmatch, htable, hopen⟩ := hpc
      refine ⟨hholding hhold, h.handled.trans hhandled, h.matches hmatch,
        fun hj => htable ((h.table j hmatch.ne_none).mp hj), ?_⟩
      rwa [Completed, h.completions]
  | signal j => exact ⟨hidle hpc.1, by rw [Completed, h.completions]; exact hpc.2⟩
  | exited => trivial

/-- A step of a call that does not sleep. -/
theorem Sound.call (h : Sound env s ps sl) {pc pc' : CallPc} (hp : ps (some i) = .call i pc)
    (hsl : sl (some i) = none) (hrecorded : Recorded env s') (hextends : Extends s s' i)
    (hfine : pc'.stage.Fine env s' i) (hpast : pc'.Past → pc.Past) :
    Sound env s' (Function.update ps (some i) (.call i pc')) sl where
  recorded := hrecorded
  fine := by
    apply (Function.forall_update_iff ps fun t p => Fine env s' t p).mpr
    refine ⟨⟨rfl, hfine⟩, fun t ht => ?_⟩
    have hold := h.fine t
    cases t with
    | none =>
        cases hn : ps none <;> rw [hn] at hold
        case response pc => exact hextends.response hold
        all_goals exact hold.elim
    | some j =>
        have hne : j ≠ i := fun heq => ht (congrArg some heq)
        cases hj : ps (some j) <;> rw [hj] at hold
        case call j' pc => exact ⟨hold.1, hextends.stage hne hold.2⟩
        all_goals exact hold.elim
  awake j hj hawake := by
    rw [Function.update_of_ne (Option.some_ne_none i).symm, Completed, hextends.completions]
    by_cases hji : j = i
    · subst hji
      rw [Function.update_self] at hj
      exact h.awake j (by rw [hp]; exact hpast hj) hawake
    · rw [Function.update_of_ne fun heq => hji (Option.some.inj heq)] at hj
      exact h.awake j hj hawake
  asleep t j hj := by
    obtain ⟨ht, rc, hrc⟩ := h.asleep t j hj
    refine ⟨ht, rc, ?_⟩
    rw [Function.update_of_ne _]
    · exact hrc
    · intro heq
      rw [heq, hsl] at hj
      cases hj

/-- A call goes to sleep. -/
theorem Sound.sleep (h : Sound env s ps sl) {rc : ℤ} (hp : ps (some i) = .call i (.wait rc)) :
    Sound env s (Function.update ps (some i) (.call i (.unlockReq rc)))
      (Function.update sl (some i) (some i)) where
  recorded := h.recorded
  fine := by
    apply (Function.forall_update_iff ps fun t p => Fine env s t p).mpr
    refine ⟨?_, fun t _ => h.fine t⟩
    have hold := h.fine (some i)
    rw [hp] at hold
    exact hold
  awake j hj hawake := by
    have hji : some j ≠ some i := by
      intro heq
      rw [heq, Function.update_self] at hawake
      cases hawake
    rw [Function.update_of_ne hji] at hj hawake
    rw [Function.update_of_ne (Option.some_ne_none i).symm]
    exact h.awake j hj hawake
  asleep t j hj := by
    by_cases ht : t = some i
    · subst ht
      rw [Function.update_self] at hj ⊢
      cases hj
      exact ⟨rfl, rc, rfl⟩
    · rw [Function.update_of_ne ht] at hj ⊢
      exact h.asleep t j hj

/-! ## Steps of `response_process` -/

/-- A step of `response_process`, which may wake the call whose request it has held. -/
theorem Sound.respond (h : Sound env s ps sl) {pc' : ResponsePc n}
    {sl' : Tid n → Option (Fin n)} (hrecorded : Recorded env s')
    (hreqs : s'.reqs = s.reqs) (hissued : s'.issued = s.issued) (hentered : s'.entered = s.entered)
    (hcompletions : ∀ i, Completed s i → Completed s' i) (hfine : pc'.Fine env s')
    (hheld : ∀ i, (Point.response pc').held = some i →
      (ps none).held = some i ∨ i ∈ entries s.msgTable)
    (hsleep : ∀ t i, sl' t = some i → sl t = some i)
    (hwake : ∀ i, sl' (some i) = none → sl (some i) ≠ none →
      Completed s' i ∧ (Point.response pc').held ≠ some i) :
    Sound env s' (Function.update ps none (.response pc')) sl' where
  recorded := hrecorded
  fine := by
    apply (Function.forall_update_iff ps fun t p => Fine env s' t p).mpr
    refine ⟨hfine, fun t ht => ?_⟩
    have hold := h.fine t
    cases t with
    | none => exact absurd rfl ht
    | some j =>
        cases hj : ps (some j) <;> rw [hj] at hold
        case call j' pc =>
          refine ⟨hold.1, ?_⟩
          cases hstage : pc.stage <;>
            simpa only [hstage, Stage.Fine, Filled, hreqs, hissued, hentered] using hold.2
        all_goals exact hold.elim
  awake j hj hawake := by
    rw [Function.update_of_ne (Option.some_ne_none j)] at hj
    rw [Function.update_self]
    by_cases hsl : sl (some j) = none
    · obtain ⟨hcompleted, hnot⟩ := h.awake j hj hsl
      refine ⟨hcompletions j hcompleted, fun hheld' => ?_⟩
      rcases hheld j hheld' with hold | htable
      · exact hnot hold
      · exact (h.recorded.table j htable).2 hcompleted
    · exact hwake j hawake hsl
  asleep t j hj := by
    obtain ⟨ht, rc, hrc⟩ := h.asleep t j (hsleep t j hj)
    refine ⟨ht, rc, ?_⟩
    rw [ht, Function.update_of_ne (Option.some_ne_none j), ← ht]
    exact hrc

/-- A step of `response_process` that wakes no call. -/
theorem Sound.handle (h : Sound env s ps sl) {pc' : ResponsePc n} (hrecorded : Recorded env s')
    (hreqs : s'.reqs = s.reqs) (hissued : s'.issued = s.issued) (hentered : s'.entered = s.entered)
    (hcompletions : ∀ i, Completed s i → Completed s' i) (hfine : pc'.Fine env s')
    (hheld : ∀ i, (Point.response pc').held = some i →
      (ps none).held = some i ∨ i ∈ entries s.msgTable) :
    Sound env s' (Function.update ps none (.response pc')) sl := by
  apply h.respond hrecorded hreqs hissued hentered hcompletions hfine hheld (fun _ _ => id)
  intro i hnone hsome
  exact absurd hnone hsome

end PthreadBenchmark.LonghornRpc
