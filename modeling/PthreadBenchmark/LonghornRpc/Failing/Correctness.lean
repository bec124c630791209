import PthreadBenchmark.LonghornRpc.Correctness
import PthreadBenchmark.LonghornRpc.Failing.Model
import PthreadBenchmark.Shared.PthreadConditions
import PthreadBenchmark.Shared.PthreadRuns

/-! # Requests that are freed in the table

A call frees its request behind a failing `send_msg`, and behind its wait whoever has woken it up.
Its entry is removed by `response_process` alone. -/

namespace PthreadBenchmark.LonghornRpc.Failing

open Pthread

open Uthash (entries)

variable {n : ℕ} {τ : Type} [Uthash n τ] {env : Env n} {send : Fin n → ℤ} {s s' : Shared n τ}
  {ps : Tid n → Point n} {sl sl' : Tid n → Option (Fin n)} {i j : Fin n} {t : Tid n}
  {p q : Point n} {pc pc' : CallPc} {rc : ℤ}
  {c c' : Config (Tid n) (Shared n τ) (Point n) (Mutex n) (Fin n)}

/-- The call has returned, and its request is freed. -/
def Returned : Point n → Prop
  | .call _ (.returned _) | .call _ (.failed _) => True
  | _ => False

def Fault : Point n → Prop
  | .fault => True
  | _ => False

/-- The table has only requests of calls that have not returned, and `response_process` has not
touched one that is freed. -/
def Right (c : Config (Tid n) (Shared n τ) (Point n) (Mutex n) (Fin n)) : Prop :=
  (∀ i ∈ entries c.shared.msgTable, ¬ Returned (points c (some i))) ∧ ¬ Fault (points c none)

/-! ## The condition -/

/-- `response_process` has removed the entry of the call, if there was one, and does not use its
request any more. -/
def Apart (s : Shared n τ) (ps : Tid n → Point n) (i : Fin n) : Prop :=
  i ∉ entries s.msgTable ∧ (ps none).held ≠ some i

instance (s : Shared n τ) (ps : Tid n → Point n) (i : Fin n) : Decidable (Apart s ps i) :=
  inferInstanceAs (Decidable (_ ∧ _))

def AnsweredAt (send : Fin n → ℤ) (s : Shared n τ) (ps : Tid n → Point n) : Point n → Prop
  | .call i .send => send i < 0 → Apart s ps i
  | _ => True

instance (send : Fin n → ℤ) (s : Shared n τ) (ps : Tid n → Point n) (p : Point n) :
    Decidable (AnsweredAt send s ps p) :=
  match p with
  | .call i .send => inferInstanceAs (Decidable (send i < 0 → Apart s ps i))
  | .call _ .malloc | .call _ .checkType | .call _ .newSeq | .call _ .fill | .call _ .memset
  | .call _ .condInit | .call _ .mutexInit | .call _ .lockConn | .call _ .add
  | .call _ .unlockConn | .call _ .lockReq | .call _ (.wait _) | .call _ (.unlockReq _)
  | .call _ (.free _) | .call _ (.returned _) | .call _ (.unlockFailed _)
  | .call _ (.freeFailed _) | .call _ (.failed _) | .response _ | .fault => isTrue trivial

/-- A `send_msg` fails only for a request that has been answered. -/
def Answered (send : Fin n → ℤ) (s : Shared n τ) (ps : Tid n → Point n) (t : Tid n) : Prop :=
  AnsweredAt send s ps (ps t)

instance (send : Fin n → ℤ) (s : Shared n τ) (ps : Tid n → Point n) (t : Tid n) :
    Decidable (Answered send s ps t) :=
  inferInstanceAs (Decidable (AnsweredAt send s ps (ps t)))

/-- A call wakes up by itself only when its request has been answered. -/
def Timely (s : Shared n τ) (ps : Tid n → Point n) : Tid n → Prop
  | some i => Apart s ps i
  | none => True

instance (s : Shared n τ) (ps : Tid n → Point n) (t : Tid n) : Decidable (Timely s ps t) :=
  match t with
  | some i => inferInstanceAs (Decidable (Apart s ps i))
  | none => isTrue trivial

/-! ## The mutexes -/

def inside : Point n → Mutex n → Prop
  | .call _ .add, .conn | .call _ .unlockConn, .conn => True
  | .call i .send, .req j | .call i (.wait _), .req j | .call i (.unlockReq _), .req j
  | .call i (.unlockFailed _), .req j => i = j
  | _, _ => False

def Resting (p : Point n) : Prop := ∃ i rc, p = .call i (.unlockReq rc)

theorem not_inside_start (t : Tid n) (m : Mutex n) : ¬ inside (start t) m := by
  cases t <;> exact id

/-! ## The invariant -/

/-- The request may be in the table. -/
def Entered : CallPc → Prop
  | .unlockConn | .lockReq | .send | .wait _ | .unlockReq _ => True
  | _ => False

/-- The call has a request. -/
def Owning : CallPc → Prop
  | .malloc | .unlockFailed _ | .freeFailed _ | .returned _ | .failed _ => False
  | _ => True

def Fits : Tid n → Point n → Prop
  | some i, .call j _ => j = i
  | none, .response _ => True
  | _, _ => False

/-- What `response_process` holds is in the table until it has removed it. -/
def Taken (s : Shared n τ) : Point n → Prop
  | .response (.del _ _ i) => i ∈ entries s.msgTable
  | .response (.copy _ _ i) | .response (.signal i) => i ∉ entries s.msgTable
  | _ => True

structure Sound (s : Shared n τ) (ps : Tid n → Point n) (sl : Tid n → Option (Fin n)) : Prop where
  fits : ∀ t, Fits t (ps t)
  taken : Taken s (ps none)
  live : ∀ i pc, ps (some i) = .call i pc → Owning pc → (s.reqs i).isSome = true
  apart : ∀ i pc, ps (some i) = .call i pc →
    ¬ Entered pc ∨ (pc.Past ∧ sl (some i) = none) → Apart s ps i
  asleep : ∀ t i, sl t = some i → t = some i ∧ ∃ rc, ps t = .call i (.unlockReq rc)

theorem sound_start (env : Env n) : Sound (initial env : Shared n τ) start fun _ => none where
  fits t := by
    cases t with
    | none => trivial
    | some i => rfl
  taken := trivial
  live i pc h howning := by
    cases h
    exact howning.elim
  apart i pc _ _ := ⟨by simp [initial, Uthash.entries_empty], nofun⟩
  asleep _ _ h := by cases h

theorem Entered.owning (h : Entered pc) : Owning pc := by
  cases pc <;> first | exact h.elim | trivial

theorem Sound.exists_call (h : Sound s ps sl) (i : Fin n) : ∃ pc, ps (some i) = .call i pc := by
  have hfits := h.fits (some i)
  cases hp : ps (some i) <;> rw [hp] at hfits
  case call j pc =>
    obtain rfl : j = i := hfits
    exact ⟨pc, rfl⟩
  all_goals exact hfits.elim

/-- A request in use is there. -/
theorem Sound.live_of_not_apart (h : Sound s ps sl) (hi : ¬ Apart s ps i) :
    (s.reqs i).isSome = true := by
  obtain ⟨pc, hp⟩ := h.exists_call i
  by_cases hentered : Entered pc
  · exact h.live i pc hp hentered.owning
  · exact absurd (h.apart i pc hp (.inl hentered)) hi

theorem Sound.alive (h : Sound s ps sl) : Alive s := by
  intro i hi
  exact h.live_of_not_apart fun hapart => hapart.1 hi

theorem Sound.live_of_held (h : Sound s ps sl) (hi : (ps none).held = some i) :
    (s.reqs i).isSome = true :=
  h.live_of_not_apart fun hapart => hapart.2 hi

omit [Uthash n τ] in
theorem exists_req (h : (s.reqs i).isSome = true) : ∃ req, s.reqs i = some req :=
  Option.isSome_iff_exists.mp h

/-! ## Steps of the calls -/

/-- What a step of the call `i` does to the table. -/
inductive Adds (s : Shared n τ) (i : Fin n) (s' : Shared n τ) : Prop where
  | same (h : entries s'.msgTable = entries s.msgTable)
  | added (h : entries s'.msgTable = insert i (entries s.msgTable))

theorem Adds.mem_iff (h : Adds s i s') (hne : j ≠ i) :
    j ∈ entries s'.msgTable ↔ j ∈ entries s.msgTable := by
  rcases h with h | h
  · rw [h]
  · simp [h, hne]

theorem Taken.of_iff (h : Taken s p) (hp : ∀ j, p.held = some j →
    (j ∈ entries s'.msgTable ↔ j ∈ entries s.msgTable)) : Taken s' p := by
  cases p with
  | response pc =>
      cases pc with
      | del k resp j => exact (hp j rfl).mpr h
      | copy k resp j | signal j => exact fun hj => h ((hp j rfl).mp hj)
      | _ => trivial
  | _ => trivial

/-- A step of a call that does not sleep. It adds its request only while nobody has it. -/
theorem Sound.call (h : Sound s ps sl) (hp : ps (some i) = .call i pc)
    (hsl : sl (some i) = none) (hadds : Adds s i s')
    (hnew : entries s'.msgTable = entries s.msgTable ∨ Apart s ps i)
    (hreqs : ∀ j, j ≠ i → s'.reqs j = s.reqs j) (hlive : Owning pc' → (s'.reqs i).isSome = true)
    (hapart : ¬ Entered pc' ∨ pc'.Past → entries s'.msgTable = entries s.msgTable ∧ Apart s ps i) :
    Sound s' (Function.update ps (some i) (.call i pc')) sl := by
  have hnone : Function.update ps (some i) (.call i pc') none = ps none :=
    Function.update_of_ne (Option.some_ne_none i).symm ..
  refine ⟨?_, ?_, fun j pc₁ hj howning => ?_, fun j pc₁ hj hout => ?_, fun u j hu => ?_⟩
  · exact (Function.forall_update_iff ps fun t p => Fits t p).mpr ⟨rfl, fun t _ => h.fits t⟩
  · rw [hnone]
    refine h.taken.of_iff fun j hj => ?_
    by_cases hji : j = i
    · subst hji
      rcases hnew with hsame | hi
      · rw [hsame]
      · exact absurd hj hi.2
    · exact hadds.mem_iff hji
  · by_cases hji : j = i
    · subst hji
      rw [Function.update_self] at hj
      cases hj
      exact hlive howning
    · rw [Function.update_of_ne (by simpa using hji)] at hj
      rw [hreqs j hji]
      exact h.live j pc₁ hj howning
  · rw [Apart, hnone]
    by_cases hji : j = i
    · subst hji
      rw [Function.update_self] at hj
      cases hj
      obtain ⟨hsame, hi⟩ := hapart (hout.imp_right fun hpast => hpast.1)
      rwa [hsame]
    · rw [Function.update_of_ne (by simpa using hji)] at hj
      rw [hadds.mem_iff hji]
      exact h.apart j pc₁ hj hout
  · obtain ⟨hu', rc, hrc⟩ := h.asleep u j hu
    refine ⟨hu', rc, ?_⟩
    rwa [Function.update_of_ne]
    rintro rfl
    rw [hsl] at hu
    cases hu

/-- The call goes to sleep. -/
theorem Sound.sleep (h : Sound s ps sl) (hp : ps (some i) = .call i (.wait rc)) :
    Sound s (Function.update ps (some i) (.call i (.unlockReq rc)))
      (Function.update sl (some i) (some i)) := by
  have hnone : Function.update ps (some i) (.call i (.unlockReq rc)) none = ps none :=
    Function.update_of_ne (Option.some_ne_none i).symm ..
  refine ⟨?_, by rw [hnone]; exact h.taken, fun j pc₁ hj howning => ?_,
    fun j pc₁ hj hout => ?_, fun u j hu => ?_⟩
  · exact (Function.forall_update_iff ps fun t p => Fits t p).mpr ⟨rfl, fun t _ => h.fits t⟩
  · by_cases hji : j = i
    · subst hji
      exact h.live j (.wait rc) hp trivial
    · rw [Function.update_of_ne (by simpa using hji)] at hj
      exact h.live j pc₁ hj howning
  · by_cases hji : j = i
    · subst hji
      rw [Function.update_self] at hj hout
      cases hj
      rcases hout with hout | hout
      · exact absurd trivial hout
      · cases hout.2
    · rw [Function.update_of_ne (by simpa using hji)] at hj hout
      rw [Apart, hnone]
      exact h.apart j pc₁ hj hout
  · by_cases hu' : u = some i
    · subst hu'
      rw [Function.update_self] at hu ⊢
      cases hu
      exact ⟨rfl, rc, rfl⟩
    · rw [Function.update_of_ne hu'] at hu ⊢
      exact h.asleep u j hu

/-! ## Steps of `response_process` -/

/-- A step of `response_process`, which may wake up the call whose request it has held. -/
theorem Sound.respond (h : Sound s ps sl) {pc' : ResponsePc n} (hreqs : s'.reqs = s.reqs)
    (hsub : ∀ j ∈ entries s'.msgTable, j ∈ entries s.msgTable)
    (htaken : Taken s' (.response pc'))
    (hheld : ∀ j, (Point.response pc').held = some j →
      (ps none).held = some j ∨ j ∈ entries s.msgTable)
    (hsleep : ∀ t j, sl' t = some j → sl t = some j)
    (hwake : ∀ j, sl' (some j) = none → sl (some j) ≠ none →
      j ∉ entries s'.msgTable ∧ (Point.response pc').held ≠ some j) :
    Sound s' (Function.update ps none (.response pc')) sl' := by
  have hsome : ∀ j, Function.update ps none (.response pc') (some j) = ps (some j) := fun j =>
    Function.update_of_ne (Option.some_ne_none j) ..
  have hsame : ∀ j, Apart s ps j → Apart s' (Function.update ps none (.response pc')) j := by
    rintro j ⟨htable, hnot⟩
    rw [Apart, Function.update_self]
    refine ⟨fun hj => htable (hsub j hj), fun hj => ?_⟩
    rcases hheld j hj with hold | hmem
    · exact hnot hold
    · exact htable hmem
  refine ⟨?_, by rwa [Function.update_self], fun j pc₁ hj howning => ?_,
    fun j pc₁ hj hout => ?_, fun u j hu => ?_⟩
  · exact (Function.forall_update_iff ps fun t p => Fits t p).mpr ⟨trivial, fun t _ => h.fits t⟩
  · rw [hsome] at hj
    rw [hreqs]
    exact h.live j pc₁ hj howning
  · rw [hsome] at hj
    rcases hout with hout | ⟨hpast, hawake⟩
    · exact hsame j (h.apart j pc₁ hj (.inl hout))
    · by_cases hsl : sl (some j) = none
      · exact hsame j (h.apart j pc₁ hj (.inr ⟨hpast, hsl⟩))
      · rw [Apart, Function.update_self]
        exact hwake j hawake hsl
  · obtain ⟨rfl, rc, hrc⟩ := h.asleep u j (hsleep u j hu)
    refine ⟨rfl, rc, ?_⟩
    rw [hsome]
    exact hrc

/-- A step of `response_process` that wakes up nobody. -/
theorem Sound.handle (h : Sound s ps sl) {pc' : ResponsePc n} (hreqs : s'.reqs = s.reqs)
    (hsub : ∀ j ∈ entries s'.msgTable, j ∈ entries s.msgTable)
    (htaken : Taken s' (.response pc'))
    (hheld : ∀ j, (Point.response pc').held = some j →
      (ps none).held = some j ∨ j ∈ entries s.msgTable) :
    Sound s' (Function.update ps none (.response pc')) sl :=
  h.respond hreqs hsub htaken hheld (fun _ _ => id) fun _ hnone hsome =>
    absurd hnone hsome

theorem Sound.stepCall (h : Sound s ps sl) (hp : ps (some i) = .call i pc)
    (hsl : sl (some i) = none) (hanswered : AnsweredAt send s ps (.call i pc))
    (hq : (code env send s (.call i pc)).next? = some q)
    (hsleeps : Sleeps (some i) sl sl' (code env send s (.call i pc))) :
    Sound ((code env send s (.call i pc)).after s) (Function.update ps (some i) q) sl' := by
  have hlive := h.live i pc hp
  have hapart := h.apart i pc hp
  -- steps that leave the table alone, and of these those that leave the requests alone
  have hkeep : ∀ {s' : Shared n τ} {pc'}, entries s'.msgTable = entries s.msgTable →
      (∀ j, j ≠ i → s'.reqs j = s.reqs j) →
      (Owning pc' → (s'.reqs i).isSome = true) → (¬ Entered pc' ∨ pc'.Past → Apart s ps i) →
      Sound s' (Function.update ps (some i) (.call i pc')) sl :=
    fun htable hreqs hown hout => h.call hp hsl (.same htable) (.inl htable) hreqs hown
      fun hpast => ⟨htable, hout hpast⟩
  have hmove : ∀ {pc'}, (Owning pc' → Owning pc) → (¬ Entered pc' ∨ pc'.Past → Apart s ps i) →
      Sound s (Function.update ps (some i) (.call i pc')) sl :=
    fun howning hout => hkeep rfl (fun _ _ => rfl) (fun hown => hlive (howning hown)) hout
  have hset : ∀ (req : Option (Request n)) j, j ≠ i → (s.setReq i req).reqs j = s.reqs j :=
    fun req j hj => Function.update_of_ne hj ..
  have hwithin : ∀ {pc'} {P : Prop}, Entered pc' → ¬ pc'.Past → ¬ Entered pc' ∨ pc'.Past → P :=
    fun hentered hnot hpast => absurd hpast (not_or.mpr ⟨not_not_intro hentered, hnot⟩)
  cases pc with
  | returned rc | failed rc => cases hq
  | malloc =>
      have hout := hapart (.inl id)
      cases hm : env.malloc i with
      | none =>
          simp only [code, LonghornRpc.code, processRequest, hm] at hq hsleeps ⊢
          cases hq
          cases hsleeps
          exact hmove id fun _ => hout
      | some req =>
          simp only [code, LonghornRpc.code, processRequest, hm] at hq hsleeps ⊢
          cases hq
          cases hsleeps
          refine hkeep rfl (hset _) (fun _ => ?_) fun _ => hout
          simp [Op.after, Shared.setReq]
  | checkType | condInit | mutexInit =>
      have hout := hapart (.inl id)
      cases hq
      cases hsleeps
      split
      · exact hmove (fun _ => trivial) fun _ => hout
      · exact hmove (fun _ => trivial) fun _ => hout
  | newSeq | fill =>
      obtain ⟨req, hreq⟩ := exists_req (hlive trivial)
      have hout := hapart (.inl id)
      simp only [code, LonghornRpc.code, processRequest, deref_of_eq hreq] at hq hsleeps ⊢
      cases hq
      cases hsleeps
      refine hkeep rfl (hset _) (fun _ => ?_) fun _ => hout
      simp [Op.after, Shared.setReq]
  | memset =>
      obtain ⟨req, hreq⟩ := exists_req (hlive trivial)
      have hout := hapart (.inl id)
      simp only [code, LonghornRpc.code, processRequest, deref_of_eq hreq] at hq hsleeps ⊢
      cases hq
      cases hsleeps
      refine hkeep ?_ ?_ ?_ fun _ => hout
      · simp only [Op.after]
        split <;> rfl
      · intro j _
        simp only [Op.after]
        split <;> rfl
      · intro _
        have hself := hlive trivial
        simp only [Op.after]
        split <;> exact hself
  | lockConn =>
      have hout := hapart (.inl id)
      cases hq
      cases hsleeps
      exact hmove (fun _ => trivial) fun _ => hout
  | add =>
      have hout := hapart (.inl id)
      have hself := hlive trivial
      simp only [code, LonghornRpc.code, processRequest, if_pos h.alive] at hq hsleeps ⊢
      cases hq
      cases hsleeps
      have hadd := Uthash.entries_hashAdd s.msgTable i hout.1
      exact h.call hp hsl (.added hadd) (.inr hout) (fun _ _ => rfl) (fun _ => hself)
        (hwithin trivial id)
  | unlockConn | lockReq =>
      cases hq
      cases hsleeps
      exact hmove (fun _ => trivial) (hwithin trivial id)
  | send =>
      obtain ⟨req, hreq⟩ := exists_req (hlive trivial)
      simp only [code, deref_of_eq hreq] at hq hsleeps ⊢
      cases hq
      cases hsleeps
      by_cases hfails : send i < 0
      · rw [if_pos hfails]
        exact hmove (fun _ => trivial) fun _ => hanswered hfails
      · rw [if_neg hfails]
        exact hmove (fun _ => trivial) (hwithin trivial id)
  | wait rc =>
      cases hq
      cases hsleeps
      exact h.sleep hp
  | unlockReq rc =>
      cases hq
      cases hsleeps
      exact hmove (fun _ => trivial) fun _ => hapart (.inr ⟨trivial, hsl⟩)
  | unlockFailed rc =>
      have hout := hapart (.inl id)
      cases hq
      cases hsleeps
      exact hmove id fun _ => hout
  | free rc | freeFailed rc =>
      have hout := hapart (.inl id)
      cases hq
      cases hsleeps
      exact hkeep rfl (hset _) (fun howning => howning.elim) fun _ => hout

theorem Sound.stepResponse (h : Sound s ps sl) {pc : ResponsePc n} (hp : ps none = .response pc)
    (hq : (code env send s (.response pc)).next? = some q)
    (hsleeps : Sleeps none sl sl' (code env send s (.response pc))) :
    Sound ((code env send s (.response pc)).after s) (Function.update ps none q) sl' := by
  have htaken := h.taken
  have hlive : ∀ j, (Point.response pc).held = some j → ∃ req, s.reqs j = some req := by
    intro j hj
    exact exists_req (h.live_of_held (by rw [hp]; exact hj))
  rw [hp] at htaken
  have hmove : ∀ {s' : Shared n τ} {pc'}, s'.reqs = s.reqs →
      entries s'.msgTable = entries s.msgTable → Taken s' (.response pc') →
      (∀ j, (Point.response pc').held = some j → (ps none).held = some j ∨ j ∈ entries s.msgTable) →
      Sound s' (Function.update ps none (.response pc')) sl :=
    fun hreqs htable htaken' hheld => h.handle hreqs (fun j hj => by rwa [htable] at hj) htaken'
      hheld
  have hdrop : ∀ {s' : Shared n τ} {pc'}, s'.reqs = s.reqs →
      entries s'.msgTable = entries s.msgTable → Taken s' (.response pc') →
      (Point.response pc').held = none →
      Sound s' (Function.update ps none (.response pc')) sl := by
    intro s' pc' hreqs htable htaken' hnone
    refine hmove hreqs htable htaken' fun j hj => ?_
    rw [hnone] at hj
    cases hj
  cases pc with
  | exited => cases hq
  | malloc =>
      cases hq
      cases hsleeps
      split <;> exact hdrop rfl rfl trivial rfl
  | receive =>
      simp only [code, LonghornRpc.code, responseProcess] at hq hsleeps ⊢
      split at hq
      · next hret =>
          simp only [if_pos hret] at hsleeps ⊢
          cases hq
          cases hsleeps
          exact hdrop rfl rfl trivial rfl
      · next hret =>
          simp only [if_neg hret] at hsleeps ⊢
          cases hq
          cases hsleeps
          exact hdrop rfl rfl trivial rfl
  | checkType k resp =>
      simp only [code, LonghornRpc.code, responseProcess] at hq hsleeps ⊢
      split at hq
      · next htype =>
          simp only [if_pos htype] at hsleeps ⊢
          cases hq
          cases hsleeps
          exact hdrop rfl rfl trivial rfl
      · next htype =>
          simp only [if_neg htype] at hsleeps ⊢
          cases hq
          cases hsleeps
          exact hdrop rfl rfl trivial rfl
  | find k resp =>
      simp only [code, LonghornRpc.code, responseProcess, if_pos h.alive] at hq hsleeps ⊢
      cases hq
      cases hsleeps
      cases hfind : hashFind s resp.seq with
      | none => exact hdrop rfl rfl trivial rfl
      | some i =>
          have hmem := (hashFind_some hfind).1
          refine hmove rfl rfl hmem fun j hj => ?_
          cases hj
          exact .inr hmem
  | del k resp i =>
      simp only [code, LonghornRpc.code, responseProcess, if_pos h.alive] at hq hsleeps ⊢
      cases hq
      cases hsleeps
      have hdel := Uthash.entries_hashDel s.msgTable i htaken
      refine h.handle rfl (fun j hj => ?_) ?_ fun j hj => ?_
      · rw [Op.after, hdel] at hj
        exact Finset.mem_of_mem_erase hj
      · rw [Taken, Op.after, hdel]
        exact Finset.notMem_erase i _
      cases hj
      exact .inr htaken
  | copy k resp i =>
      obtain ⟨req, hreq⟩ := hlive i rfl
      simp only [code, LonghornRpc.code, responseProcess, deref_of_eq hreq] at hq hsleeps ⊢
      cases hq
      cases hsleeps
      refine hmove rfl rfl htaken fun j hj => ?_
      cases hj
      exact .inl (by rw [hp]; rfl)
  | signal i =>
      obtain ⟨req, hreq⟩ := hlive i rfl
      simp only [code, LonghornRpc.code, responseProcess, deref_of_eq hreq] at hq hsleeps ⊢
      cases hq
      rcases hsleeps with rfl | ⟨t, ht, rfl⟩
      · exact hdrop rfl rfl trivial rfl
      · obtain ⟨rfl, -⟩ := h.asleep t i ht
        refine h.respond rfl (fun _ => id) trivial (fun _ hj => by cases hj) ?_ ?_
        · intro u j hu
          by_cases hui : u = some i
          · subst hui
            rw [Function.update_self] at hu
            cases hu
          · rwa [Function.update_of_ne hui] at hu
        · intro j hnone hsome
          by_cases hji : j = i
          · subst hji
            exact ⟨htaken, Option.some_ne_none j ∘ Eq.symm⟩
          · rw [Function.update_of_ne fun heq => hji (Option.some.inj heq)] at hnone
            exact absurd hnone hsome

/-! ## Runs -/

theorem Sound.step (h : Sound s ps sl) (hsl : sl t = none) (hanswered : Answered send s ps t)
    (hq : (code env send s (ps t)).next? = some q)
    (hsleeps : Sleeps t sl sl' (code env send s (ps t))) :
    Sound ((code env send s (ps t)).after s) (Function.update ps t q) sl' := by
  have hfits := h.fits t
  rw [Answered] at hanswered
  cases t with
  | none =>
      cases hp : ps none <;> rw [hp] at hfits hq hsleeps
      case response pc => exact h.stepResponse hp hq hsleeps
      all_goals exact hfits.elim
  | some i =>
      cases hp : ps (some i) <;> rw [hp] at hfits hq hsleeps hanswered
      case call j pc =>
        obtain rfl : j = i := hfits
        exact h.stepCall hp hsl hanswered hq hsleeps
      all_goals exact hfits.elim

/-- A call that wakes up by itself. -/
theorem Sound.wake (h : Sound s ps sl) (htimely : Timely s ps t) :
    Sound s ps (Function.update sl t none) := by
  refine ⟨h.fits, h.taken, h.live, fun i pc hi hout => ?_, fun u i hu => ?_⟩
  · rcases hout with hout | ⟨hpast, hawake⟩
    · exact h.apart i pc hi (.inl hout)
    · by_cases ht : some i = t
      · subst ht
        exact htimely
      · rw [Function.update_of_ne ht] at hawake
        exact h.apart i pc hi (.inr ⟨hpast, hawake⟩)
  · by_cases ht : u = t
    · subst ht
      rw [Function.update_self] at hu
      cases hu
    · rw [Function.update_of_ne ht] at hu
      exact h.asleep u i hu

/-- No thread gets to a fault, where it would keep its mutexes. -/
theorem Sound.tracks (h : Sound s ps sl) (t : Tid n) :
    Tracks inside (ps t) (code env send s (ps t)) := by
  have hfits := h.fits t
  cases t with
  | none =>
      cases hp : ps none <;> rw [hp] at hfits
      case response pc =>
        have hlive : ∀ j, (Point.response pc).held = some j → ∃ req, s.reqs j = some req := by
          intro j hj
          exact exists_req (h.live_of_held (by rw [hp]; exact hj))
        cases pc with
        | receive | checkType k resp =>
            simp only [code, LonghornRpc.code, responseProcess]
            split <;> exact fun _ => Iff.rfl
        | find k resp =>
            simp only [code, LonghornRpc.code, responseProcess, if_pos h.alive]
            exact fun _ => Iff.rfl
        | del k resp i =>
            simp only [code, LonghornRpc.code, responseProcess, if_pos h.alive]
            exact fun _ => Iff.rfl
        | copy k resp i | signal i =>
            obtain ⟨req, hreq⟩ := hlive i rfl
            simp only [code, LonghornRpc.code, responseProcess, deref_of_eq hreq]
            exact fun _ => Iff.rfl
        | malloc => exact fun _ => Iff.rfl
        | exited => trivial
      all_goals exact hfits.elim
  | some i =>
      cases hp : ps (some i) <;> rw [hp] at hfits
      case call j pc =>
        obtain rfl : j = i := hfits
        have hlive := h.live j pc hp
        cases pc with
        | malloc =>
            simp only [code, LonghornRpc.code, processRequest]
            split <;> exact fun _ => Iff.rfl
        | newSeq | fill | memset =>
            obtain ⟨req, hreq⟩ := exists_req (hlive trivial)
            simp only [code, LonghornRpc.code, processRequest, deref_of_eq hreq]
            exact fun _ => Iff.rfl
        | checkType | condInit | mutexInit =>
            simp only [code, LonghornRpc.code, processRequest]
            split <;> exact fun _ => Iff.rfl
        | add =>
            simp only [code, LonghornRpc.code, processRequest, if_pos h.alive]
            exact fun m => by cases m <;> exact Iff.rfl
        | send =>
            obtain ⟨req, hreq⟩ := exists_req (hlive trivial)
            simp only [code, deref_of_eq hreq]
            split <;> exact fun m => by cases m <;> exact Iff.rfl
        | wait rc => exact ⟨rfl, fun m => by cases m <;> exact Iff.rfl⟩
        | free rc | freeFailed rc => exact fun _ => Iff.rfl
        | returned rc | failed rc => trivial
        | lockConn | unlockConn | lockReq | unlockReq rc | unlockFailed rc =>
            intro m
            cases m <;> simp [inside, eq_comm]
      all_goals exact hfits.elim

/-- A call waits with its own condition variable and mutex. -/
theorem exists_of_wait {cond : Fin n} {m : Mutex n} (h : code env send s p = .wait cond m q) :
    ∃ rc, m = .req cond ∧ q = .call cond (.unlockReq rc) := by
  cases p with
  | fault => cases h
  | response pc =>
      cases pc <;> simp only [code, LonghornRpc.code, responseProcess, deref] at h <;>
        first | cases h | (split at h <;> cases h)
  | call i pc =>
      cases pc with
      | wait rc =>
          cases h
          exact ⟨rc, rfl, rfl⟩
      | _ =>
          simp only [code, LonghornRpc.code, processRequest, deref] at h
          first | cases h | (split at h <;> cases h)

theorem resting_of_wait (s : Shared n τ) (p : Point n) (cond : Fin n) (m : Mutex n) (q : Point n)
    (h : code env send s p = .wait cond m q) : Resting q := by
  obtain ⟨rc, -, hq⟩ := exists_of_wait h
  exact ⟨cond, rc, hq⟩

/-- The runs that meet the condition. -/
abbrev AnsweredRun (env : Env n) (send : Fin n → ℤ) :
    Config (Tid n) (Shared n τ) (Point n) (Mutex n) (Fin n) → Prop :=
  (program env send).ReachableBy (Meets (Answered send) Timely)

theorem sound_of_answered (h : AnsweredRun env send c) :
    Owned inside c ∧ Sound c.shared (points c) (sleepers c) := by
  apply conditional_owned_invariant (P := Sound) _ resting_of_wait
    not_inside_start h (sound_start env)
  · exact fun s ps sl sl' t q hsound hsl hanswered _ _ hq hsleeps =>
      hsound.step hsl hanswered hq hsleeps
  · exact fun s ps sl t _ hsound htimely _ => hsound.wake htimely
  · exact fun s ps sl t hsound => hsound.tracks t

theorem Sound.right (h : Sound c.shared (points c) (sleepers c)) : Right c := by
  refine ⟨fun i hi hreturned => ?_, fun hfault => ?_⟩
  · obtain ⟨pc, hp⟩ := h.exists_call i
    have hout : ¬ Entered pc := by
      rw [hp] at hreturned
      cases pc <;> first | exact id | exact fun _ => hreturned
    exact (h.apart i pc hp (.inl hout)).1 hi
  · have hfits := h.fits none
    cases hp : points c none <;> rw [hp] at hfits hfault <;>
      first | exact hfault | exact hfits

/-! ## The condition is needed -/

theorem waits (h : (program env send).Reachable c) (t : Tid n) :
    Waits (fun cond m q => ∃ rc, m = Mutex.req cond ∧ q = .call cond (.unlockReq rc))
      (c.threads t) :=
  waits_of_reachable (fun _ _ _ _ _ hop => exists_of_wait hop) h t

/-- A thread that is not behind the wait runs. -/
theorem running_of_points (h : (program env send).Reachable c) (hp : points c t = p)
    (hne : ¬ Resting p) : c.threads t = .running p := by
  subst hp
  exact running_of_not_resting resting_of_wait h hne

variable {o : Mutex n → Option (Tid n)} {threads : Tid n → Status (Point n) (Mutex n) (Fin n)}
  {r : ResponsePc n}

/-- A call frees a request that is in the table, or that `response_process` has just removed. -/
theorem leads_of_free
    (hcode : code env send s (.call i pc) = .run (s.setReq i none) (.call i pc'))
    (hreturned : Returned (.call i pc' : Point n)) (hnone : threads none = .running (.response r))
    (htaken : Taken s (.response r)) (huse : ¬ Apart s (fun t => point (threads t)) i) :
    (program env send).Leads (fun c => ¬ Right c)
      (turn o s threads (some i) (.call i pc)) := by
  refine leads_run hcode ?_
  by_cases hmem : i ∈ entries s.msgTable
  · refine .here fun hright => hright.1 i hmem ?_
    rw [points, turn_threads_self]
    exact hreturned
  · have hheld : (Point.response r).held = some i := by
      by_contra hnot
      refine huse ⟨hmem, ?_⟩
      simp only [hnone, point]
      exact hnot
    have hrunning : (turn o (s.setReq i none) threads (some i) (.call i pc')).threads none =
        .running (.response r) :=
      (turn_threads_of_ne (Option.some_ne_none i).symm).trans hnone
    have hfreed : deref (s.setReq i none) i = fun _ => .run (s.setReq i none) .fault := by
      funext access
      simp [deref, Shared.setReq]
    have hfault : code env send (s.setReq i none) (.response r) =
        .run (s.setReq i none) .fault := by
      cases r with
      | del k resp j =>
          cases hheld
          exact absurd htaken hmem
      | copy k resp j | signal j =>
          cases hheld
          simp only [code, LonghornRpc.code, responseProcess, hfreed]
      | _ => cases hheld
    refine leads_of_step (.here fun hright => hright.2 ?_) (step_run hrunning hfault)
    simp only [points, Function.update_self, point]
    trivial

theorem exists_response (h : AnsweredRun env send c) :
    ∃ r, c.threads none = .running (.response r) ∧ Taken c.shared (.response r) := by
  have hsound := (sound_of_answered h).2
  have hfits := hsound.fits none
  have htaken := hsound.taken
  cases hp : points c none <;> rw [hp] at hfits htaken
  case response r =>
    exact ⟨r, running_of_points h.reachable hp (by rintro ⟨j, rc, ⟨⟩⟩), htaken⟩
  all_goals exact hfits.elim

/-- A `send_msg` fails while the request is in use. -/
theorem leads_of_send {w : Option (Tid n)} (h : AnsweredRun env send c)
    (hs : (program env send).step c (.run (some i) w) = some c')
    (hp : points c (some i) = .call i .send) (hfails : send i < 0)
    (huse : ¬ Apart c.shared (points c) i) :
    (program env send).Leads (fun c => ¬ Right c) c' := by
  obtain ⟨howned, hsound⟩ := sound_of_answered h
  have hi : c.threads (some i) = .running (.call i .send) :=
    running_of_points h.reachable hp (by rintro ⟨j, rc, ⟨⟩⟩)
  obtain ⟨req, hreq⟩ := exists_req (hsound.live_of_not_apart huse)
  obtain ⟨r, hnone, htaken⟩ := exists_response h
  have hmoved : c' =
      turn c.owner c.shared c.threads (some i) (.call i (.unlockFailed (send i))) := by
    simpa [program, Pthread.program, step, hi, code, deref_of_eq hreq, hfails, exec, turn]
      using hs.symm
  rw [hmoved]
  have hown : c.owner (.req i) = some (some i) := howned.owner_of_inside hi rfl
  exact leads_unlock rfl hown (leads_of_free rfl trivial hnone htaken huse)

/-- The mutex of a request is its call's. -/
theorem eq_of_owner (howned : Owned inside c) (hsound : Sound c.shared (points c) (sleepers c))
    (hown : c.owner (.req i) = some t) :
    t = some i ∧ inside (points c t) (.req i) := by
  have hholds := (howned.owner t (.req i)).mp hown
  have hin : inside (points c t) (.req i) := by
    cases hthread : c.threads t <;> rw [hthread] at hholds
    case running p => rwa [points_of_running hthread]
    all_goals
      simp only [points, hthread, point]
      exact hholds.2
  have hfits := hsound.fits t
  refine ⟨?_, hin⟩
  cases hp : points c t <;> rw [hp] at hfits hin
  case call j pc =>
    cases t with
    | none => exact hfits.elim
    | some i' =>
        obtain rfl : j = i' := hfits
        have hji : j = i := by
          cases pc <;> first | exact hin | exact hin.elim
        exact congrArg some hji
  all_goals exact hin.elim

/-- The mutex of a request that sleeps is free. -/
theorem free_of_asleep {m : Mutex n} (h : AnsweredRun env send c)
    (hi : c.threads (some i) = .asleep i m q) : c.owner (.req i) = none := by
  obtain ⟨howned, hsound⟩ := sound_of_answered h
  cases hown : c.owner (.req i) with
  | none => rfl
  | some t =>
      obtain ⟨rfl, -⟩ := eq_of_owner howned hsound hown
      have hholds := (howned.owner _ _).mp hown
      have hwaits := waits h.reachable (some i)
      rw [hi] at hholds hwaits
      obtain ⟨rc, rfl, -⟩ := hwaits
      exact absurd rfl hholds.1

/-- A call wakes up by itself while its request is in use. -/
theorem leads_of_spurious (h : AnsweredRun env send c)
    (hs : (program env send).step c (.spurious t) = some c')
    (hlate : ¬ Timely c.shared (points c) t) :
    (program env send).Leads (fun c => ¬ Right c) c' := by
  obtain ⟨-, hsound⟩ := sound_of_answered h
  have hs : step (code env send) c (.spurious t) = some c' := hs
  cases t with
  | none => exact absurd trivial hlate
  | some i =>
      have hwaits := waits h.reachable (some i)
      cases hi : c.threads (some i) with
      | running p => simp [step, hi] at hs
      | woken m q => simp [step, hi] at hs
      | asleep cond m q =>
          have hsleeps : sleepers c (some i) = some cond := by simp only [sleepers, hi, sleeping]
          obtain ⟨hcond, -⟩ := hsound.asleep _ _ hsleeps
          obtain rfl : i = cond := Option.some.inj hcond
          have hfree := free_of_asleep h hi
          rw [hi] at hwaits
          obtain ⟨rc, rfl, rfl⟩ := hwaits
          obtain ⟨r, hnone, htaken⟩ := exists_response h
          simp only [step, hi, Option.some.injEq] at hs
          subst hs
          refine leads_of_step ?_ (step_relock (Function.update_self ..) hfree)
          refine leads_unlock (p := Point.call i (.unlockReq rc)) rfl (Function.update_self ..) ?_
          refine leads_of_free rfl trivial ?_ htaken ?_
          · simpa using hnone
          · simpa [Timely, Apart, points] using hlate

theorem leads_of_not_meets {a : Action (Tid n)} (h : AnsweredRun env send c)
    (hs : (program env send).step c a = some c')
    (hbad : ¬ Meets (Answered send) Timely c a) :
    (program env send).Leads (fun c => ¬ Right c) c' := by
  obtain ⟨-, hsound⟩ := sound_of_answered h
  cases a with
  | spurious t => exact leads_of_spurious h hs hbad
  | run t w =>
      simp only [Meets, Classical.not_imp, Answered] at hbad
      obtain ⟨-, hlack⟩ := hbad
      have hfits := hsound.fits t
      cases hp : points c t with
      | call i pc =>
          rw [hp] at hlack hfits
          cases t with
          | none => exact hfits.elim
          | some j =>
              obtain rfl : i = j := hfits
              cases pc with
              | send =>
                  simp only [AnsweredAt, Classical.not_imp] at hlack
                  exact leads_of_send h hs hp hlack.1 hlack.2
              | _ => exact absurd trivial hlack
      | _ =>
          rw [hp] at hlack
          exact absurd trivial hlack

/-- For any number of calls, any results of `send_msg`, any messages and any interleaving: in a run
in which a call leaves its request behind a failing `send_msg`, or behind its wait, only when
`response_process` has removed it and let it go, the table has only requests in use; the first
step against this leads to a request that is used when it is freed. -/
theorem table_right_until_abandoned (env : Env n) (send : Fin n → ℤ)
    (c : Config (Tid n) (Shared n τ) (Point n) (Mutex n) (Fin n))
    (h : AnsweredRun env send c) :
    Right c ∧ ∀ a c', (program env send).step c a = some c' →
      ¬ Meets (Answered send) Timely c a → (program env send).Leads (fun c => ¬ Right c) c' :=
  ⟨(sound_of_answered h).2.right, fun _ _ hs hbad => leads_of_not_meets h hs hbad⟩

instance (p : Point n) : Decidable (Returned p) :=
  match p with
  | .call _ (.returned _) | .call _ (.failed _) => isTrue trivial
  | .call _ .malloc | .call _ .checkType | .call _ .newSeq | .call _ .fill | .call _ .memset
  | .call _ .condInit | .call _ .mutexInit | .call _ .lockConn | .call _ .add
  | .call _ .unlockConn | .call _ .lockReq | .call _ .send | .call _ (.wait _)
  | .call _ (.unlockReq _) | .call _ (.free _) | .call _ (.unlockFailed _)
  | .call _ (.freeFailed _) | .response _ | .fault => isFalse id

/-- A call sleeps until it is answered, and returns. -/
def answered (i : Fin 1) :
    Option (Config (Tid 1) (Shared 1 (List (Fin 1))) (Point 1) (Mutex 1) (Fin 1)) :=
  ((program (oneCall i [0, 1, 2, 3]) fun _ => 0).guarded (Meets (Answered fun _ => 0) Timely)).exec
    (program (oneCall i [0, 1, 2, 3]) fun _ => 0).init
    (List.replicate 13 (Action.run (some i) none) ++ List.replicate 6 (.run none none) ++
      .run none (some (some i)) :: List.replicate 3 (Action.run (some i) none))

theorem table_right_answered : ∃ c, answered 0 = some c ∧ Right c ∧
    Returned (points c (some 0)) := by
  have hrun : (answered 0).any (fun c => decide (Returned (points c (some 0)))) = true := by
    decide
  obtain ⟨c, hexec, hreturned⟩ := (Option.any_eq_true _ _).mp hrun
  have hreach : AnsweredRun (oneCall 0 [0, 1, 2, 3]) (fun _ => 0) c := .of_exec hexec
  exact ⟨c, hexec, (table_right_until_abandoned (oneCall 0 [0, 1, 2, 3]) _ c hreach).1,
    of_decide_eq_true hreturned⟩

/-- The `send_msg` of a call fails. -/
def abandoned (i : Fin 1) :
    Option (Config (Tid 1) (Shared 1 (List (Fin 1))) (Point 1) (Mutex 1) (Fin 1)) :=
  (program (oneCall i []) fun _ => -1).exec (program (oneCall i []) fun _ => -1).init
    (List.replicate 14 (Action.run (some i) none))

/-- Its request is freed in the table. -/
theorem freed_in_table : ¬ ∀ (n : ℕ) (env : Env n) (send : Fin n → ℤ)
    (c : Config (Tid n) (Shared n (List (Fin n))) (Point n) (Mutex n) (Fin n)),
    (program env send).Reachable c → Right c := by
  intro hright
  have hrun : (abandoned 0).any (fun c =>
      decide (0 ∈ entries c.shared.msgTable ∧ Returned (points c (some 0)))) = true := by decide
  obtain ⟨c, hexec, hwrong⟩ := (Option.any_eq_true _ _).mp hrun
  obtain ⟨hmem, hreturned⟩ := of_decide_eq_true hwrong
  exact (hright 1 (oneCall 0 []) _ c (System.Reachable.init.exec hexec)).1 0 hmem hreturned

end PthreadBenchmark.LonghornRpc.Failing
