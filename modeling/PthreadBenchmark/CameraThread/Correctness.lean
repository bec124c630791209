import PthreadBenchmark.CameraThread.Model
import PthreadBenchmark.Shared.PthreadConditions
import PthreadBenchmark.Shared.PthreadRuns

/-! # What a client needs of the frame that it finds behind its wait

All clients that a broadcast wakes up share one buffer, which the first snapshot client among them
frees. The capture thread sets `length` to the size of the next frame while they write. -/

namespace PthreadBenchmark.CameraThread

open Pthread

variable {n : ℕ} {bytesused : ℕ → ℕ} {snapshot : Fin n → Bool} {s s' : Shared}
  {ps : Tid n → Point n} {i : Fin n} {t : Tid n} {k : ℕ} {p q : Point n}
  {c c' : Config (Tid n) Shared (Point n) Mutex Cond}

/-- All frames were live when they were written, with the lengths announced and written as their
sizes, and no buffer has been freed twice. -/
structure Right (s : Shared) : Prop where
  sent : ∀ w ∈ s.sent, w.frame = some w.announced ∧ w.frame = some w.written
  once : ∀ b, s.frees b ≤ 1

/-! ## The condition -/

/-- The client is between the length that it announces and its write. -/
def Writing : Point n → Prop
  | .client _ (.body _) => True
  | _ => False

instance (p : Point n) : Decidable (Writing p) :=
  match p with
  | .client _ (.body _) => isTrue trivial
  | .client _ .lock | .client _ .wait | .client _ .header | .client _ .free | .client _ .unlock
  | .client _ .returned | .capture _ _ => isFalse id

/-- A client that goes on behind its wait finds a frame that has not been freed and has the size
`length`, and `length` changes only while no client is writing. -/
def InTimeAt (bytesused : ℕ → ℕ) (s : Shared) (ps : Tid n → Point n) : Point n → Prop
  | .client _ .header => s.frame = some s.length
  | .capture k .setLength => bytesused k = s.length ∨ ∀ i, ¬ Writing (ps (some i))
  | _ => True

instance (s : Shared) (ps : Tid n → Point n) (p : Point n) :
    Decidable (InTimeAt bytesused s ps p) :=
  match p with
  | .client _ .header => inferInstanceAs (Decidable (s.frame = some s.length))
  | .capture k .setLength =>
    inferInstanceAs (Decidable (bytesused k = s.length ∨ ∀ i, ¬ Writing (ps (some i))))
  | .client _ .lock | .client _ .wait | .client _ (.body _) | .client _ .free | .client _ .unlock
  | .client _ .returned | .capture _ .mallocTemp | .capture _ .lock | .capture _ .publish
  | .capture _ .unlock | .capture _ .broadcast | .capture _ .freeTemp => isTrue trivial

def InTime (bytesused : ℕ → ℕ) (s : Shared) (ps : Tid n → Point n) (t : Tid n) : Prop :=
  InTimeAt bytesused s ps (ps t)

instance (s : Shared) (ps : Tid n → Point n) (t : Tid n) : Decidable (InTime bytesused s ps t) :=
  inferInstanceAs (Decidable (InTimeAt bytesused s ps (ps t)))

/-! ## The mutex -/

def inside : Point n → Mutex → Prop
  | .capture _ .publish, _ | .capture _ .unlock, _ | .client _ .wait, _ | .client _ .header, _
  | .client _ (.body _), _ | .client _ .free, _ | .client _ .unlock, _ => True
  | _, _ => False

def Resting (p : Point n) : Prop := ∃ i, p = .client i .header

theorem tracks_code (s : Shared) (p : Point n) :
    Tracks inside p (code bytesused snapshot s p) := by
  cases p with
  | capture k pc => cases pc <;> simp [code, frameCapture, Tracks, inside]
  | client i pc =>
      cases pc with
      | body announced =>
          simp only [code, sendMsg]
          split <;> exact fun _ => Iff.rfl
      | unlock =>
          simp only [code, sendMsg]
          split <;> simp [Tracks, inside]
      | wait => exact ⟨trivial, fun _ => Iff.rfl⟩
      | _ => simp [code, sendMsg, Tracks, inside]

theorem resting_of_wait (s : Shared) (p : Point n) (cv : Cond) (m : Mutex) (q : Point n)
    (h : code bytesused snapshot s p = .wait cv m q) : Resting q := by
  cases p with
  | capture k pc => cases pc <;> cases h
  | client i pc =>
      cases pc <;> cases h
      exact ⟨i, rfl⟩

theorem not_inside_start (t : Tid n) (m : Mutex) : ¬ inside (start t) m := by
  cases t <;> exact id

/-! ## The buffers -/

theorem frame_malloc (h : ∀ b, s.devconfp = some b → b < s.allocated) :
    s.malloc.frame = s.frame := by
  cases hdev : s.devconfp with
  | none => simp [Shared.frame, Shared.malloc, hdev]
  | some b =>
      have hne : b ≠ s.allocated := (h b hdev).ne
      simp [Shared.frame, Shared.malloc, hdev, Function.update_of_ne hne]

theorem frame_free {b : ℕ} (h : s.devconfp ≠ some b) : (s.free (some b)).frame = s.frame := by
  cases hdev : s.devconfp with
  | none => simp [Shared.frame, Shared.free, hdev]
  | some b' =>
      have hne : b' ≠ b := fun heq => h (by rw [hdev, heq])
      simp [Shared.frame, Shared.free, hdev, Function.update_of_ne hne]

theorem exists_of_frame {size : ℕ} (h : s.frame = some size) :
    ∃ b, s.devconfp = some b ∧ s.frees b = 0 ∧ s.size b = size := by
  obtain ⟨b, hb, hsize⟩ := Option.bind_eq_some_iff.mp h
  split at hsize
  · next hfrees => exact ⟨b, hb, hfrees, Option.some.inj hsize⟩
  · cases hsize

/-! ## The invariant -/

def Fits : Tid n → Point n → Prop
  | none, .capture _ _ => True
  | some i, .client j _ => j = i
  | _, _ => False

/-- The capture thread has a copy of the frame in `temp`. -/
def Holding : Point n → Prop
  | .capture _ .lock | .capture _ .publish | .capture _ .unlock | .capture _ .broadcast
  | .capture _ .freeTemp => True
  | _ => False

/-- What a client that has woken up knows of the frame. -/
def Knows (s : Shared) : Point n → Prop
  | .client _ (.body announced) => announced = s.length ∧ s.frame = some s.length
  | .client _ .free => s.frame ≠ none
  | _ => True

/-- The buffer is live, and it is not the one that the clients share. -/
structure Private (s : Shared) (b : ℕ) : Prop where
  allocated : b < s.allocated
  live : s.frees b = 0
  ne : s.devconfp ≠ some b

structure Sound (s : Shared) (ps : Tid n → Point n) : Prop where
  fits : ∀ t, Fits t (ps t)
  fresh : ∀ b, s.allocated ≤ b → s.frees b = 0
  published : ∀ b, s.devconfp = some b → b < s.allocated
  temp : Holding (ps none) → ∃ b, s.temp = some b ∧ Private s b
  knows : ∀ t, Knows s (ps t)
  right : Right s

theorem sound_start : Sound initial (start (n := n)) where
  fits t := by
    cases t with
    | none => trivial
    | some i => rfl
  fresh _ _ := rfl
  published _ h := by cases h
  temp h := h.elim
  knows t := by cases t <;> trivial
  right := ⟨nofun, fun _ => Nat.zero_le 1⟩

/-- A step that leaves the buffers alone. -/
theorem Sound.move (h : Sound s ps) (hfits : Fits t q) (hholding : Holding q → Holding (ps t))
    (hknows : Knows s q) : Sound s (Function.update ps t q) where
  fits := (Function.forall_update_iff ps fun t p => Fits t p).mpr ⟨hfits, fun t _ => h.fits t⟩
  fresh := h.fresh
  published := h.published
  temp hhold := by
    by_cases ht : none = t
    · subst ht
      rw [Function.update_self] at hhold
      exact h.temp (hholding hhold)
    · rw [Function.update_of_ne ht] at hhold
      exact h.temp hhold
  knows := (Function.forall_update_iff ps fun _ p => Knows s p).mpr
    ⟨hknows, fun t _ => h.knows t⟩
  right := h.right

theorem Knows.of_eq (h : Knows s p) (hlength : s'.length = s.length)
    (hframe : s'.frame = s.frame) : Knows s' p := by
  cases p with
  | capture k pc => trivial
  | client i pc =>
      cases pc with
      | body announced => exact ⟨h.1.trans hlength.symm, by rw [hframe, hlength]; exact h.2⟩
      | free => exact fun hnone => h (hframe ▸ hnone)
      | _ => trivial

/-- Nobody writes or frees a frame while another thread is inside of the mutex. -/
theorem knows_of_alone (halone : Alone inside Resting ps t) (hin : inside (ps t) .mutex)
    {t' : Tid n} (hne : t' ≠ t) (s' : Shared) : Knows s' (ps t') := by
  have hnot : inside (ps t') .mutex → Resting (ps t') := halone t' .mutex hne hin
  cases hp : ps t' with
  | capture k pc => trivial
  | client i pc =>
      rw [hp] at hnot
      cases pc with
      | body announced =>
          obtain ⟨j, hj⟩ := hnot trivial
          cases hj
      | free =>
          obtain ⟨j, hj⟩ := hnot trivial
          cases hj
      | _ => trivial

theorem knows_update (hself : Knows s' q) (hothers : ∀ t', t' ≠ t → Knows s' (ps t')) :
    ∀ t', Knows s' (Function.update ps t q t') :=
  (Function.forall_update_iff ps fun _ p => Knows s' p).mpr ⟨hself, hothers⟩

theorem Sound.fits_update (h : Sound s ps) (hfits : Fits t q) :
    ∀ t', Fits t' (Function.update ps t q t') :=
  (Function.forall_update_iff ps fun t p => Fits t p).mpr ⟨hfits, fun t _ => h.fits t⟩

/-! ## Steps of the capture thread -/

theorem Sound.setLength (h : Sound s ps)
    (hintime : InTimeAt bytesused s ps (.capture k .setLength)) :
    Sound { s with length := bytesused k }
      (Function.update ps none (.capture k .mallocTemp)) := by
  refine ⟨h.fits_update trivial, h.fresh, h.published, fun hhold => ?_,
    knows_update trivial fun t ht => ?_, ⟨h.right.sent, h.right.once⟩⟩
  · rw [Function.update_self] at hhold
    exact hhold.elim
  · have hknows := h.knows t
    rcases hintime with hsame | hnone
    · exact hknows.of_eq hsame rfl
    · cases hpt : ps t with
      | capture k pc => trivial
      | client i pc =>
          rw [hpt] at hknows
          cases pc with
          | body announced =>
              cases t with
              | none => exact absurd rfl ht
              | some j => exact absurd (hpt ▸ trivial) (hnone j)
          | free => exact hknows
          | _ => trivial

theorem Sound.mallocTemp (h : Sound s ps) :
    Sound { s.malloc with temp := some s.allocated }
      (Function.update ps none (.capture k .lock)) := by
  refine ⟨h.fits_update trivial, fun b hb => h.fresh b (Nat.le_of_succ_le hb),
    fun b hb => Nat.lt_succ_of_lt (h.published b hb), fun _ => ⟨s.allocated, rfl, ?_⟩,
    knows_update trivial fun t _ => (h.knows t).of_eq rfl (frame_malloc h.published),
    ⟨h.right.sent, h.right.once⟩⟩
  exact ⟨Nat.lt_succ_self _, h.fresh _ le_rfl, fun hb => (h.published _ hb).ne rfl⟩

theorem Sound.publish (h : Sound s ps) (hp : ps none = .capture k .publish)
    (halone : Alone inside Resting ps none) :
    Sound { s.malloc with devconfp := some s.allocated }
      (Function.update ps none (.capture k .unlock)) := by
  obtain ⟨b, htemp, hprivate⟩ := h.temp (hp ▸ trivial)
  refine ⟨h.fits_update trivial, fun b hb => h.fresh b (Nat.le_of_succ_le hb), fun b hb => ?_,
    fun _ => ⟨b, htemp, ?_⟩, knows_update trivial fun t ht => ?_, ⟨h.right.sent, h.right.once⟩⟩
  · cases hb
    exact Nat.lt_succ_self _
  · refine ⟨Nat.lt_succ_of_lt hprivate.allocated, hprivate.live, fun heq => ?_⟩
    exact hprivate.allocated.ne (Option.some.inj heq).symm
  · exact knows_of_alone halone (hp ▸ trivial) ht _

theorem frees_free {b b' : ℕ} : (s.free (some b)).frees b' =
    if b' = b then s.frees b + 1 else s.frees b' := by
  simp [Shared.free, Function.update_apply]

theorem Right.free {b : ℕ} (h : Right s) (hlive : s.frees b = 0) :
    Right (s.free (some b)) := by
  refine ⟨h.sent, fun b' => ?_⟩
  rw [frees_free]
  split
  · rw [hlive]
  · exact h.once b'

theorem Sound.fresh_free (h : Sound s ps) {b : ℕ} (hb : b < s.allocated) :
    ∀ b', s.allocated ≤ b' → (s.free (some b)).frees b' = 0 := by
  intro b' hb'
  rw [frees_free, if_neg (hb.trans_le hb').ne']
  exact h.fresh b' hb'

theorem Sound.freeTemp (h : Sound s ps) (hp : ps none = .capture k .freeTemp) :
    Sound (s.free s.temp) (Function.update ps none (.capture (k + 1) .setLength)) := by
  obtain ⟨b, htemp, hprivate⟩ := h.temp (hp ▸ trivial)
  rw [htemp]
  refine ⟨h.fits_update trivial, h.fresh_free hprivate.allocated, h.published, fun hhold => ?_,
    knows_update trivial fun t _ => (h.knows t).of_eq rfl (frame_free hprivate.ne),
    h.right.free hprivate.live⟩
  rw [Function.update_self] at hhold
  exact hhold.elim

/-! ## Steps of the clients -/

theorem Sound.body (h : Sound s ps) {announced : ℕ} (hp : ps (some i) = .client i (.body announced))
    (hfits : Fits (some i) q) (hknows : Knows s q) :
    Sound { s with sent := s.sent ++ [⟨announced, s.length, s.frame⟩] }
      (Function.update ps (some i) q) := by
  have hself := h.knows (some i)
  rw [hp] at hself
  obtain ⟨rfl, hframe⟩ := hself
  refine ⟨h.fits_update hfits, h.fresh, h.published, fun hhold => ?_,
    knows_update (hknows.of_eq rfl rfl) fun t _ => (h.knows t).of_eq rfl rfl, ?_, h.right.once⟩
  · rw [Function.update_of_ne (Option.some_ne_none i).symm] at hhold
    obtain ⟨b, htemp, hprivate⟩ := h.temp hhold
    exact ⟨b, htemp, hprivate.allocated, hprivate.live, hprivate.ne⟩
  · intro w hw
    rcases List.mem_append.mp hw with hw | hw
    · exact h.right.sent w hw
    · cases List.mem_singleton.mp hw
      exact ⟨hframe, hframe⟩

theorem Sound.free (h : Sound s ps) (hp : ps (some i) = .client i .free)
    (halone : Alone inside Resting ps (some i)) :
    Sound (s.free s.devconfp) (Function.update ps (some i) (.client i .unlock)) := by
  have hself := h.knows (some i)
  rw [hp] at hself
  obtain ⟨size, hframe⟩ := Option.ne_none_iff_exists'.mp hself
  obtain ⟨b, hdev, hlive, -⟩ := exists_of_frame hframe
  rw [hdev]
  refine ⟨h.fits_update rfl, h.fresh_free (h.published b hdev), h.published, fun hhold => ?_,
    knows_update trivial fun t ht => knows_of_alone halone (hp ▸ trivial) ht _, h.right.free hlive⟩
  rw [Function.update_of_ne (Option.some_ne_none i).symm] at hhold
  obtain ⟨b', htemp, hprivate⟩ := h.temp hhold
  refine ⟨b', htemp, hprivate.allocated, ?_, hprivate.ne⟩
  have hne : b' ≠ b := fun heq => hprivate.ne (by rw [hdev, heq])
  rw [frees_free, if_neg hne]
  exact hprivate.live

/-! ## Runs -/

theorem Sound.capture (h : Sound s ps) {pc : CapturePc} (hp : ps none = .capture k pc)
    (hintime : InTimeAt bytesused s ps (.capture k pc)) (halone : Alone inside Resting ps none)
    (hq : (code bytesused snapshot s (.capture k pc)).next? = some q) :
    Sound ((code bytesused snapshot s (.capture k pc)).after s) (Function.update ps none q) := by
  cases pc with
  | setLength =>
      cases hq
      exact h.setLength hintime
  | mallocTemp =>
      cases hq
      exact h.mallocTemp
  | lock | unlock | broadcast =>
      cases hq
      exact h.move trivial (fun _ => hp ▸ trivial) trivial
  | publish =>
      cases hq
      exact h.publish hp halone
  | freeTemp =>
      cases hq
      exact h.freeTemp hp

theorem Sound.client (h : Sound s ps) {pc : ClientPc} (hp : ps (some i) = .client i pc)
    (hintime : InTimeAt bytesused s ps (.client i pc))
    (halone : Alone inside Resting ps (some i))
    (hq : (code bytesused snapshot s (.client i pc)).next? = some q) :
    Sound ((code bytesused snapshot s (.client i pc)).after s)
      (Function.update ps (some i) q) := by
  have hmove : ∀ pc', Knows s (.client i pc') →
      Sound s (Function.update ps (some i) (.client i pc')) := fun pc' hknows =>
    h.move rfl (fun hhold => hhold.elim) hknows
  cases pc with
  | lock | wait =>
      cases hq
      exact hmove _ trivial
  | header =>
      cases hq
      exact hmove _ ⟨rfl, hintime⟩
  | body announced =>
      have hself := h.knows (some i)
      rw [hp] at hself
      cases hq
      split
      · refine h.body hp rfl fun hnone => ?_
        rw [hself.2] at hnone
        cases hnone
      · exact h.body hp rfl trivial
  | free =>
      cases hq
      exact h.free hp halone
  | unlock =>
      cases hq
      split <;> exact hmove _ trivial
  | returned => cases hq

theorem Sound.step (h : Sound s ps) (hintime : InTime bytesused s ps t)
    (halone : Alone inside Resting ps t)
    (hq : (code bytesused snapshot s (ps t)).next? = some q) :
    Sound ((code bytesused snapshot s (ps t)).after s) (Function.update ps t q) := by
  have hfits := h.fits t
  rw [InTime] at hintime
  cases t with
  | none =>
      cases hp : ps none <;> rw [hp] at hfits hq hintime
      case capture k pc => exact h.capture hp hintime halone hq
      all_goals exact hfits.elim
  | some i =>
      cases hp : ps (some i) <;> rw [hp] at hfits hq hintime
      case client j pc =>
        obtain rfl : j = i := hfits
        exact h.client hp hintime halone hq
      all_goals exact hfits.elim

/-- The runs that meet the condition. -/
abbrev InTimeRun (bytesused : ℕ → ℕ) (snapshot : Fin n → Bool) :
    Config (Tid n) Shared (Point n) Mutex Cond → Prop :=
  (program bytesused snapshot).ReachableBy (Meets (InTime bytesused) fun _ _ _ => True)

theorem sound_of_inTime (h : InTimeRun bytesused snapshot c) : Sound c.shared (points c) := by
  apply conditional_invariant (P := fun s ps _ => Sound s ps) tracks_code resting_of_wait
    not_inside_start h sound_start
  · exact fun _ _ _ _ _ _ hsound _ hintime halone hq _ => hsound.step hintime halone hq
  · exact fun _ _ _ _ _ hsound _ _ => hsound

/-! ## The condition is needed -/

/-- A thread that is not behind its wait runs. -/
theorem running_of_points (h : (program bytesused snapshot).Reachable c) (hp : points c t = p)
    (hne : ¬ Resting p) : c.threads t = .running p := by
  subst hp
  exact running_of_not_resting resting_of_wait h hne

/-- A client that writes a frame of another length, or none, does it wrong. -/
theorem leads_of_body {o : Mutex → Option (Tid n)}
    {threads : Tid n → Status (Point n) Mutex Cond} {announced : ℕ}
    (hbad : s.frame = some announced → s.frame ≠ some s.length) :
    (program bytesused snapshot).Leads (fun c => ¬ Right c.shared)
      (turn o s threads (some i) (.client i (.body announced))) := by
  refine leads_run rfl (.here fun hright => ?_)
  have hlast := hright.sent ⟨announced, s.length, s.frame⟩
    (List.mem_append_right _ (List.mem_singleton_self _))
  exact hbad hlast.1 hlast.2

theorem leads_of_not_meets {a : Action (Tid n)} (h : InTimeRun bytesused snapshot c)
    (hs : (program bytesused snapshot).step c a = some c')
    (hbad : ¬ Meets (InTime bytesused) (fun _ _ _ => True) c a) :
    (program bytesused snapshot).Leads (fun c => ¬ Right c.shared) c' := by
  have hsound := sound_of_inTime h
  cases a with
  | spurious t => exact absurd trivial hbad
  | run t w =>
      have hs : step (code bytesused snapshot) c (.run t w) = some c' := hs
      simp only [Meets, Classical.not_imp, InTime] at hbad
      obtain ⟨hrunning, hlack⟩ := hbad
      obtain ⟨p, ht⟩ := exists_of_running hrunning
      obtain rfl : points c t = p := points_of_running ht
      have hfits := hsound.fits t
      cases hp : points c t with
      | client i pc =>
          rw [hp] at hlack hfits ht
          cases pc with
          | header =>
              simp only [step, ht, code, sendMsg, exec, Option.some.injEq] at hs
              subst hs
              cases t with
              | none => exact hfits.elim
              | some j =>
                  obtain rfl : i = j := hfits
                  exact leads_of_body fun hframe => absurd hframe hlack
          | _ => exact absurd trivial hlack
      | capture k pc =>
          rw [hp] at hlack hfits ht
          cases pc with
          | setLength =>
              simp only [InTimeAt, not_or, not_forall, not_not] at hlack
              obtain ⟨hchanged, i, hwriting⟩ := hlack
              have hfitsi := hsound.fits (some i)
              have hknows := hsound.knows (some i)
              cases hpi : points c (some i) <;> rw [hpi] at hwriting hfitsi hknows
              case capture => exact hfitsi.elim
              case client j pc =>
                obtain rfl : j = i := hfitsi
                cases pc with
                | body announced =>
                    obtain ⟨rfl, hframe⟩ := hknows
                    have hi := running_of_points h.reachable hpi (by rintro ⟨j, ⟨⟩⟩)
                    simp only [step, ht, code, frameCapture, exec, Option.some.injEq] at hs
                    subst hs
                    have hne : some j ≠ t := by
                      rintro rfl
                      exact hfits.elim
                    have hi' : (⟨c.owner, { c.shared with length := bytesused k },
                        Function.update c.threads t (.running (.capture k .mallocTemp))⟩ :
                        Config (Tid n) Shared (Point n) Mutex Cond).threads (some j) =
                        .running (.client j (.body c.shared.length)) := by
                      simpa [Function.update_of_ne hne] using hi
                    rw [← turn_self hi']
                    refine leads_of_body fun _ hwritten => hchanged ?_
                    have hsame : c.shared.frame = some (bytesused k) := hwritten
                    rw [hframe] at hsame
                    exact (Option.some.inj hsame).symm
                | _ => exact hwriting.elim
          | _ => exact absurd trivial hlack

/-- For any number of clients, of each kind, any frames and any interleaving: in a run in which each
client goes on behind its wait with a frame that has not been freed and has the size `length`, which
does not change while a client writes, all frames are written right and freed once; the
first step against this leads to a frame that is written wrong. -/
theorem sent_right_until_late (bytesused : ℕ → ℕ) (snapshot : Fin n → Bool) (c)
    (h : InTimeRun bytesused snapshot c) :
    Right c.shared ∧ ∀ a c', (program bytesused snapshot).step c a = some c' →
      ¬ Meets (InTime bytesused) (fun _ _ _ => True) c a →
      (program bytesused snapshot).Leads (fun c => ¬ Right c.shared) c' :=
  ⟨(sound_of_inTime h).right, fun _ _ hs hbad => leads_of_not_meets h hs hbad⟩

/-- Two clients wait for the first frame, which the capture thread publishes. -/
def waiting (i j : Fin 2) : List (Action (Tid 2)) :=
  List.replicate 2 (Action.run (some i) none) ++ List.replicate 2 (Action.run (some j) none) ++
    List.replicate 6 (Action.run none none)

/-- Of two snapshot clients only the first one gets the frame in time. -/
def first (i j : Fin 2) : Option (Config (Tid 2) Shared (Point 2) Mutex Cond) :=
  ((program (fun _ => 100) fun _ => true).guarded (Meets (InTime fun _ => 100)
    fun _ _ _ => True)).exec (program (fun _ => 100) fun _ => true).init
    (waiting i j ++ List.replicate 5 (Action.run (some i) none))

theorem sent_right_first : ∃ c, first 0 1 = some c ∧ Right c.shared ∧
    c.shared.sent = [⟨100, 100, some 100⟩] := by
  have hrun : (first 0 1).any
      (fun c => decide (c.shared.sent = [⟨100, 100, some 100⟩])) = true := by decide
  obtain ⟨c, hexec, hsent⟩ := (Option.any_eq_true _ _).mp hrun
  have hreach : InTimeRun (fun _ => 100) (fun _ => true) c := .of_exec hexec
  exact ⟨c, hexec, (sent_right_until_late _ _ c hreach).1, of_decide_eq_true hsent⟩

/-- The second one writes it behind the `free` of the first one. -/
def second (i j : Fin 2) : Option (Config (Tid 2) Shared (Point 2) Mutex Cond) :=
  (program (fun _ => 100) fun _ => true).exec (program (fun _ => 100) fun _ => true).init
    (waiting i j ++ List.replicate 5 (Action.run (some i) none) ++
      List.replicate 4 (Action.run (some j) none))

/-- The frame is written after it has been freed, and freed again. -/
theorem sent_after_free : ¬ ∀ (n : ℕ) (bytesused : ℕ → ℕ) (snapshot : Fin n → Bool) c,
    (program bytesused snapshot).Reachable c → Right c.shared := by
  intro hright
  have hrun : (second 0 1).any (fun c => decide (⟨100, 100, none⟩ ∈ c.shared.sent)) = true := by
    decide
  obtain ⟨c, hexec, hsent⟩ := (Option.any_eq_true _ _).mp hrun
  have hlive := (hright 2 (fun _ => 100) (fun _ => true) c
    (System.Reachable.init.exec hexec)).sent _ (of_decide_eq_true hsent)
  cases hlive.1

end PthreadBenchmark.CameraThread
