import PthreadBenchmark.DnsDiscovery.Model
import PthreadBenchmark.Shared.PthreadRules

/-! # Each thread copies the whole word list

The position in the word list is shared, but each thread rewinds it and reads to the end under the
mutex. So the blocks of a thread do not depend on the others. -/

namespace PthreadBenchmark.DnsDiscovery

open CString Pthread

variable {threads : ℕ} {wordlist domain : Text} {resolve : Resolve threads} {report : Bool}
  {s : Shared threads} {ps : Fin threads → Thread threads} {i : Fin threads}
  {t q : Thread threads} {p : Point} {file rest : Text}
  {c : Config (Fin threads) (Shared threads) (Thread threads) Mutex Empty}

/-! ## Lines of a file -/

theorem fgets_isPrefix (n : ℕ) (rest : Text) : fgets n rest <+: rest := by
  induction rest generalizing n with
  | nil => cases n <;> exact List.nil_prefix
  | cons c rest ih =>
      cases n with
      | zero => exact List.nil_prefix
      | succ n =>
          rw [fgets]
          split
          · exact ⟨rest, rfl⟩
          · exact List.prefix_cons_inj c |>.mpr (ih n)

theorem fgets_eq_nil_iff : fgets (lineSize - 1) rest = [] ↔ rest = [] := by
  refine ⟨fun h => ?_, fun h => by rw [h]; rfl⟩
  cases rest with
  | nil => rfl
  | cons c rest =>
      have hsize : lineSize - 1 = 254 + 1 := rfl
      rw [hsize, fgets] at h
      split at h <;> cases h

theorem length_drop_lt (hrest : rest ≠ []) :
    (rest.drop (fgets (lineSize - 1) rest).length).length < rest.length := by
  have hline : 0 < (fgets (lineSize - 1) rest).length :=
    List.length_pos_iff.mpr fun h => hrest (fgets_eq_nil_iff.mp h)
  have hpos : 0 < rest.length := List.length_pos_iff.mpr hrest
  rw [List.length_drop]
  omega

theorem readLines_of_le {n m : ℕ} (hn : rest.length ≤ n) (hm : rest.length ≤ m) :
    readLines n rest = readLines m rest := by
  induction n generalizing rest m with
  | zero =>
      obtain rfl : rest = [] := List.length_eq_zero_iff.mp (Nat.le_zero.mp hn)
      cases m <;> rfl
  | succ n ih =>
      by_cases hrest : rest = []
      · subst hrest
        cases m <;> rfl
      · have hlt := length_drop_lt hrest
        obtain ⟨m, rfl⟩ : ∃ k, m = k + 1 := Nat.exists_eq_succ_of_ne_zero (by omega)
        simp only [readLines]
        rw [ih (m := m) (by omega) (by omega)]

theorem fileLines_of_ne (hrest : rest ≠ []) :
    fileLines rest = fgets (lineSize - 1) rest ::
      fileLines (rest.drop (fgets (lineSize - 1) rest).length) := by
  have hlt := length_drop_lt hrest
  obtain ⟨n, hn⟩ : ∃ n, rest.length = n + 1 := Nat.exists_eq_succ_of_ne_zero (by omega)
  have hline : fgets (lineSize - 1) rest ≠ [] := fun h => hrest (fgets_eq_nil_iff.mp h)
  rw [fileLines, hn, readLines]
  simp only [if_neg hline]
  rw [fileLines, readLines_of_le (by omega) le_rfl]

theorem copied_nil : copied [] = [] := rfl

theorem copied_of_ne (hrest : rest ≠ []) :
    copied rest = text (fgets (lineSize - 1) rest) ++
      copied (rest.drop (fgets (lineSize - 1) rest).length) := by
  rw [copied, fileLines_of_ne hrest]
  rfl

/-- A file without zero bytes is copied as it is. -/
theorem copied_eq_self (hzero : 0 ∉ file) : copied file = file := by
  induction hn : file.length using Nat.strong_induction_on generalizing file with
  | _ n ih =>
      by_cases hfile : file = []
      · rw [hfile]
        rfl
      · have hlt := length_drop_lt hfile
        have hstart := fgets_isPrefix (lineSize - 1) file
        have hline : 0 ∉ fgets (lineSize - 1) file := fun h => hzero (hstart.subset h)
        have hdrop : 0 ∉ file.drop (fgets (lineSize - 1) file).length :=
          fun h => hzero (List.mem_of_mem_drop h)
        rw [copied_of_ne hfile, text_eq_self hline, ih _ (hn ▸ hlt) hdrop rfl]
        exact List.prefix_iff_eq_append.mp hstart

/-! ## The lock -/

def inside (t : Thread threads) (_ : Mutex) : Prop :=
  match t.point with
  | .lock | .loop _ _ | .lockBlock _ _ _ _ | .exited => False
  | .rewind | .fgets _ | .fputs _ _ | .unlock _ | .printHost _ _ _ _ | .report _ _ _ _
  | .print _ _ _ => True

theorem tracks (s : Shared threads) (t : Thread threads) :
    Tracks inside t (code (ι := Fin threads) wordlist domain resolve s t) := by
  obtain ⟨i, point⟩ := t
  cases point with
  | lock | unlock | lockBlock => exact fun m => by cases m; simp [inside]
  | rewind | fputs | printHost | report => exact fun _ => Iff.rfl
  | fgets copy =>
      simp only [code]
      split <;> exact fun _ => Iff.rfl
  | loop rest calls =>
      simp only [code]
      split
      · exact fun _ => Iff.rfl
      · split <;> exact fun _ => Iff.rfl
  | print todo rest calls =>
      cases todo with
      | nil => exact fun m => by cases m; simp [inside]
      | cons line todo => exact fun _ => Iff.rfl
  | exited => trivial

theorem not_inside_start (i : Fin threads) (m : Mutex) : ¬ inside ⟨i, .lock⟩ m := id

/-! ## The blocks of each thread -/

/-- The blocks that the thread has not begun yet. -/
def left (wordlist domain : Text) (resolve : Resolve threads) (t : Thread threads) :
    List (List Line) :=
  match t.point with
  | .lock | .rewind | .fgets _ | .fputs _ _ | .unlock _ =>
    blocksOf domain resolve t.id 0 (fileLines (copied wordlist))
  | .loop rest calls | .report _ _ rest calls | .print _ rest calls =>
    blocksOf domain resolve t.id calls (fileLines rest)
  | .lockBlock host addresses rest calls | .printHost host addresses rest calls =>
    (.hostname host :: addressLines addresses) ::
      blocksOf domain resolve t.id calls (fileLines rest)
  | .exited => []

/-- What the thread copies at the shared position is what is still missing. -/
def Copies (wordlist : Text) (position : ℕ) (t : Thread threads) : Prop :=
  match t.point with
  | .fgets copy => copy ++ copied (wordlist.drop position) = copied wordlist
  | .fputs copy line => copy ++ text line ++ copied (wordlist.drop position) = copied wordlist
  | .unlock copy => copy = copied wordlist
  | _ => True

/-- The blocks of the thread, among those that have been begun. -/
def begun (blocks : List (Fin threads × List Line)) (i : Fin threads) : List (List Line) :=
  (blocks.filter fun b => b.1 = i).map Prod.snd

structure Progress (wordlist domain : Text) (resolve : Resolve threads) (s : Shared threads)
    (ps : Fin threads → Thread threads) : Prop where
  id : ∀ i, (ps i).id = i
  copies : ∀ i, Copies wordlist s.position (ps i)
  blocks : ∀ i, begun s.blocks i ++ left wordlist domain resolve (ps i) =
    blocksOf domain resolve i 0 (fileLines (copied wordlist))

theorem begun_append (blocks : List (Fin threads × List Line)) (i j : Fin threads)
    (block : List Line) :
    begun (blocks ++ [(i, block)]) j = begun blocks j ++ if i = j then [block] else [] := by
  rw [begun, begun, List.filter_append, List.map_append]
  by_cases h : i = j <;> simp [h]

theorem Copies.of_not_inside {position position' : ℕ} (h : Copies wordlist position t)
    (hout : ¬ inside t .mutexsum) : Copies wordlist position' t := by
  obtain ⟨i, point⟩ := t
  cases point with
  | fgets | fputs => exact absurd trivial hout
  | _ => exact h

/-- A step that begins no block. -/
theorem Progress.move {s' : Shared threads} (h : Progress wordlist domain resolve s ps)
    (hid : q.id = i) (hblocks : s'.blocks = s.blocks)
    (hposition : s'.position = s.position ∨ ∀ j, j ≠ i → ¬ inside (ps j) .mutexsum)
    (hcopies : Copies wordlist s'.position q)
    (hleft : left wordlist domain resolve q = left wordlist domain resolve (ps i)) :
    Progress wordlist domain resolve s' (Function.update ps i q) where
  id := by
    apply (Function.forall_update_iff ps fun i t => t.id = i).mpr
    exact ⟨hid, fun j _ => h.id j⟩
  copies := by
    apply (Function.forall_update_iff ps fun _ t => Copies wordlist s'.position t).mpr
    refine ⟨hcopies, fun j hj => ?_⟩
    rcases hposition with heq | hout
    · rw [heq]
      exact h.copies j
    · exact (h.copies j).of_not_inside (hout j hj)
  blocks := by
    rw [hblocks]
    apply (Function.forall_update_iff ps fun i t =>
      begun s.blocks i ++ left wordlist domain resolve t = _).mpr
    exact ⟨by rw [hleft]; exact h.blocks i, fun j _ => h.blocks j⟩

/-- A step that begins a block. -/
theorem Progress.begin {s' : Shared threads} {block : List Line}
    (h : Progress wordlist domain resolve s ps) (hid : q.id = i)
    (hblocks : s'.blocks = s.blocks ++ [(i, block)]) (hposition : s'.position = s.position)
    (hcopies : Copies wordlist s.position q)
    (hleft : left wordlist domain resolve (ps i) = block :: left wordlist domain resolve q) :
    Progress wordlist domain resolve s' (Function.update ps i q) where
  id := by
    apply (Function.forall_update_iff ps fun i t => t.id = i).mpr
    exact ⟨hid, fun j _ => h.id j⟩
  copies := by
    rw [hposition]
    apply (Function.forall_update_iff ps fun _ t => Copies wordlist s.position t).mpr
    exact ⟨hcopies, fun j _ => h.copies j⟩
  blocks := by
    rw [hblocks]
    apply (Function.forall_update_iff ps fun i t =>
      begun (s.blocks ++ _) i ++ left wordlist domain resolve t = _).mpr
    refine ⟨?_, fun j hj => ?_⟩
    · rw [begun_append, if_pos rfl, List.append_assoc, List.singleton_append, ← hleft]
      exact h.blocks i
    · rw [begun_append, if_neg (Ne.symm hj), List.append_nil]
      exact h.blocks j

theorem left_loop {calls : ℕ} (hrest : rest ≠ [])
    (hresolve : resolve i calls (hostname (fgets (lineSize - 1) rest) domain) = none) :
    left wordlist domain resolve
        ⟨i, .loop (rest.drop (fgets (lineSize - 1) rest).length) (calls + 1)⟩ =
      left wordlist domain resolve ⟨i, .loop rest calls⟩ := by
  simp only [left]
  rw [fileLines_of_ne hrest, blocksOf, hresolve]

theorem left_lockBlock {calls : ℕ} {addresses : List Address} (hrest : rest ≠ [])
    (hresolve : resolve i calls (hostname (fgets (lineSize - 1) rest) domain) = some addresses) :
    left wordlist domain resolve
        ⟨i, .lockBlock (hostname (fgets (lineSize - 1) rest) domain) addresses
          (rest.drop (fgets (lineSize - 1) rest).length) (calls + 1)⟩ =
      left wordlist domain resolve ⟨i, .loop rest calls⟩ := by
  simp only [left]
  rw [fileLines_of_ne hrest, blocksOf, hresolve]

theorem copied_drop {position : ℕ} {line : Text} (hne : line ≠ [])
    (hline : line = fgets (lineSize - 1) (wordlist.drop position)) :
    text line ++ copied (wordlist.drop (position + line.length)) =
      copied (wordlist.drop position) := by
  have hrest : wordlist.drop position ≠ [] := fun h => hne (hline.trans (fgets_eq_nil_iff.mpr h))
  rw [copied_of_ne hrest, ← hline, List.drop_drop]

theorem Progress.fgets {copy line : Text} (h : Progress wordlist domain resolve s ps)
    (hp : ps i = ⟨i, .fgets copy⟩)
    (hline : line = DnsDiscovery.fgets (lineSize - 1) (wordlist.drop s.position))
    (hout : ∀ j, j ≠ i → ¬ inside (ps j) .mutexsum) :
    Progress wordlist domain resolve { s with position := s.position + line.length }
      (Function.update ps i ⟨i, if line = [] then .unlock copy else .fputs copy line⟩) := by
  have hcopies := h.copies i
  rw [hp] at hcopies
  have hcopied : copy ++ copied (wordlist.drop s.position) = copied wordlist := hcopies
  by_cases hnil : line = []
  · have hrest : wordlist.drop s.position = [] := fgets_eq_nil_iff.mp (hline.symm.trans hnil)
    rw [if_pos hnil]
    refine h.move rfl rfl (.inr hout) ?_ (by rw [hp]; rfl)
    rwa [hrest, copied_nil, List.append_nil] at hcopied
  · rw [if_neg hnil]
    refine h.move rfl rfl (.inr hout) ?_ (by rw [hp]; rfl)
    rw [← copied_drop hnil hline, ← List.append_assoc] at hcopied
    exact hcopied

theorem Progress.loop {calls : ℕ} (h : Progress wordlist domain resolve s ps)
    (hp : ps i = ⟨i, .loop rest calls⟩)
    (hq : (code (ι := Fin threads) wordlist domain resolve s ⟨i, .loop rest calls⟩).next? =
      some q) :
    Progress wordlist domain resolve
      ((code (ι := Fin threads) wordlist domain resolve s ⟨i, .loop rest calls⟩).after s)
      (Function.update ps i q) := by
  simp only [code] at hq ⊢
  by_cases hrest : rest = []
  · subst hrest
    have hnil : DnsDiscovery.fgets (lineSize - 1) [] = [] := rfl
    rw [if_pos hnil] at hq ⊢
    cases hq
    exact h.move rfl rfl (.inl rfl) trivial (by rw [hp]; rfl)
  · rw [if_neg (mt fgets_eq_nil_iff.mp hrest)] at hq ⊢
    cases hresolve : resolve i calls (hostname (DnsDiscovery.fgets (lineSize - 1) rest) domain) with
    | none =>
        simp only [hresolve] at hq ⊢
        cases hq
        exact h.move rfl rfl (.inl rfl) trivial (by rw [hp]; exact left_loop hrest hresolve)
    | some addresses =>
        simp only [hresolve] at hq ⊢
        cases hq
        exact h.move rfl rfl (.inl rfl) trivial
          (by rw [hp]; exact left_lockBlock hrest hresolve)

theorem Progress.step (h : Progress wordlist domain resolve s ps)
    (hunique : ∀ j m, inside (ps i) m → inside (ps j) m → j = i)
    (hq : (code (ι := Fin threads) wordlist domain resolve s (ps i)).next? = some q) :
    Progress wordlist domain resolve
      ((code (ι := Fin threads) wordlist domain resolve s (ps i)).after s)
      (Function.update ps i q) := by
  have hid := h.id i
  have hcopies := h.copies i
  have hout : inside (ps i) .mutexsum → ∀ j, j ≠ i → ¬ inside (ps j) .mutexsum :=
    fun hin j hj hinj => hj (hunique j .mutexsum hin hinj)
  obtain ⟨i', point, hp⟩ : ∃ i' point, ps i = ⟨i', point⟩ := ⟨_, _, rfl⟩
  rw [hp] at hid
  obtain rfl : i' = i := hid
  rw [hp] at hq hcopies hout ⊢
  cases point with
  | lock =>
      cases hq
      exact h.move rfl rfl (.inl rfl) trivial (by rw [hp]; rfl)
  | rewind =>
      cases hq
      exact h.move rfl rfl (.inr (hout trivial)) rfl (by rw [hp]; rfl)
  | fgets copy =>
      cases hq
      exact h.fgets hp rfl (hout trivial)
  | fputs copy line =>
      cases hq
      exact h.move rfl rfl (.inl rfl) hcopies (by rw [hp]; rfl)
  | unlock copy =>
      cases hq
      have hcopy : copy = copied wordlist := hcopies
      exact h.move rfl rfl (.inl rfl) trivial (by rw [hp, hcopy]; rfl)
  | loop rest calls => exact h.loop hp hq
  | lockBlock host addresses rest calls =>
      cases hq
      exact h.move rfl rfl (.inl rfl) trivial (by rw [hp]; rfl)
  | printHost host addresses rest calls =>
      cases hq
      exact h.begin rfl rfl rfl trivial (by rw [hp]; rfl)
  | report line todo rest calls =>
      cases hq
      exact h.move rfl rfl (.inl rfl) trivial (by rw [hp]; rfl)
  | print todo rest calls =>
      cases todo with
      | nil =>
          cases hq
          exact h.move rfl rfl (.inl rfl) trivial (by rw [hp]; rfl)
      | cons line todo =>
          cases hq
          exact h.move rfl rfl (.inl rfl) trivial (by rw [hp]; rfl)
  | exited => cases hq

theorem progress_of_reachable (h : (program wordlist domain resolve report).Reachable c) :
    Progress wordlist domain resolve c.shared (points c) := by
  refine exclusive_invariant tracks not_wait not_inside_start h ?_
    fun _ _ _ _ hprogress hunique hq => hprogress.step hunique hq
  exact ⟨fun _ => rfl, fun _ => trivial, fun _ => rfl⟩

end PthreadBenchmark.DnsDiscovery
