import PthreadBenchmark.Shared.CString
import Mathlib.Data.List.Infix

/-! # The loop of `sendOffset`

While the copy goes on, a round receives two messages. The second one is received over the first:
the buffer is cleared at the beginning of a round only. -/

namespace PthreadBenchmark.CopyDeamon

open CString

/-- A message of the client; `clientMessage` has room for more. -/
abbrev Msg := {m : List UInt8 // m.length < 2000 ∧ 0 ∉ m}

/-- `recv(connection, clientMessage, sizeof(clientMessage), 0)`. -/
def recv (clientMessage : List UInt8) (m : Msg) : List UInt8 :=
  m.1 ++ clientMessage.drop m.1.length

/-- `clientMessage` behind the `memset`. -/
def cleared : List UInt8 := List.replicate 2000 0

/-- `"CLOSE"`. -/
def close : List UInt8 := [67, 76, 79, 83, 69]

/-- `"SUSPENDING"`. -/
def suspending : List UInt8 := [83, 85, 83, 80, 69, 78, 68, 73, 78, 71]

/-- `"DONE"`. -/
def done : List UInt8 := [68, 79, 78, 69]

/-- What `sprintf` makes of `"%zu"`. -/
def offsetText (offset : ℕ) : List UInt8 :=
  (Nat.toDigits 10 offset).map fun c => UInt8.ofNat c.toNat

/-- The messages to the client, and the round in which the connection is closed. -/
structure Replies where
  sent : List (List UInt8)
  closedAt : Option ℕ
  deriving DecidableEq, Repr

def Replies.behind (r : Replies) (sent : List (List UInt8)) : Replies :=
  { r with sent := sent ++ r.sent }

/-- The loop from the round `k` on. `copyingDone` and `offset` are what these variables are when
they are read in a round. Without a further message the loop waits in `recv`. -/
def sendOffset (copyingDone : ℕ → Bool) (offset : ℕ → ℕ) : ℕ → List Msg → Replies
  | _, [] => ⟨[], none⟩
  | k, first :: msgs =>
    let clientMessage := recv cleared first
    if copyingDone k then
      let sent := if text clientMessage ≠ suspending then [done] else []
      if text clientMessage ≠ close then
        (sendOffset copyingDone offset (k + 1) msgs).behind sent
      else ⟨sent, some k⟩
    else
      let sent := [offsetText (offset k)]
      match msgs with
      | [] => ⟨sent, none⟩
      | second :: msgs =>
        let clientMessage := recv clientMessage second
        if text clientMessage ≠ close then
          (sendOffset copyingDone offset (k + 1) msgs).behind sent
        else ⟨sent, some k⟩

/-! ## Rounds -/

/-- What is received in a round. -/
inductive Received where
  | one (m : Msg)
  | two (first second : Msg)

/-- The rounds, if none of them closed the connection. -/
def rounds (copyingDone : ℕ → Bool) : ℕ → List Msg → List Received
  | _, [] => []
  | k, first :: msgs =>
    if copyingDone k then .one first :: rounds copyingDone (k + 1) msgs
    else
      match msgs with
      | [] => []
      | second :: msgs => .two first second :: rounds copyingDone (k + 1) msgs

namespace Received

/-- The last message of the round is `"CLOSE"`. -/
def Closes : Received → Prop
  | .one m => m.1 = close
  | .two _ second => second.1 = close

/-- The string that the last test of the round sees. -/
def seen : Received → List UInt8
  | .one m => text (recv cleared m)
  | .two first second => text (recv (recv cleared first) second)

/-- `"CLOSE"` does not come over a longer message, and no beginning of it comes over a message that
goes on like it. -/
def Clean : Received → Prop
  | .one _ => True
  | .two first second =>
    (second.1 = close → first.1.length ≤ close.length) ∧
      ¬ (second.1 <+: close ∧ second.1 ≠ close ∧
        first.1.drop second.1.length = close.drop second.1.length)

instance : DecidablePred Closes
  | .one m => inferInstanceAs (Decidable (m.1 = close))
  | .two _ second => inferInstanceAs (Decidable (second.1 = close))

instance : DecidablePred fun r : Received => r.seen = close := fun _ => inferInstance

end Received

/-! ## What a test sees -/

theorem recv_eq_strncpy (buf : List UInt8) (m : Msg) : recv buf m = strncpy buf m.1 m.1.length :=
  (strncpy_length m.2.2).symm

theorem padded_cleared : Padded 2000 cleared := padded_replicate (by decide)

theorem text_replicate (k : ℕ) : text (List.replicate k 0) = [] := by
  simpa using text_append_replicate (t := []) List.not_mem_nil k

theorem text_recv_cleared (m : Msg) : text (recv cleared m) = m.1 := by
  rw [recv_eq_strncpy, padded_cleared.text_strncpy m.2.2, cleared, text_replicate, List.drop_nil,
    List.append_nil]

/-- The second message has taken the place of the beginning of the first. -/
theorem text_recv_recv (first second : Msg) :
    text (recv (recv cleared first) second) = second.1 ++ first.1.drop second.1.length := by
  have hpadded : Padded 2000 (recv cleared first) := by
    rw [recv_eq_strncpy]
    exact padded_cleared.strncpy first.2.2 first.2.1
  rw [recv_eq_strncpy _ second, hpadded.text_strncpy second.2.2, text_recv_cleared]

theorem Received.seen_iff (r : Received) : (r.seen = close ↔ r.Closes) ↔ r.Clean := by
  cases r with
  | one m =>
      rw [seen, text_recv_cleared]
      simp [Closes, Clean]
  | two first second =>
      rw [seen, text_recv_recv, Closes, Clean]
      by_cases hsecond : second.1 = close
      · simp [hsecond]
      · have hsplit : second.1 ++ first.1.drop second.1.length = close ↔ second.1 <+: close ∧
            first.1.drop second.1.length = close.drop second.1.length := by
          constructor
          · intro heq
            have hbegin : second.1 <+: close := ⟨_, heq⟩
            refine ⟨hbegin, ?_⟩
            rw [← heq, List.drop_left]
          · rintro ⟨hbegin, hrest⟩
            obtain ⟨rest, heq⟩ := hbegin
            rw [hrest, ← heq, List.drop_left]
        simp [hsecond, hsplit]

/-! ## The round that closes the connection -/

theorem findIdx?_cons_eq_iff {α : Type*} (p q : α → Bool) (x : α) (xs : List α) :
    (x :: xs).findIdx? p = (x :: xs).findIdx? q ↔
      p x = q x ∧ (q x = false → xs.findIdx? p = xs.findIdx? q) := by
  rw [List.findIdx?_cons, List.findIdx?_cons]
  cases hp : p x <;> cases hq : q x
  · simp [Option.map_inj_right]
  · cases xs.findIdx? p <;> simp
  · cases xs.findIdx? q <;> simp
  · simp

/-- Two tests find the same place if and only if they agree up to where the second one does. -/
theorem findIdx?_eq_iff {α : Type*} (p q : α → Bool) (xs : List α) :
    xs.findIdx? p = xs.findIdx? q ↔
      ∀ pre x, pre ++ [x] <+: xs → (∀ y ∈ pre, q y = false) → p x = q x := by
  induction xs with
  | nil => simp
  | cons x xs ih =>
      rw [findIdx?_cons_eq_iff, ih]
      constructor
      · rintro ⟨hsame, hrest⟩ pre y hpre hnot
        cases pre with
        | nil =>
            obtain rfl : y = x := (List.cons_prefix_cons.mp hpre).1
            exact hsame
        | cons z pre =>
            obtain ⟨rfl, hpre'⟩ := List.cons_prefix_cons.mp hpre
            exact hrest (hnot z List.mem_cons_self) pre y hpre' fun w hw =>
              hnot w (List.mem_cons_of_mem z hw)
      · intro hall
        refine ⟨hall [] x ⟨xs, rfl⟩ (by simp), fun hq pre y hpre hnot => ?_⟩
        refine hall (x :: pre) y (List.cons_prefix_cons.mpr ⟨rfl, hpre⟩) fun z hz => ?_
        rcases List.mem_cons.mp hz with rfl | hz
        · exact hq
        · exact hnot z hz

theorem map_findIdx?_cons {α : Type*} (p : α → Bool) (x : α) (xs : List α) (k : ℕ) :
    ((x :: xs).findIdx? p).map (· + k) =
      if p x then some k else (xs.findIdx? p).map (· + (k + 1)) := by
  rw [List.findIdx?_cons]
  split
  · simp
  · cases xs.findIdx? p <;> simp [Nat.add_assoc, Nat.add_comm 1 k]

/-- The loop makes its tests on the rounds. The induction is on the messages. -/
theorem closedAt_eq (copyingDone : ℕ → Bool) (offset : ℕ → ℕ) (k : ℕ) (msgs : List Msg) :
    (sendOffset copyingDone offset k msgs).closedAt =
      ((rounds copyingDone k msgs).findIdx? fun r => decide (r.seen = close)).map (· + k) := by
  induction k, msgs using rounds.induct copyingDone with
  | case1 k => rfl
  | case2 k first msgs hdone ih =>
      have hrounds : rounds copyingDone k (first :: msgs) =
          .one first :: rounds copyingDone (k + 1) msgs := by
        rw [rounds.eq_def]
        exact if_pos hdone
      rw [hrounds, map_findIdx?_cons, ← ih, sendOffset.eq_def]
      simp only [if_pos hdone, Received.seen]
      by_cases hseen : text (recv cleared first) = close
      · simp [hseen]
      · simp [hseen, Replies.behind]
  | case3 k first hcopying =>
      simp only [sendOffset, rounds, if_neg hcopying]
      rfl
  | case4 k first hcopying second msgs ih =>
      have hrounds : rounds copyingDone k (first :: second :: msgs) =
          .two first second :: rounds copyingDone (k + 1) msgs := by
        rw [rounds.eq_def]
        exact if_neg hcopying
      rw [hrounds, map_findIdx?_cons, ← ih, sendOffset.eq_def]
      simp only [if_neg hcopying, Received.seen]
      by_cases hseen : text (recv (recv cleared first) second) = close
      · simp [hseen]
      · simp [hseen, Replies.behind]

/-! ## Result -/

/-- For any messages of the client, and in whichever rounds the copy is found done: the connection
is closed in the first round whose last message is `"CLOSE"`, and in no other, if and only if all
rounds up to that one are clean. -/
theorem closedAt_iff (copyingDone : ℕ → Bool) (offset : ℕ → ℕ) (msgs : List Msg) :
    (sendOffset copyingDone offset 0 msgs).closedAt =
        (rounds copyingDone 0 msgs).findIdx? (fun r => decide r.Closes) ↔
      ∀ pre r, pre ++ [r] <+: rounds copyingDone 0 msgs → (∀ r' ∈ pre, ¬ r'.Closes) → r.Clean := by
  have hzero (o : Option ℕ) : o.map (· + 0) = o := Option.map_id'
  rw [closedAt_eq, hzero, findIdx?_eq_iff]
  simp only [decide_eq_false_iff_not, decide_eq_decide, Received.seen_iff]

/-- `"PROGRESS"`, `"CLOSE"`, `"ABCDE"` and `"CLOS"`. -/
def progress : Msg := ⟨[80, 82, 79, 71, 82, 69, 83, 83], by decide⟩

def closing : Msg := ⟨close, by decide⟩

def abcde : Msg := ⟨[65, 66, 67, 68, 69], by decide⟩

def clos : Msg := ⟨[67, 76, 79, 83], by decide⟩

/-- A `"CLOSE"` over a longer message is not found, and one is found where there is none. -/
theorem close_misread :
    (sendOffset (fun _ => false) (fun _ => 0) 0 [progress, closing]).closedAt = none ∧
      (rounds (fun _ => false) 0 [progress, closing]).findIdx? (fun r => decide r.Closes) =
        some 0 ∧
      (sendOffset (fun _ => false) (fun _ => 0) 0 [abcde, clos]).closedAt = some 0 ∧
      (rounds (fun _ => false) 0 [abcde, clos]).findIdx? (fun r => decide r.Closes) = none := by
  simp only [closedAt_eq]
  decide

end PthreadBenchmark.CopyDeamon
