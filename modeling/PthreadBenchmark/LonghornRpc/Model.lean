import PthreadBenchmark.Shared.PthreadSignals
import Mathlib.Data.Finset.Basic

/-! # The RPC client of `longhorn-rpc-client.c`

Any number of calls of `process_request` add their requests to `msg_table`, where
`response_process` looks up the messages that it receives. A thread that touches a request that
has been freed stops at `fault`. -/

namespace PthreadBenchmark.LonghornRpc

/-! ## `uthash.h` -/

/-- The tables of `uthash`, with the requests of `n` calls as entries. `hashFind` compares its key
with the ones that it reads from the entries. -/
class Uthash (n : outParam ℕ) (τ : Type) where
  empty : τ
  entries : τ → Finset (Fin n)
  hashAdd : τ → Fin n → τ
  hashDel : τ → Fin n → τ
  hashFind : τ → (Fin n → Option (BitVec 32)) → BitVec 32 → Option (Fin n)
  entries_empty : entries empty = ∅
  entries_hashAdd : ∀ table i, i ∉ entries table →
    entries (hashAdd table i) = insert i (entries table)
  entries_hashDel : ∀ table i, i ∈ entries table →
    entries (hashDel table i) = (entries table).erase i
  hashFind_some : ∀ table keys key i, hashFind table keys key = some i →
    i ∈ entries table ∧ keys i = some key
  hashFind_none : ∀ table keys key, hashFind table keys key = none →
    ∀ i ∈ entries table, keys i ≠ some key

open Uthash (entries)

/-- A list of entries in the order in which they have been added. -/
instance (n : ℕ) : Uthash n (List (Fin n)) where
  empty := []
  entries := List.toFinset
  hashAdd table i := table ++ [i]
  hashDel table i := table.filter (· ≠ i)
  hashFind table keys key := table.find? fun i => keys i = some key
  entries_empty := List.toFinset_nil
  entries_hashAdd table i _ := by
    ext j
    simp
  entries_hashDel table i _ := by
    ext j
    simp [and_comm]
  hashFind_some table keys key i h :=
    ⟨List.mem_toFinset.mpr (List.mem_of_find?_eq_some h), by simpa using List.find?_some h⟩
  hashFind_none table keys key h i hi := by
    simpa using List.find?_eq_none.mp h i (List.mem_toFinset.mp hi)

/-! ## Messages -/

abbrev Bytes := ℕ → UInt8

/-- `memcpy`, and `memset` where `src` is constant. -/
def overwrite (dst src : Bytes) (len : ℕ) : Bytes := fun k => if k < len then src k else dst k

/-- The request of a call in its `struct Message`. `data` is the call whose buffer it is. -/
structure Request (n : ℕ) where
  seq : BitVec 32
  type : BitVec 32
  offset : ℤ
  dataLength : ℕ
  data : Fin n

/-- A received `struct Message`, with the `DataLength` bytes from `Data` on. -/
structure Response where
  seq : BitVec 32
  type : BitVec 32
  offset : ℤ
  data : List UInt8

def Response.dataLength (resp : Response) : ℕ := resp.data.length

/-- What is in memory from `resp->Data` on, if `behind` is there behind the data. -/
def Response.memory (resp : Response) (behind : Bytes) : Bytes := fun b =>
  resp.data.getD b (behind (b - resp.dataLength))

def typeResponse : BitVec 32 := 1
def typeRead : BitVec 32 := 2
def typeWrite : BitVec 32 := 3

def enomem : ℤ := 12
def efault : ℤ := 14

structure Args where
  count : ℕ
  offset : ℤ
  type : BitVec 32

variable {n : ℕ} {τ : Type}

/-- What the callers pass and the system returns. `malloc` fails or returns a block with any
contents. `receive k` is what the call `k` of `receive_msg` returns, and `behind k` what is in
memory behind the data of this message. -/
structure Env (n : ℕ) where
  args : Fin n → Args
  bufs : Fin n → Bytes
  malloc : Fin n → Option (Request n)
  condInit : Fin n → ℤ
  mutexInit : Fin n → ℤ
  respMalloc : Bool
  receive : ℕ → ℤ × Response
  behind : ℕ → Bytes

/-- How many messages had been received when a request entered `msg_table`, and of how many
`response_process` had finished the lookup. -/
structure Entry where
  received : ℕ
  handled : ℕ
  deriving DecidableEq, Repr

/-- The connection, the requests and the buffers of the calls. The last fields record the
history: what `new_seq` has returned to whom, when each request has entered `msg_table`, and which
messages have been copied into the buffers of which calls. -/
structure Shared (n : ℕ) (τ : Type) where
  seq : BitVec 32
  msgTable : τ
  reqs : Fin n → Option (Request n)
  bufs : Fin n → Bytes
  received : ℕ
  handled : ℕ
  issued : List (Fin n × BitVec 32)
  entered : Fin n → Option Entry
  completions : List (Fin n × ℕ)

def Shared.setReq (s : Shared n τ) (i : Fin n) (req : Option (Request n)) : Shared n τ :=
  { s with reqs := Function.update s.reqs i req }

def sendMsg (_ : Request n) : ℤ := 0

def sendRequest (req : Request n) : ℤ := sendMsg req

/-! ## Threads -/

inductive Mutex (n : ℕ) where
  | conn
  | req (i : Fin n)
  deriving DecidableEq, Repr

/-- Points of `process_request`. -/
inductive CallPc where
  | malloc
  | checkType
  | newSeq
  | fill
  | memset
  | condInit
  | mutexInit
  | lockConn
  | add
  | unlockConn
  | lockReq
  | send
  | wait (rc : ℤ)
  | unlockReq (rc : ℤ)
  | free (rc : ℤ)
  | returned (rc : ℤ)
  | unlockFailed (rc : ℤ)
  | freeFailed (rc : ℤ)
  | failed (rc : ℤ)
  deriving DecidableEq, Repr

/-- Points of `response_process`, with the number of the message in `resp`. -/
inductive ResponsePc (n : ℕ) where
  | malloc
  | receive
  | checkType (k : ℕ) (resp : Response)
  | find (k : ℕ) (resp : Response)
  | del (k : ℕ) (resp : Response) (req : Fin n)
  | copy (k : ℕ) (resp : Response) (req : Fin n)
  | signal (req : Fin n)
  | exited

inductive Point (n : ℕ) where
  | call (i : Fin n) (pc : CallPc)
  | response (pc : ResponsePc n)
  | fault

/-- The calls, and `response_process` as `none`. -/
abbrev Tid (n : ℕ) := Option (Fin n)

abbrev Step (n : ℕ) (τ : Type) := Op (Tid n) (Shared n τ) (Point n) (Mutex n) (Fin n)

/-- An access to the request of the call `i`. -/
def deref (s : Shared n τ) (i : Fin n) (access : Request n → Step n τ) : Step n τ :=
  match s.reqs i with
  | none => .run s .fault
  | some req => access req

variable [Uthash n τ]

/-- No request in `msg_table` has been freed, so that `uthash` can follow its pointers. -/
def Alive (s : Shared n τ) : Prop := ∀ i ∈ entries s.msgTable, (s.reqs i).isSome = true

instance (s : Shared n τ) : Decidable (Alive s) :=
  inferInstanceAs (Decidable (∀ i ∈ entries s.msgTable, _))

/-- `HASH_FIND_INT`. -/
def hashFind (s : Shared n τ) (key : BitVec 32) : Option (Fin n) :=
  Uthash.hashFind s.msgTable (fun i => (s.reqs i).map Request.seq) key

def processRequest (env : Env n) (s : Shared n τ) (i : Fin n) : CallPc → Step n τ
  | .malloc =>
    match env.malloc i with
    | none => .run s (.call i (.failed (-enomem)))
    | some req => .run (s.setReq i (some req)) (.call i .checkType)
  | .checkType =>
    .run s (.call i
      (if (env.args i).type ≠ typeRead ∧ (env.args i).type ≠ typeWrite then .freeFailed (-efault)
        else .newSeq))
  | .newSeq => deref s i fun req =>
    .run { s.setReq i (some { req with seq := s.seq }) with
        seq := s.seq + 1
        issued := s.issued ++ [(i, s.seq)] }
      (.call i .fill)
  | .fill => deref s i fun req =>
    .run
      (s.setReq i (some { req with
        type := (env.args i).type
        offset := (env.args i).offset
        dataLength := (env.args i).count
        data := i }))
      (.call i .memset)
  | .memset => deref s i fun req =>
    .run
      (if req.type = typeRead then
        { s with
          bufs := Function.update s.bufs req.data
            (overwrite (s.bufs req.data) (fun _ => 0) (env.args i).count) }
        else s)
      (.call i .condInit)
  | .condInit =>
    .run s (.call i (if env.condInit i ≠ 0 then .freeFailed (-efault) else .mutexInit))
  | .mutexInit =>
    .run s (.call i (if env.mutexInit i ≠ 0 then .freeFailed (-efault) else .lockConn))
  | .lockConn => .lock .conn (.call i .add)
  | .add =>
    if Alive s then
      .run { s with
          msgTable := Uthash.hashAdd s.msgTable i
          entered := Function.update s.entered i (some ⟨s.received, s.handled⟩) }
        (.call i .unlockConn)
    else .run s .fault
  | .unlockConn => .unlock .conn (.call i .lockReq)
  | .lockReq => .lock (.req i) (.call i .send)
  | .send => deref s i fun req =>
    .run s (.call i
      (if sendRequest req < 0 then .unlockFailed (sendRequest req) else .wait (sendRequest req)))
  | .wait rc => .wait i (.req i) (.call i (.unlockReq rc))
  | .unlockReq rc => .unlock (.req i) (.call i (.free rc))
  | .free rc => .run (s.setReq i none) (.call i (.returned rc))
  | .unlockFailed rc => .unlock (.req i) (.call i (.freeFailed rc))
  | .freeFailed rc => .run (s.setReq i none) (.call i (.failed rc))
  | .returned _ | .failed _ => .halt

def responseProcess (env : Env n) (s : Shared n τ) : ResponsePc n → Step n τ
  | .malloc => .run s (.response (if env.respMalloc then .receive else .exited))
  | .receive =>
    if (env.receive s.received).1 = 0 then
      .run { s with received := s.received + 1 }
        (.response (.checkType s.received (env.receive s.received).2))
    else .run s (.response .exited)
  | .checkType k resp =>
    if resp.type ≠ typeResponse then .run { s with handled := k + 1 } (.response .receive)
    else .run s (.response (.find k resp))
  | .find k resp =>
    if Alive s then
      .run { s with handled := k + 1 } (.response
        (match hashFind s resp.seq with
          | none => .receive
          | some i => .del k resp i))
    else .run s .fault
  | .del k resp i =>
    if Alive s then
      .run { s with msgTable := Uthash.hashDel s.msgTable i } (.response (.copy k resp i))
    else .run s .fault
  | .copy k resp i => deref s i fun req =>
    .run { s with
        bufs := Function.update s.bufs req.data
          (overwrite (s.bufs req.data) (resp.memory (env.behind k)) req.dataLength)
        completions := s.completions ++ [(i, k)] }
      (.response (.signal i))
  | .signal i => deref s i fun _ => .signal i (.response .receive)
  | .exited => .halt

def code (env : Env n) (s : Shared n τ) : Point n → Step n τ
  | .call i pc => processRequest env s i pc
  | .response pc => responseProcess env s pc
  | .fault => .halt

def start : Tid n → Point n
  | some i => .call i .malloc
  | none => .response .malloc

/-- All calls on a new connection, in which no thread wakes up without a signal. -/
def program (env : Env n) :
    System (Config (Tid n) (Shared n τ) (Point n) (Mutex n) (Fin n)) (Action (Tid n)) :=
  Pthread.signalledProgram (code env)
    { seq := 0
      msgTable := Uthash.empty
      reqs := fun _ => none
      bufs := env.bufs
      received := 0
      handled := 0
      issued := []
      entered := fun _ => none
      completions := [] }
    start

end PthreadBenchmark.LonghornRpc
