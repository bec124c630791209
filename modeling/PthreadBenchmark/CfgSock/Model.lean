import PthreadBenchmark.Shared.CString
import Mathlib.Data.Int.Notation
import Mathlib.Logic.Function.Basic

/-! # The client of `cfgSock.c`

The operations are called one after the other. What the calls of the operating system return in
an operation is given with it. A buffer is known by the string in it. -/

namespace PthreadBenchmark.CfgSock

open CString

/-- What the calls return; a `recv` without a datagram has failed. -/
structure Returns where
  socket : ℤ
  mutexInit : ℤ
  sendto : ℤ
  recv : Option (List UInt8)

/-- The static variables. `atomic` is whether `s_atomic` is initialised, and `reinits` counts how
often `pthread_mutex_init` has been called on it while it was. -/
structure Client where
  siInitFlag : ℤ
  sConfFd : ℤ
  sBufIndex : ℕ
  sConfBuf : ℕ → List UInt8
  atomic : Bool
  reinits : ℕ

def init : Client := ⟨0, -1, 0, fun _ => [], false, 0⟩

/-- The size of each of the four buffers. -/
def bufSize : ℕ := 16384

/-- `"NULL"`. -/
def null : List UInt8 := [78, 85, 76, 76]

/-- What `cfgSockGetValue` returns: its default, or one of the buffers. -/
inductive Pointer where
  | null
  | default (t : Str)
  | confBuf (i : ℕ)

def Pointer.ofDefault : Option Str → Pointer
  | none => .null
  | some t => .default t

/-- `"%c %s.%s %s"`, or `"%c %s %s"` where one of section and key is missing. -/
def request (letter : UInt8) (pSection pKey : Option Str) (value : List UInt8) : List UInt8 :=
  match pSection, pKey with
  | some s, some k => letter :: 32 :: (s.1 ++ 46 :: (k.1 ++ 32 :: value))
  | some s, none => letter :: 32 :: (s.1 ++ 32 :: value)
  | none, some k => letter :: 32 :: (k.1 ++ 32 :: value)
  | none, none => []

def Client.store (s : Client) (i : ℕ) (t : List UInt8) : Client :=
  { s with sConfBuf := Function.update s.sConfBuf i t }

variable (r : Returns)

def cfgSockInit (s : Client) : Client × ℤ :=
  if s.siInitFlag ≠ 0 then (s, 0)
  else if r.socket < 0 then ({ s with sConfFd := r.socket }, -1)
  else if r.mutexInit ≠ 0 then ({ s with sConfFd := -1 }, -1)
  else
    ({ s with
      siInitFlag := 1
      sConfFd := r.socket
      atomic := true
      reinits := if s.atomic then s.reinits + 1 else s.reinits }, 0)

/-- The failure branch closes the socket, and leaves `s_atomic` as it is. -/
def cfgSockSend (command : List UInt8) (s : Client) : Client × ℤ :=
  if s.siInitFlag = 0 then (s, -1)
  else if r.sendto ≠ command.length then ({ s with sConfFd := -1, siInitFlag := 0 }, -1)
  else (s, r.sendto)

/-- `recv(s_conf_fd, buf, len - 1, 0)` into the buffer `i`. -/
def cfgSockRecv (i len : ℕ) (s : Client) : Client × ℤ :=
  if s.siInitFlag = 0 then (s, -1)
  else
    match r.recv with
    | none => (s.store i [], -1)
    | some datagram =>
      let bytes := datagram.take (len - 1)
      (s.store i (if 0 < bytes.length then text bytes else []), bytes.length)

def cfgSockRequest (command : List UInt8) (i len : ℕ) (s : Client) : Client × ℤ :=
  let sent := cfgSockSend r command s
  if 0 ≤ sent.2 then cfgSockRecv r i len sent.1 else sent

/-- The next buffer is taken. -/
def Client.next (s : Client) : Client := { s with sBufIndex := (s.sBufIndex + 1) &&& 3 }

def cfgSockSaveFiles (s : Client) : Client × ℤ :=
  if s.siInitFlag = 0 then (s, -1)
  else ((cfgSockRequest r [115] s.sBufIndex bufSize s.next).1, 0)

def cfgSockUninit (s : Client) : Client × ℤ :=
  if s.siInitFlag = 0 then (s, 0)
  else ({ (cfgSockSaveFiles r s).1 with sConfFd := -1, atomic := false, siInitFlag := 0 }, 0)

def cfgSockSetValue (pSection pKey pValue : Option Str) (s : Client) : Client × ℤ :=
  match pValue with
  | none => (s, -1)
  | some value =>
    if s.siInitFlag = 0 ∨ pSection = none ∧ pKey = none then (s, -1)
    else
      let i := s.sBufIndex
      let command := snprintf bufSize (request 87 pSection pKey value.1)
      ((cfgSockRequest r command i bufSize (s.next.store i command)).1, 0)

/-- The command of `cfgSockGetValue`. -/
def getCommand (pSection pKey pDefault : Option Str) : List UInt8 :=
  snprintf bufSize (request 82 pSection pKey (pDefault.elim null Subtype.val))

/-- What `cfgSockRequest` returns is not looked at. -/
def cfgSockGetValue (pSection pKey pDefault : Option Str) (s : Client) : Client × Pointer :=
  if s.siInitFlag = 0 ∨ pSection = none ∧ pKey = none then (s, .null)
  else
    let i := s.sBufIndex
    let command := getCommand pSection pKey pDefault
    let s' := (cfgSockRequest r command i bufSize (s.next.store i command)).1
    if StrncmpEq (s'.sConfBuf i) null 4 then (s', .ofDefault pDefault) else (s', .confBuf i)

/-- The calls of the operations. -/
inductive Call where
  | init
  | uninit
  | setValue (pSection pKey pValue : Option Str)
  | getValue (pSection pKey pDefault : Option Str)
  | saveFiles

def Client.after (s : Client) : Call × Returns → Client
  | (.init, r) => (cfgSockInit r s).1
  | (.uninit, r) => (cfgSockUninit r s).1
  | (.setValue pSection pKey pValue, r) => (cfgSockSetValue r pSection pKey pValue s).1
  | (.getValue pSection pKey pDefault, r) => (cfgSockGetValue r pSection pKey pDefault s).1
  | (.saveFiles, r) => (cfgSockSaveFiles r s).1

/-- The client behind a sequence of calls. -/
def run (calls : List (Call × Returns)) : Client := calls.foldl Client.after init

end PthreadBenchmark.CfgSock
