import PthreadBenchmark.Shared.Int32

/-! # The packets of a server in `con_ser.c`

Each round of `receive_thread` reads one packet. Its `uint32_t` sizes wrap around, and `realloc` and
`malloc` succeed. Of the buffers it is followed how long they are and what is accessed. -/

namespace PthreadBenchmark.ConSer

/-- What the missing headers define: the labels of a `switch`, which are different, and the number
of bytes that `GET64BIT` reads. -/
structure Commands where
  antoanNop : UInt32
  sertodatDiskInfo : UInt32
  sertodatCreatChunk : UInt32
  get64bit : ℕ
  nop_ne_diskInfo : antoanNop ≠ sertodatDiskInfo
  nop_ne_creatChunk : antoanNop ≠ sertodatCreatChunk
  diskInfo_ne_creatChunk : sertodatDiskInfo ≠ sertodatCreatChunk
  get64bit_eq : get64bit = 8

/-- `buff` is null, or it has some number of bytes. -/
structure Threc where
  buff : Option UInt32
  buffsize : UInt32
  sent : UInt8
  status : UInt8
  release : UInt8
  size : UInt32
  cmd : UInt32
  packetid : UInt32
  deriving DecidableEq, Repr

/-- A write of `length` bytes at `buff + offset`, or a read of one byte of a packet. -/
inductive Access where
  | payload (offset length buffsize allocated : UInt32)
  | decode (index : ℕ) (received : UInt32)
  deriving DecidableEq, Repr

structure State where
  fd : ℤ
  disconnect : Bool
  threcs : List Threc
  deriving DecidableEq, Repr

/-- What the calls return in one round, and the packet whose first 12 bytes are read. -/
structure Inputs where
  tcpsocket : ℤ
  tcpconnect : ℤ
  read : ℤ
  cmd : UInt32
  size : UInt32
  packetid : UInt32
  tcptoread : ℤ
  tcptowrite : ℤ

def fsBufferInit (rec : Threc) (size : UInt32) : Threc :=
  if size > 10000 then { rec with buff := some size, buffsize := size }
  else if rec.buffsize > 10000 then { rec with buff := some 10000, buffsize := 10000 }
  else rec

/-- The position of the first record with this number. -/
def fsGetThrecById (threcs : List Threc) (packetid : UInt32) : Option (Fin threcs.length) :=
  threcs.findFinIdx? (·.packetid == packetid)

def lost (s : State) : State := { s with disconnect := true }

def decodes (c : Commands) (received : UInt32) : List Access :=
  (List.range c.get64bit).map (.decode · received)

def getChunkid (c : Commands) (s : State) (i : Inputs) (received : UInt32) :
    State × List Access :=
  if s.disconnect = false ∧ s.fd ≥ 0 ∧ i.tcptowrite ≠ 16 then (lost s, decodes c received)
  else (s, decodes c received)

def analyzeSerPacket (c : Commands) (s : State) (i : Inputs) (type size : UInt32) :
    State × List Access :=
  if i.tcptoread ≠ toInt size.toNat then (lost s, [])
  else if type = c.sertodatCreatChunk then getChunkid c s i size
  else (s, [])

/-- `analyze_ser_cmd` returns 0. -/
def analyzeSerCmd (c : Commands) (type : UInt32) : Prop :=
  type = c.antoanNop ∨ type = c.sertodatDiskInfo ∨ type = c.sertodatCreatChunk

instance (c : Commands) (type : UInt32) : Decidable (analyzeSerCmd c type) :=
  inferInstanceAs (Decidable (_ ∨ _ ∨ _))

def connectSer (s : State) (i : Inputs) : State :=
  if i.tcpconnect < 0 then { s with fd := -1 }
  else { s with fd := i.tcpsocket, disconnect := false }

/-- The round up to `read`. -/
def reconnect (s : State) (i : Inputs) : State :=
  let s := if s.fd = -1 ∧ s.disconnect = true then connectSer s i else s
  if s.disconnect then { s with fd := -1 } else s

/-- A packet has come in completely. -/
def Threc.complete (rec : Threc) (cmd size : UInt32) : Threc :=
  { rec with sent := 0, status := 0, size := size, cmd := cmd, release := 1 }

/-- The record, whether the connection is lost, and the write to the buffer, if there is one. -/
def receivePayload (old : Threc) (i : Inputs) (size : UInt32) : Threc × Bool × List Access :=
  let new := fsBufferInit old (old.size + size)
  match new.buff with
  | none => (new, true, [])
  | some allocated =>
    if size > 0 then
      let accesses := [.payload new.size size new.buffsize allocated]
      if i.tcptoread = 0 ∨ i.tcptoread ≠ toInt size.toNat then (new, true, accesses)
      else (new.complete i.cmd size, false, accesses)
    else (new.complete i.cmd size, false, [])

/-- The round from the call of `fs_get_threc_by_id` on. -/
def receiveRecord (s : State) (i : Inputs) (size : UInt32) : State × List Access :=
  match fsGetThrecById s.threcs i.packetid with
  | none => (lost s, [])
  | some k =>
    let (rec, connectionLost, accesses) := receivePayload (s.threcs.get k) i size
    ({ s with
        disconnect := s.disconnect || connectionLost
        threcs := s.threcs.set k rec },
      accesses)

/-- One round of `receive_thread`. -/
def receive (c : Commands) (s : State) (i : Inputs) : State × List Access :=
  let s := reconnect s i
  if s.fd = -1 then (s, [])
  else if i.read = 0 ∨ i.read ≠ 12 then (lost s, [])
  else if i.cmd = c.antoanNop ∧ i.size = 4 then (s, [])
  else if i.size < 4 then (lost s, [])
  else
    let size := i.size - 4
    if analyzeSerCmd c i.cmd then analyzeSerPacket c s i i.cmd size
    else receiveRecord s i size

def receiveThread (c : Commands) : State → List Inputs → State × List Access
  | s, [] => (s, [])
  | s, i :: rest =>
    let (s, accesses) := receive c s i
    let (s, more) := receiveThread c s rest
    (s, accesses ++ more)

end PthreadBenchmark.ConSer
