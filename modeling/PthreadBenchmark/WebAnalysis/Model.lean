import PthreadBenchmark.Shared.Int32
import Mathlib.Data.List.Infix

/-! # The bodies of POST requests in `web_analysis.c`

`analysis_web_from_http` puts the entities of a request together in a static buffer. Its `int`s wrap
around. The buffer is a place in a larger memory, and all writes to it are listed. -/

namespace PthreadBenchmark.WebAnalysis

/-- `1024 * 1024 * 100` -/
def bufferSize : ℤ := 1024 * 1024 * 100

/-- `entity_content` points to at least `entity_length` bytes. -/
structure Entity where
  entityLength : ℤ
  entityContent : ℕ → UInt8

/-- `entity_list` may be null. -/
structure Http where
  type : ℤ
  method : String
  host : String
  uri : String
  referer : String
  entityList : Option (List Entity)

structure Tuple4 where
  saddr : ℕ
  daddr : ℕ

/-- `data` tells whether the pointer is to `buffer_postdata` or null. -/
structure WebInformation where
  request : String
  host : String
  url : String
  referer : String
  time : ℤ
  dataLength : ℤ
  dataType : Option String
  data : Bool
  srcip : String
  dstip : String

/-- The bytes from the start of the buffer on, and the offset and the length of each write. -/
structure Buffer where
  bytes : ℤ → UInt8
  writes : List (ℤ × ℤ)

/-- `memcpy` to an offset of the buffer. -/
def Buffer.write (b : Buffer) (offset : ℤ) (source : List UInt8) : Buffer where
  bytes a :=
    if offset ≤ a ∧ a < offset + source.length then source.getD (a - offset).toNat 0 else b.bytes a
  writes := b.writes ++ [(offset, (source.length : ℤ))]

def segment : List UInt8 := [10]

namespace Entity

/-- The entity is left out by both loops. -/
def Skipped (e : Entity) : Prop := e.entityLength ≤ 0 ∨ e.entityLength > bufferSize

instance (e : Entity) : Decidable e.Skipped := inferInstanceAs (Decidable (_ ∨ _))

def content (e : Entity) : List UInt8 := (List.range e.entityLength.toNat).map e.entityContent

end Entity

/-- The first loop, which sums up the lengths. -/
def sumLengths : List Entity → ℤ → ℤ
  | [], length => length
  | e :: rest, length =>
    if e.Skipped then sumLengths rest length
    else sumLengths rest (toInt (toInt (length + e.entityLength) + 1))

/-- The second loop, which copies the contents. -/
def copyEntities : List Entity → ℤ → Buffer → ℤ × Buffer
  | [], length, b => (length, b)
  | e :: rest, length, b =>
    if e.Skipped then copyEntities rest length b
    else
      let b := b.write length e.content
      let length := toInt (length + e.entityLength)
      let b := b.write length segment
      copyEntities rest (toInt (length + 1)) b

/-- `strstr(request, "POST") != 0` -/
def hasPost (request : String) : Bool := decide ("POST".toList <:+: request.toList)

/-- The record that is added, if one is. `PATTERN_REQUEST_HEAD` and `int_ntoa` come from elsewhere,
and the buffer has any content before. -/
def analysisWebFromHttp (patternRequestHead : ℤ) (intNtoa : ℕ → String) (http : Http)
    (currentTime : ℤ) (addr : Tuple4) (buffer : ℤ → UInt8) : Option WebInformation × Buffer :=
  if http.type ≠ patternRequestHead then (none, ⟨buffer, []⟩)
  else
    let webinfo : WebInformation :=
      { request := http.method
        host := http.host
        url := http.uri
        referer := http.referer
        time := currentTime
        dataLength := 0
        dataType := none
        data := false
        srcip := intNtoa addr.saddr
        dstip := intNtoa addr.daddr }
    if hasPost webinfo.request then
      let entities := http.entityList.getD []
      let length := sumLengths entities 0
      if length > 1 ∧ length < bufferSize then
        let cleared := Buffer.write ⟨buffer, []⟩ 0 (List.replicate (length + 1).toNat 0)
        let copied := copyEntities entities length cleared
        (some { webinfo with dataLength := copied.1, dataType := some "", data := true }, copied.2)
      else (some webinfo, ⟨buffer, []⟩)
    else (some webinfo, ⟨buffer, []⟩)

end PthreadBenchmark.WebAnalysis
