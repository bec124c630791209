import PthreadBenchmark.Shared.Int32
import PthreadBenchmark.Shared.Scanf

/-! # The messages of a channel in `cpap2psg.c`

The loop of `functionFIFO2DA` over one message. A string is the list of its characters, and the
pointer into the buffer is the string from there on. -/

namespace PthreadBenchmark.CpapDac

open Scanf

/-- `"0x%x"` -/
def hexFormat : List Directive := [.char '0', .char 'x', .integer 16]

/-- `"%d"` -/
def decimalFormat : List Directive := [.integer 10]

/-- What the loop does that can be seen from outside. -/
inductive Event where
  | writeDAC (channel value : ℤ)
  | waitTick (channel : ℤ)
  | invalidNumber (text : List Char)
  deriving DecidableEq, Repr

/-- The string before the next comma, in place of which `strchr` has found the end of the string. -/
def untilComma (walkInBuffer : List Char) : List Char := walkInBuffer.takeWhile (· ≠ ',')

/-- `toNullPos + 1`, if there is a comma. -/
def behindComma (walkInBuffer : List Char) : Option (List Char) :=
  (walkInBuffer.dropWhile (· ≠ ',')).tail?

/-- `readInt` behind a call of `sscanf`, which stores a value in it only if it has one. -/
def assigned (s : Scanned) (readInt : ℤ) : ℤ := s.values.head?.elim readInt toInt

/-- The result of the last `sscanf` and `readInt` behind both. -/
def readNumber (text : List Char) (readInt : ℤ) : ℤ × ℤ :=
  let hex := sscanf hexFormat text
  if hex.result = 0 then
    let decimal := sscanf decimalFormat text
    (decimal.result, assigned decimal (assigned hex readInt))
  else (hex.result, assigned hex readInt)

/-- The rounds of the loop, or nothing if they are more than `fuel`. At the beginning `readInt` has
any value. -/
def parseLoop (channel : ℤ) : ℕ → List Char → ℤ → Option (List Event)
  | 0, _, _ => none
  | fuel + 1, walkInBuffer, readInt =>
    let text := untilComma walkInBuffer
    let (stringIndex, readInt) := readNumber text readInt
    let events :=
      if stringIndex = 0 then [.invalidNumber text]
      else [.writeDAC channel readInt, .waitTick channel]
    match behindComma walkInBuffer with
    | none => some events
    | some rest =>
      if rest.length > 0 then (parseLoop channel fuel rest readInt).map (events ++ ·)
      else some events

end PthreadBenchmark.CpapDac
