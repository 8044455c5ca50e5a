/-
Text files: bytes read as strict UTF-8, with uniform newlines.

A file that is not UTF-8 is refused with what is wrong with the first
sequence that no character has: its first byte starts none, a later byte
does not go on with it, or the file ends inside it.
-/
import Automata.Text.Lines

namespace Automata.Text

/-- What is wrong with a sequence of bytes that is no character. -/
inductive Utf8Flaw where
  | invalidStart
  | invalidContinuation
  | truncated
  deriving DecidableEq

/-- What is wrong, in words. -/
def Utf8Flaw.text : Utf8Flaw → String
  | invalidStart => "invalid start byte"
  | invalidContinuation => "invalid continuation byte"
  | truncated => "unexpected end of data"

/-- The ranges that the bytes after a first byte have to lie in. -/
def continuations? (b : UInt8) : Option (List (UInt8 × UInt8)) :=
  let tail := (0x80, 0xBF)
  if b < 0x80 then some []
  else if b < 0xC2 then none
  else if b < 0xE0 then some [tail]
  else if b = 0xE0 then some [(0xA0, 0xBF), tail]
  else if b = 0xED then some [(0x80, 0x9F), tail]
  else if b < 0xF0 then some [tail, tail]
  else if b = 0xF0 then some [(0x90, 0xBF), tail, tail]
  else if b = 0xF4 then some [(0x80, 0x8F), tail, tail]
  else if b < 0xF4 then some [tail, tail, tail]
  else none

/-- The first flaw, where bytes in the given ranges are still owed to a
character that has begun. -/
def firstFlaw? : List (UInt8 × UInt8) → List UInt8 → Option Utf8Flaw
  | [], [] => none
  | _ :: _, [] => some .truncated
  | [], b :: bs =>
    match continuations? b with
    | none => some .invalidStart
    | some owed => firstFlaw? owed bs
  | (lo, hi) :: owed, b :: bs =>
    if lo ≤ b ∧ b ≤ hi then firstFlaw? owed bs else some .invalidContinuation

/-- The text of a file with the given bytes. -/
def ofBytes (bytes : ByteArray) : Except Utf8Flaw (List Char) :=
  match String.fromUTF8? bytes with
  | some s => .ok (uniformNewlines s.toList)
  | none => .error ((firstFlaw? [] bytes.data.toList).getD .invalidStart)

end Automata.Text
