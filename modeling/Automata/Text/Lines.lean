/-
Lines of a text, and the uniform newlines of a text file.

A line ends at a line break; a carriage return with a line feed after it
is one break. The last line need not be ended, and an ended last line is
not followed by an empty one.
-/
import Automata.Text.CodeRanges

namespace Automata.Text

/-- Line feed, vertical tab, form feed, carriage return, the file, group
and record separators, next line, and the line and paragraph separators. -/
def lineBreakRanges : CodeRanges :=
  [(0xA, 0xD), (0x1C, 0x1E), (0x85, 0x85), (0x2028, 0x2029)]

/-- Whether a character ends a line. -/
def isLineBreak (c : Char) : Bool := lineBreakRanges.contains c

/-- The lines, without their breaks. -/
def lines : List Char → List (List Char)
  | [] => []
  | '\r' :: '\n' :: cs => [] :: lines cs
  | c :: cs =>
    if isLineBreak c then [] :: lines cs
    else
      match lines cs with
      | [] => [[c]]
      | l :: ls => (c :: l) :: ls

/-- The text with a line feed for each carriage return, alone or before
a line feed. -/
def uniformNewlines : List Char → List Char
  | [] => []
  | '\r' :: '\n' :: cs => '\n' :: uniformNewlines cs
  | '\r' :: cs => '\n' :: uniformNewlines cs
  | c :: cs => c :: uniformNewlines cs

end Automata.Text
