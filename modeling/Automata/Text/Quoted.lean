/-
Quoted text: how a message shows a word that it speaks of.

The quotes are single ones, or double ones around a text that holds a
single and no double one. Inside, the backslash and the quote in use
stand behind a backslash; a line feed, a carriage return and a tab are
spelled by a letter, and any other character that is not printable by
its code point in hexadecimal.
-/
import Automata.Text.Printable

namespace Automata.Text

/-- The single quote. -/
def singleQuote : Char := Char.ofNat 0x27

/-- The double quote. -/
def doubleQuote : Char := Char.ofNat 0x22

/-- The quote that a text is put in. -/
def quoteFor (cs : List Char) : Char :=
  if singleQuote ∈ cs ∧ ¬doubleQuote ∈ cs then doubleQuote else singleQuote

/-- A number in hexadecimal, filled up with zeros to a width. -/
def hexadecimal (width n : Nat) : List Char :=
  let digits := Nat.toDigits 16 n
  List.replicate (width - digits.length) '0' ++ digits

/-- A code point spelled in two, four or eight hexadecimal digits. -/
def escapeCode (n : Nat) : List Char :=
  if n ≤ 0xFF then '\\' :: 'x' :: hexadecimal 2 n
  else if n ≤ 0xFFFF then '\\' :: 'u' :: hexadecimal 4 n
  else '\\' :: 'U' :: hexadecimal 8 n

/-- A character as it stands between the given quotes. -/
def escape (quote c : Char) : List Char :=
  if c = quote ∨ c = '\\' then ['\\', c]
  else if c = '\n' then ['\\', 'n']
  else if c = '\r' then ['\\', 'r']
  else if c = '\t' then ['\\', 't']
  else if isPrintable c then [c]
  else escapeCode c.toNat

/-- The text in quotes. -/
def quoted (cs : List Char) : List Char :=
  let quote := quoteFor cs
  quote :: (cs.flatMap (escape quote) ++ [quote])

/-- The string in quotes. -/
def quote (s : String) : String := String.ofList (quoted s.toList)

end Automata.Text
