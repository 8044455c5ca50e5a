/-
How symbols are written: bare in a report, quoted in a message, and a
set as a list in braces. A number of too many digits cannot be written.
-/
import Automata.Symbol.Set
import Automata.Text.Numeral
import Automata.Text.Quoted

namespace Automata

namespace Symbol

/-- The symbol as it is spelled, however long that takes. -/
def spelling : Symbol → String
  | null => "None"
  | bool true => "True"
  | bool false => "False"
  | int n => toString n
  | str s => s

/-- Whether the symbol is one that can be written. -/
def isWritable : Symbol → Bool
  | int n => decide (n.natAbs < Text.digitLimit)
  | _ => true

/-- The symbol as a report shows it, if it can be written. -/
def text? (a : Symbol) : Option String := if a.isWritable then some a.spelling else none

/-- The symbol as a message shows it: a string in quotes, all else bare. -/
def quoted? : Symbol → Option String
  | str s => some (Text.quote s)
  | a => a.text?

end Symbol

/-- The set as a message shows it. -/
def SymbolSet.quoted? (s : SymbolSet) : Option String := do
  return "\x7b" ++ ", ".intercalate (← s.listing.mapM Symbol.quoted?) ++ "\x7d"

end Automata
