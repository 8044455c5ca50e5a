/-
Integer numerals: an optional sign, then decimal digits of any script,
where one underscore may stand between two digits. A numeral of more
than 4300 digits is refused; leading zeros count, the sign and the
underscores do not. The same limit holds for numbers that are written.
-/
import Automata.Text.Digit

namespace Automata.Text

/-- The largest number of digits of a numeral, be it read or written. -/
def maxDigits : Nat := 4300

/-- The least number that takes more digits. -/
@[irreducible]
def digitLimit : Nat := Nat.pow 10 maxDigits

/-- The values of a row of digits, where one underscore may part two of them. -/
def digitRow? : List Char → Option (List Nat)
  | [] => none
  | [c] => (decimalValue? c).map ([·])
  | c :: '_' :: cs => do
    let d ← decimalValue? c
    let ds ← digitRow? cs
    return d :: ds
  | c :: cs => do
    let d ← decimalValue? c
    let ds ← digitRow? cs
    return d :: ds

/-- The number that digits stand for in base ten, the leading one first. -/
def ofDigits (ds : List Nat) : Nat := ds.foldl (fun n d => 10 * n + d) 0

/-- The number of an unsigned numeral. -/
def natural? (cs : List Char) : Option Nat := do
  let ds ← digitRow? cs
  if ds.length ≤ maxDigits then return ofDigits ds else none

/-- The number of a numeral. -/
def integer? : List Char → Option Int
  | '+' :: cs => (natural? cs).map Int.ofNat
  | '-' :: cs => (natural? cs).map fun n => -Int.ofNat n
  | cs => (natural? cs).map Int.ofNat

end Automata.Text
