/-
Names and attribute values in DOT source: which texts stand as they are
and which are put in double quotes.

Inside the quotes a double quote, a line feed and a carriage return are
spelled with a backslash; a backslash is not.
-/
import Automata.Text.Alphanumeric
import Automata.Text.Digit
import Automata.Text.Quoted

namespace Automata.Dot

/-- The text in double quotes. -/
def inQuotes (s : List Char) : List Char :=
  let spell (c : Char) : List Char :=
    if c = Text.doubleQuote then ['\\', c]
    else if c = '\n' then ['\\', 'n']
    else if c = '\r' then ['\\', 'r']
    else [c]
  Text.doubleQuote :: (s.flatMap spell ++ [Text.doubleQuote])

/-- The words that DOT keeps for itself, in lower case. -/
def keywords : List String := ["graph", "subgraph", "digraph", "node", "edge", "strict"]

/-- Whether a text is a keyword, in upper or lower case. -/
def isKeyword (s : List Char) : Bool := keywords.contains (.ofList (s.map Char.toLower))

/-- The text without the line feed that may end it. -/
def withoutFinalNewline (s : List Char) : List Char :=
  if s.getLast? = some '\n' then s.dropLast else s

/-- Whether a text is enclosed by two characters, a final line feed apart. -/
def isEnclosed (first last : Char) (s : List Char) : Bool :=
  let s := withoutFinalNewline s
  2 ≤ s.length && s.head? == some first && s.getLast? == some last

/-- Whether a text is written as a quoted string. -/
def isQuotedString (s : List Char) : Bool := isEnclosed Text.doubleQuote Text.doubleQuote s

/-- Whether a text is written as an HTML string. -/
def isHtmlString (s : List Char) : Bool := isEnclosed '<' '>' s

/-- Whether a text is a number: ASCII digits and at most one point, a
final line feed apart. -/
def isNumber (s : List Char) : Bool :=
  let s := withoutFinalNewline s
  s.any Char.isDigit && s.all (fun c => c.isDigit || c == '.') && s.count '.' ≤ 1

/-- Whether a text needs quotes, as far as its characters settle it. -/
def needsQuotes? (s : List Char) : Option Bool :=
  if !s.isEmpty && s.all Text.isDigit then some false
  else if !s.isEmpty && s.all Text.isAlphanumeric then some (s.head?.any Text.isDigit)
  else if s.any (fun c => c.toNat = 0 || 0x7F < c.toNat) && !isQuotedString s && !isHtmlString s then
    some true
  else if isNumber s || isQuotedString s || isHtmlString s then some false
  else none

/-- A text as the value of an attribute. -/
def attributeValue (s : List Char) : List Char :=
  if s.isEmpty || isKeyword s then inQuotes s
  else if needsQuotes? s = some false then s
  else inQuotes s

/-- Whether a character may begin a plain name. -/
def isNameStart (c : Char) : Bool := c.isAlpha || c == '_'

/-- Whether a character may stand in a plain name. -/
def isNameRest (c : Char) : Bool := c.isAlphanum || c == '_'

/-- Whether a text is a plain name, a final line feed apart. -/
def isPlainName (s : List Char) : Bool :=
  match withoutFinalNewline s with
  | [] => false
  | c :: cs => isNameStart c && cs.all isNameRest

/-- Whether a text is a name with colons and quotes inside, a final line
feed apart. -/
def isLooseName (s : List Char) : Bool :=
  match withoutFinalNewline s with
  | [] => false
  | c :: cs =>
    isNameStart c && cs.all (fun d => isNameRest d || d == ':' || d == Text.doubleQuote) &&
      cs.getLast?.any (· != ':')

/-- Whether one side of a colon in a name needs quotes. -/
def partNeedsQuotes (s : List Char) : Bool :=
  if s.isEmpty then true
  else if isKeyword s then false
  else
    match needsQuotes? s with
    | some b => b
    | none => !(isPlainName s || isLooseName s)

/-- A text as a name. -/
def identifier (s : List Char) : List Char :=
  if s.isEmpty then []
  else if isKeyword s then inQuotes s
  else
    match needsQuotes? s with
    | some false => s
    | some true => inQuotes s
    | none =>
      if isPlainName s || isLooseName s then s
      else if s.count ':' = 1 then
        let before := s.takeWhile (· != ':')
        let after := (s.dropWhile (· != ':')).drop 1
        if partNeedsQuotes before || partNeedsQuotes after then inQuotes s else s
      else inQuotes s

-- ========================================================== node names

/-- The name without the port: what follows the first colon is cut off
with it, unless the colon begins or ends the name. -/
def withoutPort (n : List Char) : List Char :=
  let before := n.takeWhile (· != ':')
  let after := (n.dropWhile (· != ':')).drop 1
  if before.isEmpty || after.isEmpty then n else before

/-- A name at the end of an edge: the last colon, unless it begins the
name, parts the node from the port, and each is quoted by itself. -/
def edgeEnd (n : List Char) : List Char :=
  let after := (n.reverse.takeWhile (· != ':')).reverse
  let before := ((n.reverse.dropWhile (· != ':')).drop 1).reverse
  if before.isEmpty then identifier n
  else identifier before ++ ':' :: identifier after

end Automata.Dot
