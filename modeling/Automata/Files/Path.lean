/-
Paths: names of places in a tree of files, relative to a working
directory or absolute.

A path is taken apart at the slashes; empty components and single dots
mean nothing and are dropped, double dots are kept. The path that is left
is the one that messages show, and without any component it is a dot. A
text with a null character in it names no path.
-/
namespace Automata

/-- A path, cleaned of components that mean nothing. -/
structure Path where
  /-- The slashes that begin an absolute path; none for a relative one. -/
  root : String
  components : List String
  deriving DecidableEq

namespace Path

/-- The texts between slashes. -/
def segments : List Char → List (List Char)
  | [] => [[]]
  | c :: cs =>
    if c = '/' then [] :: segments cs
    else
      match segments cs with
      | [] => [[c]]
      | s :: ss => (c :: s) :: ss

/-- The root that a text begins with. Two slashes are a root of their
own; any other number is the same as one. -/
def rootOf (cs : List Char) : String :=
  match (cs.takeWhile (· = '/')).length with
  | 0 => ""
  | 2 => "//"
  | _ => "/"

/-- The path that a text names. -/
def ofString (s : String) : Path where
  root := rootOf s.toList
  components :=
    ((segments s.toList).map .ofList).filter fun part => part ≠ "" && part ≠ "."

/-- The path that a text names, unless it names none. -/
def ofString? (s : String) : Option Path := if '\x00' ∈ s.toList then none else some (ofString s)

/-- The path as messages show it. -/
def text (p : Path) : String :=
  if p.root = "" ∧ p.components = [] then "."
  else p.root ++ "/".intercalate p.components

/-- Whether a component has more bytes than the name of a file may have. -/
def isLongName (name : String) : Bool := decide (255 < name.utf8ByteSize)

/-- Whether a path has more bytes than the text of one may have. -/
def isLong (p : Path) : Bool := decide (4095 < p.text.utf8ByteSize)

end Path

end Automata
