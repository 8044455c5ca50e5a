/-
Drawings of automata as DOT source.

Every state is a node, an accepting one with a double circle. A point
marks the start. The letters that lead from one state to another share
one edge. States go in size order, so they have to be comparable, and
edges in the order in which a walk over states and letters first meets
them. A state is written everywhere as it is among the states. Names and
labels spell out states and letters, so no number among these may have
too many digits.

Main statement: `mem_arcsOf` says which edges are drawn, and with which
letters.
-/
import Automata.Distinct
import Automata.Dot.Quoting
import Automata.Report

namespace Automata

namespace Dot

/-- An edge of a drawing, with the letters on it. -/
structure Arc where
  source : Symbol
  target : Symbol
  letters : List Symbol
  deriving DecidableEq

/-- A drawing: the states with whether they accept, the start, and the
edges between states. -/
structure Drawing where
  states : List (Symbol × Bool)
  start : Symbol
  arcs : List Arc
  deriving DecidableEq

/-- The edges for transitions: one for each pair of states, with the
letters in the order of the transitions. -/
def arcsOf (ts : List Transition) : List Arc :=
  (distinct (ts.map fun t => (t.source, t.target))).map fun (s, t) =>
    ⟨s, t, (ts.filter fun u => decide (u.source = s ∧ u.target = t)).map Transition.letter⟩

/-- An edge is drawn just where some transition leads across, and it
bears the letters of those that do. -/
theorem mem_arcsOf {ts : List Transition} {a : Arc} :
    a ∈ arcsOf ts ↔
      (∃ u ∈ ts, u.source = a.source ∧ u.target = a.target) ∧
        a.letters = (ts.filter fun u =>
          decide (u.source = a.source ∧ u.target = a.target)).map Transition.letter := by
  obtain ⟨s, t, ls⟩ := a
  simp only [arcsOf, List.mem_map, mem_distinct, Prod.exists, Prod.mk.injEq, Arc.mk.injEq]
  constructor
  · intro h
    obtain ⟨s', t', ⟨u, hu, rfl, rfl⟩, rfl, rfl, rfl⟩ := h
    exact ⟨⟨u, hu, rfl, rfl⟩, rfl⟩
  · intro h
    obtain ⟨⟨u, hu, rfl, rfl⟩, h⟩ := h
    exact ⟨u.source, u.target, ⟨u, hu, rfl, rfl⟩, rfl, rfl, h.symm⟩

/-- The colour of lines and text. -/
def foreground : String := "white"

/-- The colour of the ground, where none is asked for. -/
def defaultBackground : String := "#002b36"

/-- The name of the node that marks the start. -/
def startMarker : List Char := "init".toList

/-- The name of the node of a state. -/
def nodeName (s : Symbol) : List Char := withoutPort ('q' :: s.spelling.toList)

/-- The text on an edge. -/
def Arc.label (a : Arc) : String := ",".intercalate (a.letters.map Symbol.spelling)

/-- A statement: what it is about, and attributes in brackets. -/
def statement (subject : List Char) (attributes : List (String × List Char)) : String :=
  .ofList subject ++ " [" ++
    ", ".intercalate (attributes.map fun (key, value) => key ++ "=" ++ .ofList value) ++ "];"

/-- The ends of an edge, joined by an arrow. -/
def arrow (source target : List Char) : List Char :=
  edgeEnd source ++ " -> ".toList ++ edgeEnd target

/-- The statement of the node of a state. -/
def nodeStatement (s : Symbol) (accepting : Bool) : String :=
  statement (identifier (nodeName s))
    [ ("label", attributeValue s.spelling.toList),
      ("shape", (if accepting then "doublecircle" else "circle").toList),
      ("color", foreground.toList),
      ("fontcolor", foreground.toList) ]

/-- The statement of an edge. -/
def arcStatement (a : Arc) : String :=
  statement (arrow (nodeName a.source) (nodeName a.target))
    [ ("label", attributeValue a.label.toList),
      ("color", foreground.toList),
      ("fontcolor", foreground.toList) ]

/-- The lines of the source of a drawing. -/
def Drawing.lines (d : Drawing) (background : String) : List String :=
  [ "digraph G \x7b",
    "rankdir=LR;",
    "bgcolor=" ++ .ofList (attributeValue background.toList) ++ ";" ] ++
  (d.states.map fun (s, accepting) => nodeStatement s accepting) ++
  [ statement startMarker
      [("shape", "point".toList), ("label", attributeValue []), ("color", foreground.toList)],
    statement (arrow startMarker (nodeName d.start)) [("color", foreground.toList)] ] ++
  d.arcs.map arcStatement ++
  [ "\x7d" ]

/-- The source of a drawing; every line is ended. -/
def Drawing.source (d : Drawing) (background : String) : String :=
  .join ((d.lines background).map (· ++ "\n"))

/-- The number of nodes, the start marker among them. -/
def Drawing.nodeCount (d : Drawing) : Nat := d.states.length + 1

/-- The number of edges, the one from the start marker among them. -/
def Drawing.edgeCount (d : Drawing) : Nat := d.arcs.length + 1

end Dot

/-- The symbol as the set has it, if it lies in the set. -/
def SymbolSet.written (s : SymbolSet) (x : Symbol) : Symbol := (s.find? x).getD x

/-- The drawing of an automaton. -/
def Automaton.drawing (A : Automaton) : Except Fault Dot.Drawing := do
  let states ← A.states.sizeOrder
  -- names and labels are written out before anything is drawn
  let _ ← (states ++ A.letters).mapM Symbol.text
  return {
    states := states.map fun s => (s, decide (s ∈ A.accepting))
    start := A.states.written A.start
    arcs := Dot.arcsOf ((A.transitionsFrom states).map fun t =>
      { t with target := A.states.written t.target }) }

end Automata
