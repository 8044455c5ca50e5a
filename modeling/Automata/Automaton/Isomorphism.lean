/-
Isomorphism of automata: whether they differ in the names of their
states only.

The transition graphs are drawn with the start marked, and are searched
for a match of the one with the other. Any search can be put in; the one
here reads a shape off each graph and compares the shapes.
-/
import Automata.Automaton.Graph
import Automata.Automaton.Shape

namespace Automata

/-- A node of a transition graph, with whether it accepts and whether it
is the start. -/
structure MarkedNode where
  name : Symbol
  accepting : Bool
  start : Bool

/-- A transition graph with the start marked. -/
structure MarkedGraph where
  nodes : List MarkedNode
  edges : List Edge

/-- The graph with a node marked as the start. -/
def Graph.mark (g : Graph) (start : Symbol) : MarkedGraph where
  nodes := g.nodes.map fun n => ⟨n.1, n.2, decide (n.1 ≈ start)⟩
  edges := g.edges

namespace MarkedGraph

/-- The names of the nodes. -/
def names (G : MarkedGraph) : SymbolSet := .ofList (G.nodes.map MarkedNode.name)

/-- The letters of all edges. -/
def letters (G : MarkedGraph) : SymbolSet := .ofList (G.edges.flatMap fun e => e.letters.toList)

/-- Where an edge leads that leaves a node and bears a letter. -/
def target? (G : MarkedGraph) (s c : Symbol) : Option Symbol :=
  (G.edges.find? fun e => decide (e.source ≈ s) && decide (c ∈ e.letters)).map Edge.target

/-- The graph with numbers for the names of the nodes and for the letters. -/
def shape (G : MarkedGraph) : Shape :=
  let names := G.names
  let letters := G.letters.toList
  { start := ((G.nodes.find? MarkedNode.start).bind fun n => names.position? n.name).getD 0
    accepting := names.members.map fun s =>
      G.nodes.any fun n => decide (n.name ≈ s) && n.accepting
    moves := names.members.map fun s =>
      letters.map fun c => ((G.target? s c).bind names.position?).getD 0 }

/-- Whether the graphs differ in the names of their nodes only. -/
def alike (G H : MarkedGraph) : Bool := Comparison.alike { left := G.shape, right := H.shape }

end MarkedGraph

namespace Automaton

/-- The transition graph with the start marked. -/
def marked (A : Automaton) : Except Fault MarkedGraph := do
  return (← A.graph).mark A.start

/-- Whether some match of the marked graphs is found by a search. Automata
over different alphabets or of different sizes are told apart before
their graphs are drawn. -/
def isomorphicBy (search : MarkedGraph → MarkedGraph → Bool) (A B : Automaton) :
    Except Fault Bool :=
  if ¬A.alphabet ≈ B.alphabet ∨ A.size ≠ B.size then .ok false
  else do return search (← A.marked) (← B.marked)

/-- Whether some renaming of states takes the one automaton to the other. -/
def isomorphic : Automaton → Automaton → Except Fault Bool := isomorphicBy MarkedGraph.alike

end Automaton

end Automata
