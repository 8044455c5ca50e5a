/-
The states that the transition graph leads to, and the automaton without
the others.
-/
import Automata.Automaton.Graph

namespace Automata.Automaton

/-- The states that edges of the transition graph lead to from the start,
and the start. -/
def reached (A : Automaton) : SymbolSet := A.diagram.reachedFrom A.start

/-- The reachable nodes of the transition graph. -/
def reachable (A : Automaton) : Except Fault SymbolSet := do
  return (← A.graph).reachedFrom A.start

/-- The automaton without its unreachable states; the automaton itself
if there is none. -/
def prune (A : Automaton) : Except Fault Automaton := do
  let states ← A.reachable
  if states ≈ A.states then return A else A.restrict states

end Automata.Automaton
