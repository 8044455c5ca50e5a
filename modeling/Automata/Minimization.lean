/-
Minimization: the reachable states, the refinement of their partition,
and the automaton whose states are its blocks.

Block number `i` becomes the state `i`. Its transitions and whether it
accepts are read off its least member; for a partition that the
refinement leaves as it is, any other member gives the same.
-/
import Automata.Automaton.Reachability
import Automata.Partition.Refinement

namespace Automata

namespace Automaton

/-- The row of a block: the blocks that the letters of the alphabet lead
to from its representative. -/
def quotientRow (A : Automaton) (P : Partition) (rep : Symbol) :
    Except Fault (List (Symbol × Symbol)) := do
  let row ← A.delta.fetch rep
  A.letters.mapM fun c => do
    let j ← P.blockOf (← row.fetch c)
    return (c, .ofNat j)

/-- The automaton with each block of a partition collapsed into a state. -/
def rebuild (A : Automaton) (P : Partition) : Except Fault Automaton := do
  let rows ← P.representatives.mapM (A.quotientRow P)
  let start ← P.blockOf A.start
  Presentation.build
    { states := (List.range P.size).map .ofNat
      alphabet := A.letters
      start := .ofNat start
      accepting := P.representatives.zipIdx.filterMap fun (rep, i) =>
        if rep ∈ A.accepting then some (.ofNat i) else none
      delta := rows.zipIdx.map fun (row, i) => (.ofNat i, row) }

end Automaton

/-- The course of a minimization: the reachable part, its refinement and
the minimal automaton. -/
structure Minimization where
  pruned : Automaton
  refinement : Refinement
  minimized : Automaton
  deriving DecidableEq

namespace Minimization

/-- The partition into states that no word tells apart. -/
def partition (m : Minimization) : Partition := m.refinement.last

/-- The number of rounds of refinement. -/
def rounds (m : Minimization) : Nat := m.refinement.rounds

/-- The state of the minimal automaton for each reachable state. -/
def mapping (m : Minimization) : SymbolMap Symbol :=
  m.partition.index.filterMap fun _ i => some (.ofNat i)

/-- The number of states that merging removed. -/
def removed (m : Minimization) : Int := m.pruned.size - m.minimized.size

end Minimization

namespace Automaton

/-- Prunes, refines and rebuilds. -/
def minimization (A : Automaton) : Except Fault Minimization := do
  let pruned ← A.prune
  let refinement ← pruned.refinements
  let minimized ← pruned.rebuild refinement.last
  return ⟨pruned, refinement, minimized⟩

/-- The minimal automaton for the same language. -/
def minimize (A : Automaton) : Except Fault Automaton := do
  return (← A.minimization).minimized

end Automaton

end Automata
