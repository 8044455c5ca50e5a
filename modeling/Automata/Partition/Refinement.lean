/-
Refinement of partitions of the states of an automaton.

The signature of a state, against a partition, lists the blocks that the
letters lead to. One round splits every block into the groups of states
with equal signatures, all against the same partition. Refinement starts
from the accepting and the other states and ends with the first round
that splits nothing.
-/
import Automata.Automaton.Basic
import Automata.Distinct
import Automata.Partition.Basic

namespace Automata

namespace Partition

variable (P : Partition) (A : Automaton)

/-- The blocks that the given letters lead to from a state. -/
def signature (s : Symbol) (letters : List Symbol) : Except Fault (List Nat) := do
  let row ← A.delta.fetch s
  letters.mapM fun c => do P.blockOf (← row.fetch c)

/-- Marked symbols gathered by their marks, in the order of the first
symbol of each group. -/
def gather {μ : Type} [DecidableEq μ] (marked : List (Symbol × μ)) : List SymbolSet :=
  (distinct (marked.map Prod.snd)).map fun m =>
    .ofList ((marked.filter fun e => decide (e.2 = m)).map Prod.fst)

/-- The groups of states in a set with equal signatures, in the listing
order of their first members. -/
def split (states : SymbolSet) (letters : List Symbol) : Except Fault (List SymbolSet) := do
  let marked ← states.listing.mapM fun s => return (s, ← P.signature A s letters)
  return gather marked

/-- The partition after one round against this one. -/
def refine : Except Fault Partition := do
  let groups ← P.blocks.mapM fun b => P.split A b A.letters
  ofBlocks groups.flatten

end Partition

/-- A course of refinement: the partitions before the last, and the last. -/
structure Refinement where
  earlier : List Partition
  last : Partition
  deriving DecidableEq

/-- All partitions of the course. -/
def Refinement.partitions (r : Refinement) : List Partition := r.earlier ++ [r.last]

/-- The number of rounds after the initial partition. -/
def Refinement.rounds (r : Refinement) : Nat := r.earlier.length

namespace Automaton

/-- The accepting and the other states. -/
def initialPartition (A : Automaton) : Except Fault Partition :=
  Partition.ofBlocks [A.accepting, A.states.sdiff A.accepting]

/-- The course of refinement from a partition, of at most the given
number of rounds; it ends where a round splits no block. -/
def refineFrom (A : Automaton) : Nat → Partition → Except Fault Refinement
  | 0, P => .ok ⟨[], P⟩
  | n + 1, P => do
    let Q ← P.refine A
    if Q.size = P.size then return ⟨[], P⟩
    else
      let r ← refineFrom A n Q
      return ⟨P :: r.earlier, r.last⟩

/-- The course of refinement of an automaton. Each round but the last
splits a block, so there are not more rounds than states. -/
def refinements (A : Automaton) : Except Fault Refinement := do
  A.refineFrom A.size (← A.initialPartition)

/-- The coarsest partition that respects acceptance and transitions. -/
def coarsestPartition (A : Automaton) : Except Fault Partition := do
  return (← A.refinements).last

end Automaton

end Automata
