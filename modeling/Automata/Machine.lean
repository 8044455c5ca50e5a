/-
Machines: transition systems with a label on every state, as they are
exchanged with other tools.

A machine says which letters it takes and which labels it may give, but
nothing ensures that its rows are complete, or that there are none beyond
what its start leads to. An automaton becomes a machine that labels a
state with whether it accepts. A machine with truth values for labels
becomes the automaton on the states that its start leads to.
-/
import Automata.Automaton.Basic
import Automata.Traversal

namespace Automata

/-- A transition system with labelled states. -/
structure Machine where
  start : Symbol
  inputs : SymbolSet
  outputs : SymbolSet
  rows : SymbolMap (Symbol × Row)
  deriving DecidableEq

namespace Machine

/-- The machine of a table that lists a label and a row for each state.
It takes the letters of all rows, and may give the labels of all rows
and the others listed. Of two rows for one state the later counts, in
the place of the first. A letter is written as in the first row that has
it. -/
def ofTable (start : Symbol) (table : List (Symbol × Symbol × List (Symbol × Symbol)))
    (outputs : List Symbol) : Machine :=
  let rows : SymbolMap (Symbol × Row) :=
    .ofList (table.map fun (s, label, row) => (s, label, .ofList row))
  let listed := table.filterMap fun (s, _) => rows.get? s
  { start := start
    inputs := .ofList (listed.flatMap fun (_, row) => row.keys.toList)
    outputs := .ofList (listed.map Prod.fst ++ outputs)
    rows := rows }

/-- Where a letter leads from a state, if a row says so. -/
def move? (m : Machine) (s c : Symbol) : Option Symbol := (m.rows.get? s).bind fun e => e.2.get? c

/-- Where the letters that the machine takes lead to from a state, the
largest letter first. -/
def successors (m : Machine) (s : Symbol) : List Symbol :=
  match m.rows.get? s with
  | none => []
  | some (_, row) => m.inputs.toList.reverse.filterMap row.get?

/-- The start and all symbols that a row leads to. -/
def targets (m : Machine) : List Symbol :=
  m.start :: m.rows.toList.flatMap fun e => e.2.2.toList.map Prod.snd

/-- The states that words lead to from the start. The search goes deep
first, and a state is written as where it is first met. -/
def reached (m : Machine) : SymbolSet :=
  .ofTree (visited Symbol.order .deep m.successors (1 + m.inputs.size * m.targets.length) [m.start])

/-- Whether a label is a truth value, where 0 and 1 count as such. -/
def isTruthValue : Symbol → Bool
  | .bool _ => true
  | .int n => n == 0 || n == 1
  | _ => false

/-- Whether a label stands for truth. -/
def isTrue : Symbol → Bool
  | .bool b => b
  | .int n => n != 0
  | _ => false

/-- Whether a state has a label that stands for truth. -/
def marks (m : Machine) (s : Symbol) : Bool := (m.rows.get? s).any fun e => isTrue e.1

/-- The label and the complete row of a state. -/
def completeRow (m : Machine) (s : Symbol) :
    Except Fault (Symbol × Symbol × List (Symbol × Symbol)) := do
  let (label, row) ← m.rows.fetch s
  let entries ← m.inputs.toList.mapM fun c => return (c, ← row.fetch c)
  return (s, label, entries)

/-- The automaton on the reached states that accepts where the label is true. -/
def toAutomaton (m : Machine) : Except Fault Automaton := do
  if m.outputs.toList.all isTruthValue then
    let rows ← m.reached.toList.mapM m.completeRow
    Presentation.build
      { states := m.reached.toList
        alphabet := m.inputs.toList
        start := m.start
        accepting := rows.filterMap fun (s, label, _) => if isTrue label then some s else none
        delta := rows.map fun (s, _, row) => (s, row) }
  else .error .unknownToMachine

/-- Where a letter that the machine takes leads from a state. -/
def step (m : Machine) (s c : Symbol) : Except Fault Symbol := do
  if c ∈ m.inputs then (← m.rows.fetch s).2.fetch c else .error .unknownToMachine

/-- The state that a word of letters that the machine takes leads to. -/
def run (m : Machine) (w : List Symbol) : Except Fault Symbol := w.foldlM m.step m.start

/-- The label that a word leads to. -/
def label (m : Machine) (w : List Symbol) : Except Fault Symbol := do
  return (← m.rows.fetch (← m.run w)).1

end Machine

/-- The machine of an automaton: its whole table, where a symbol with a row
is labelled with whether it accepts. -/
def Automaton.toMachine (A : Automaton) : Machine where
  start := A.start
  inputs := A.alphabet
  outputs := .ofList [.bool true, .bool false]
  rows := A.delta.filterMap fun s row => some (.bool (decide (s ∈ A.accepting)), row)

end Automata
