/-
Reports: an automaton written out in full, for a file and for a console.

Sets are listed in listing order. The transitions go by source in size
order, so the states have to be comparable, and then by letter in
listing order. All states and letters are written, so no number may have
too many digits; this shows before the states are put in order.
-/
import Automata.Automaton.Basic

namespace Automata

/-- A line of a transition table: source, letter and target. -/
structure Transition where
  source : Symbol
  letter : Symbol
  target : Symbol
  deriving DecidableEq

/-- The members in order of size, if they can be compared. -/
def SymbolSet.sizeOrder (s : SymbolSet) : Except Fault (List Symbol) :=
  if Symbol.Comparable s.toList then .ok s.toList else .error .incomparable

theorem SymbolSet.sizeOrder_eq_ok {s : SymbolSet} (h : Symbol.Comparable s.toList) :
    s.sizeOrder = .ok s.toList := if_pos h

/-- The members in listing order with a separator between them. -/
def SymbolSet.join (separator : String) (s : SymbolSet) : Except Fault String := do
  return separator.intercalate (← s.listing.mapM Symbol.text)

namespace Automaton

/-- The transitions from the given states by the letters of the alphabet. -/
def transitionsFrom (A : Automaton) (states : List Symbol) : List Transition :=
  states.flatMap fun s => A.letters.filterMap fun c => (A.move? s c).map fun t => ⟨s, c, t⟩

/-- The transitions in the order of a report. -/
def transitions (A : Automaton) : Except Fault (List Transition) := do
  return A.transitionsFrom (← A.states.sizeOrder)

theorem transitions_eq_ok {A : Automaton} (h : Symbol.Comparable A.states.toList) :
    A.transitions = .ok (A.transitionsFrom A.states.toList) := by
  unfold transitions
  rw [SymbolSet.sizeOrder_eq_ok h]
  rfl

end Automaton

/-- What stands around states and letters in reports of one kind. -/
structure Layout where
  separator : String
  startLabel : String
  acceptingLabel : String
  indent : String
  tail : String
  head : String
  /-- A comma is where a row of numbers is parted. -/
  exists_comma : ∃ more, separator.toList = ',' :: more
  /-- Nothing in a layout breaks a line. -/
  unbroken : ∀ part ∈ [separator, startLabel, acceptingLabel, indent, tail, head],
    '\n' ∉ part.toList

namespace Layout

/-- The layout of a report for a file. -/
def file : Layout where
  separator := ","
  startLabel := "StartState: "
  acceptingLabel := "FinalStates: "
  indent := ""
  tail := " "
  head := " "
  exists_comma := ⟨[], rfl⟩
  unbroken := by decide

/-- The layout of a report for a console. -/
def console : Layout where
  separator := ", "
  startLabel := "Start State: "
  acceptingLabel := "Final States: "
  indent := "  "
  tail := " --"
  head := "--> "
  exists_comma := ⟨[' '], rfl⟩
  unbroken := by decide

variable (L : Layout)

/-- The lines before the transitions. -/
def heading (A : Automaton) : Except Fault (List String) := do
  return [
    "States: " ++ (← A.states.join L.separator),
    "Alphabet: " ++ (← A.alphabet.join L.separator),
    L.startLabel ++ (← A.start.text),
    L.acceptingLabel ++ (← A.accepting.join L.separator),
    "Transitions:" ]

/-- The line of a transition. -/
def arc (t : Transition) : Except Fault String := do
  return L.indent ++ (← t.source.text) ++ L.tail ++ (← t.letter.text) ++ L.head ++
    (← t.target.text)

/-- The lines from those of the states to those of the transitions. -/
def lines (A : Automaton) : Except Fault (List String) := do
  let heading ← L.heading A
  let arcs ← (← A.transitions).mapM L.arc
  return heading ++ arcs

end Layout

namespace Automaton

/-- The report for a file; every line is ended. -/
def fileReport (A : Automaton) : Except Fault String := do
  return "\n".intercalate (← Layout.file.lines A) ++ "\n"

/-- The lines before those of the automaton in a report for a console. -/
def consoleOpening (title : String) : List String := ["--- " ++ title ++ " ---", ""]

/-- The lines behind those of the automaton in a report for a console. -/
def consoleEnding (title : String) : List String := ["", "--- End of " ++ title ++ " ---"]

/-- The title of a console report, where none is asked for. -/
def defaultTitle : String := "Minimized DFA"

/-- The report for a console; the last line is not ended. -/
def consoleReport (A : Automaton) (title : String) : Except Fault String := do
  return "\n".intercalate
    (consoleOpening title ++ (← Layout.console.lines A) ++ consoleEnding title)

end Automaton

end Automata
