/-
Reading the listing of an automaton.

The first line gives the number of states, which are numbered from 0,
the second the letters, the third the start and the fourth the accepting
states. Each further line is blank or gives a transition: source, letter
and target. The errors of a line are found in the order of the lines;
whether every transition is given shows only after the last. Then the
states are counted out, and how many of them memory has room for is up to
the machine: the reader is given the number.
-/
import Automata.Automaton.Basic
import Automata.Listing.Error
import Automata.Text.Blank
import Automata.Text.Lines
import Automata.Text.Numeral

namespace Automata

/-- A transition of a listing. -/
structure Arc where
  source : Nat
  letter : Char
  target : Nat
  deriving DecidableEq

/-- What a listing says. -/
structure Listing where
  count : Nat
  letters : List Char
  start : Nat
  accepting : List Nat
  arcs : List Arc
  deriving DecidableEq

namespace Listing

-- =========================================================== the heading

/-- The words of a heading line. -/
def heading (lines : List (List Char)) (h : Heading) : Except FormatError (List (List Char)) :=
  match lines[h.line - 1]? with
  | some l => .ok (Text.words l)
  | none => .error ⟨.missing h, some h.line⟩

/-- The number of states, which has to be positive. -/
def readCount (ws : List (List Char)) : Except FormatError Nat :=
  match ws with
  | [w] =>
    match Text.integer? w with
    | some n => if n < 1 then .error ⟨.noStates, some 1⟩ else .ok n.toNat
    | none => .error ⟨.countNotInteger, some 1⟩
  | _ => .error ⟨.countNotInteger, some 1⟩

/-- A letter is a single character. -/
def readLetter (w : List Char) : Except FormatError Char :=
  match w with
  | [c] => .ok c
  | _ => .error ⟨.letterNotChar w, some 2⟩

/-- A state is an integer below the number of states. -/
def readState (count line : Nat) (w : List Char) : Except FormatError Nat :=
  match Text.integer? w with
  | none => .error ⟨.notState w, some line⟩
  | some n =>
    if 0 ≤ n ∧ n < count then .ok n.toNat else .error ⟨.outOfRange n, some line⟩

/-- The one start state. -/
def readStart (count : Nat) (ws : List (List Char)) : Except FormatError Nat :=
  match ws with
  | [w] => readState count 3 w
  | _ => .error ⟨.startNotOne, some 3⟩

-- ======================================================= the transitions

/-- The target that the given transitions name for a state and a letter. -/
def targetOf? (arcs : List Arc) (s : Nat) (c : Char) : Option Nat :=
  (arcs.find? fun a => a.source = s && a.letter = c).map Arc.target

/-- The transition that a line gives beside those given before it; a
blank line gives none. -/
def readArc (count : Nat) (letters : List Char) (given : List Arc) (number : Nat)
    (line : List Char) : Except FormatError (Option Arc) :=
  match Text.words line with
  | [] => .ok none
  | [source, letter, target] =>
    match letters.find? fun c => [c] = letter with
    | none => .error ⟨.unknownLetter letter, some number⟩
    | some c => do
      let s ← readState count number source
      let t ← readState count number target
      if (targetOf? given s c).getD t = t then return some ⟨s, c, t⟩
      else .error ⟨.conflict s c, some number⟩
  | _ => .error ⟨.invalidTransition (Text.trim line), some number⟩

/-- The transitions of the lines from one number on, the last given first. -/
def readArcs (count : Nat) (letters : List Char) :
    Nat → List Arc → List (List Char) → Except FormatError (List Arc)
  | _, given, [] => .ok given
  | number, given, line :: rest => do
    let arc? ← readArc count letters given number line
    readArcs count letters (number + 1) (arc?.toList ++ given) rest

/-- What lines say, each line by itself. -/
def ofLines (lines : List (List Char)) : Except FormatError Listing := do
  let count ← readCount (← heading lines .stateCount)
  let letters ← (← heading lines .alphabet).mapM readLetter
  let start ← readStart count (← heading lines .startState)
  let accepting ← (← heading lines .acceptingStates).mapM (readState count 4)
  let arcs ← readArcs count letters 5 [] (lines.drop 4)
  return { count, letters, start, accepting, arcs }

-- ========================================================= the automaton

/-- Why a text gives no automaton. -/
inductive Fault where
  /-- The text is no listing. -/
  | format (e : FormatError)
  /-- The number of states exceeds what a machine word can count. -/
  | countOverflow
  /-- The number of states exceeds what memory has room for. -/
  | outOfMemory
  /-- The listing describes no automaton. -/
  | invalid (f : Automata.Fault)
  deriving DecidableEq

/-- A fault in words. -/
def Fault.message : Fault → String
  | format e => e.message
  | countOverflow => "Python int too large to convert to C ssize_t"
  | outOfMemory => ""
  | invalid f => f.message

/-- The counts from here on do not fit a signed word of 64 bits. -/
def wordLimit : Nat := 0x8000000000000000

/-- The first state from the given one on, of so many, with a letter that
no transition is given for, and the first such letter. -/
def missingFrom (letters : List Char) (arcs : List Arc) : Nat → Nat → Option (Nat × Char)
  | 0, _ => none
  | n + 1, s =>
    match letters.find? fun c => (targetOf? arcs s c).isNone with
    | some c => some (s, c)
    | none => missingFrom letters arcs n (s + 1)

/-- The automaton that a listing presents. -/
def presentation (l : Listing) : Presentation where
  states := (List.range l.count).map .ofNat
  alphabet := l.letters.map fun c => .str (.singleton c)
  start := .ofNat l.start
  accepting := l.accepting.map .ofNat
  delta := (List.range l.count).map fun s =>
    (.ofNat s, l.arcs.filterMap fun a =>
      if a.source = s then some (.str (.singleton a.letter), .ofNat a.target) else none)

variable (room : Nat)

/-- The automaton of a listing that gives all transitions. The states are
counted out before the first transition is looked for, if memory has room
for them. -/
def toAutomaton (l : Listing) : Except Fault Automaton :=
  if wordLimit ≤ l.count then .error .countOverflow
  else if room < l.count then .error .outOfMemory
  else
    match missingFrom l.letters l.arcs l.count 0 with
    | some (s, c) => .error (.format ⟨.noTransition s c, none⟩)
    | none => l.presentation.build.mapError .invalid

/-- The automaton that lines list. -/
def readLines (lines : List (List Char)) : Except Fault Automaton := do
  let l ← (ofLines lines).mapError .format
  l.toAutomaton room

/-- The automaton that a text lists. -/
def read (text : String) : Except Fault Automaton := readLines room (Text.lines text.toList)

end Listing

end Automata
