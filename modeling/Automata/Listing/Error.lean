/-
What can be wrong with a listing of an automaton, and where.
-/
import Automata.Text.Quoted
import Automata.Text.Utf8

namespace Automata

/-- The four lines that head a listing. -/
inductive Heading where
  | stateCount
  | alphabet
  | startState
  | acceptingStates
  deriving DecidableEq

/-- The heading's number among the lines, from 1. -/
def Heading.line : Heading → Nat
  | stateCount => 1
  | alphabet => 2
  | startState => 3
  | acceptingStates => 4

/-- What the heading gives. -/
def Heading.text : Heading → String
  | stateCount => "state count"
  | alphabet => "alphabet"
  | startState => "start state"
  | acceptingStates => "accepting states"

/-- What is wrong with a listing. -/
inductive FormatCause where
  | missing (heading : Heading)
  | countNotInteger
  | noStates
  | letterNotChar (word : List Char)
  | startNotOne
  | notState (word : List Char)
  | outOfRange (n : Int)
  | invalidTransition (line : List Char)
  | unknownLetter (word : List Char)
  | conflict (source : Nat) (letter : Char)
  | noTransition (source : Nat) (letter : Char)
  | notText (path : String) (flaw : Text.Utf8Flaw)
  deriving DecidableEq

/-- What is wrong, in words. -/
def FormatCause.text : FormatCause → String
  | missing h => "missing " ++ h.text ++ "."
  | countNotInteger => "state count must be an integer."
  | noStates => "need at least one state."
  | letterNotChar w => "letter " ++ .ofList (Text.quoted w) ++ " is not one char."
  | startNotOne => "expected exactly one start state."
  | notState w => .ofList (Text.quoted w) ++ " is not a state."
  | outOfRange n => "state " ++ toString n ++ " out of range."
  | invalidTransition l => "invalid transition " ++ .ofList (Text.quoted l)
  | unknownLetter w => "unknown letter " ++ .ofList (Text.quoted w) ++ "."
  | conflict s c => "conflicting " ++ toString s ++ " " ++ .singleton c ++ " edges."
  | noTransition s c =>
    "no transition from " ++ toString s ++ " on " ++ .ofList (Text.quoted [c]) ++ "."
  | notText path flaw => path ++ " is not a text file (" ++ flaw.text ++ ")."

/-- A message with the number of the line that it is about, if there is one. -/
def atLine (line? : Option Int) (message : String) : String :=
  match line? with
  | some n => "line " ++ toString n ++ ": " ++ message
  | none => message

/-- An error in a listing: its cause and the line that shows it. What
shows only in the whole has no line. -/
structure FormatError where
  cause : FormatCause
  line? : Option Nat
  deriving DecidableEq

/-- The error in words. -/
def FormatError.message (e : FormatError) : String :=
  atLine (e.line?.map Int.ofNat) e.cause.text

end Automata
