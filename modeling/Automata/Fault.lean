/-
Faults: why an operation on automata and partitions gives no result.
-/
import Automata.Symbol.Map
import Automata.Symbol.Notation

namespace Automata

/-- A place where a transition table fails to be total. -/
inductive Gap where
  /-- A state has no row. -/
  | noRow (state : Symbol)
  /-- The row of a state has no entry for a letter of the alphabet. -/
  | noEntry (state letter : Symbol)
  /-- The entry of a state for a letter of the alphabet is not a state. -/
  | leaves (state letter : Symbol)
  deriving DecidableEq

/-- A gap in words, if its state and its letter can be written. -/
def Gap.message? : Gap → Option String
  | noRow s => do return "state=" ++ (← s.quoted?) ++ " has no transitions."
  | noEntry s c => do
    return "state=" ++ (← s.quoted?) ++ " has no transition on letter=" ++ (← c.quoted?) ++ "."
  | leaves s c => do
    return "state=" ++ (← s.quoted?) ++ " on letter=" ++ (← c.quoted?) ++ " leaves the states."

/-- Why an operation gives no result. -/
inductive Fault where
  /-- The start of an automaton is not one of its states. -/
  | startNotState (start : Symbol)
  /-- Some accepting states of an automaton are not among its states. -/
  | acceptingNotStates (extra : SymbolSet)
  /-- The transition table of an automaton has gaps. -/
  | notTotal (first : Gap) (others : List Gap)
  /-- A table or a partition has no entry for a symbol. -/
  | missing (key : Symbol)
  /-- Symbols had to be put in order of size that cannot be compared. -/
  | incomparable
  /-- A number had to be written that has too many digits. -/
  | tooManyDigits
  /-- The blocks of a partition have a member in common. -/
  | overlap
  /-- The smallest member of an empty block was asked for. -/
  | emptyBlock
  /-- A graph was to be drawn with null as a node. -/
  | nullNode
  /-- Automata over different alphabets were compared. -/
  | differentAlphabets
  /-- A word holds a letter, or a state a label, that the machine does not know. -/
  | unknownToMachine
  deriving DecidableEq

/-- What is said of a number that has too many digits. -/
def tooManyDigitsText : String :=
  "Exceeds the limit (4300 digits) for integer string conversion; " ++
    "use sys.set_int_max_str_digits() to increase the limit"

/-- A fault in words, if what it speaks of can be written; of several gaps
or extra states these name the first gap and all the states. -/
def Fault.message? : Fault → Option String
  | startNotState s => do return "start=" ++ (← s.text?) ++ " is not a state."
  | acceptingNotStates extra => do
    return "Accepting states " ++ (← extra.quoted?) ++ " are not states."
  | notTotal gap _ => gap.message?
  | missing key => key.quoted?
  | incomparable => some "symbols of different kinds cannot be compared"
  | tooManyDigits => none
  | overlap => some "Blocks of a partition must be disjoint."
  | emptyBlock => some "min() arg is an empty sequence"
  | nullNode => some "None cannot be a node"
  | differentAlphabets => some "<built-in function xor> requires shared inputs."
  | unknownToMachine => some ""

/-- A fault in words. One that speaks of a number that cannot be written
says so instead. -/
def Fault.message (f : Fault) : String := f.message?.getD tooManyDigitsText

/-- The symbol as a report shows it. -/
def Symbol.text (a : Symbol) : Except Fault String :=
  match a.text? with
  | some t => .ok t
  | none => .error .tooManyDigits

/-- The value of a key, or the fault that it is missing. -/
def SymbolMap.fetch {β : Type} (m : SymbolMap β) (k : Symbol) : Except Fault β :=
  match m.get? k with
  | some v => .ok v
  | none => .error (.missing k)

theorem SymbolMap.fetch_eq_ok_iff {β : Type} {m : SymbolMap β} {k : Symbol} {v : β} :
    m.fetch k = .ok v ↔ m.get? k = some v := by
  unfold fetch
  cases m.get? k <;> simp

theorem SymbolMap.fetch_eq_error_iff {β : Type} {m : SymbolMap β} {k : Symbol} {f : Fault} :
    m.fetch k = .error f ↔ m.get? k = none ∧ f = .missing k := by
  unfold fetch
  cases m.get? k with
  | none => simp [eq_comm]
  | some v => simp

theorem SymbolMap.fetch_eq_ok {β : Type} {m : SymbolMap β} {k : Symbol} {v : β}
    (h : m.get? k = some v) : m.fetch k = .ok v := fetch_eq_ok_iff.2 h

end Automata
