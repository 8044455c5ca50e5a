/-
The options of the command, and how they are read off its arguments.

The command takes two operands, the input and the output, and options. A
long option may be shortened as long as it is unmistakable, and its value
follows it or an equals sign. A double dash after an equals sign is no
value: it leaves the option without one, which shows only where the value
is needed. All arguments after a double dash by itself are operands. The
operands that are given have to stand together: operands in a second
place are refused, even where the first place holds only one.
-/
import Automata.Text.Digit

namespace Automata.CommandLine

/-- How much a message of the log matters. -/
inductive Level where
  | debug
  | info
  | warning
  | error
  | critical
  deriving DecidableEq

namespace Level

/-- All levels, from the least to the most important. -/
def all : List Level := [debug, info, warning, error, critical]

/-- The level's name. -/
def name : Level → String
  | debug => "DEBUG"
  | info => "INFO"
  | warning => "WARNING"
  | error => "ERROR"
  | critical => "CRITICAL"

/-- The level's place among the levels. -/
def rank : Level → Nat
  | debug => 0
  | info => 1
  | warning => 2
  | error => 3
  | critical => 4

/-- The level of a name. -/
def ofName? (s : String) : Option Level := all.find? fun l => l.name = s

end Level

/-- Where the drawing goes. -/
inductive Destination where
  | nowhere
  | file (path : String)
  /-- A file was asked for and not named. -/
  | unnamed
  deriving DecidableEq

/-- What a run of the command is asked to do. There is no level if one
was asked for and not named. -/
structure Options where
  input : String
  output : String
  dot : Destination
  quiet : Bool
  level? : Option Level
  deriving DecidableEq

/-- What is done without any arguments. -/
def Options.default : Options where
  input := "input.txt"
  output := "output.txt"
  dot := .nowhere
  quiet := false
  level? := some .info

-- ========================================================= one argument

/-- The options by their long names. -/
inductive LongName where
  | help
  | dot
  | quiet
  | logLevel
  deriving DecidableEq

namespace LongName

/-- All long names. -/
def all : List LongName := [help, dot, quiet, logLevel]

/-- The name after the two dashes. -/
def text : LongName → String
  | help => "help"
  | dot => "dot"
  | quiet => "quiet"
  | logLevel => "log-level"

/-- The options that a full or a shortened name may mean. -/
def meant (name : List Char) : List LongName :=
  match all.filter fun l => l.text.toList = name with
  | [] => all.filter fun l => name.isPrefixOf l.text.toList
  | exact => exact

end LongName

/-- An argument by itself. -/
inductive Argument where
  | operand (text : String)
  /-- The double dash after which all arguments are operands. -/
  | separator
  | long (name : LongName) (value? : Option String)
  /-- A cluster of letters that asks for help. -/
  | help
  /-- An option with a value that it does not take. -/
  | misused
  | unknown
  deriving DecidableEq

/-- Whether a text after a dash makes it a negative number: digits, or a
point with digits after it, and perhaps a line feed. -/
def isNumeric (cs : List Char) : Bool :=
  let isDecimal (c : Char) : Bool := (Text.decimalValue? c).isSome
  let cs := if cs.getLast? = some '\n' then cs.dropLast else cs
  let fraction := (cs.dropWhile isDecimal).drop 1
  (!cs.isEmpty && cs.all isDecimal) ||
    ((cs.dropWhile isDecimal).head? == some '.' && !fraction.isEmpty && fraction.all isDecimal)

/-- What an argument is by what follows its letter for help. The letter
may be repeated, also after an equals sign; anything else is a value. -/
def afterHelp (cs : List Char) : Argument :=
  let letters := if cs.head? = some '=' then cs.tail else cs
  if letters.all (· = 'h') ∧ cs ≠ ['='] then .help else .misused

/-- An argument that begins with a dash and means no option. A number or
a text with a space in it is an operand. -/
def notOption (arg : String) : Argument :=
  let cs := arg.toList
  if isNumeric (cs.drop 1) || cs.contains ' ' then .operand arg else .unknown

/-- What an argument before a double dash is, unless its name is
ambiguous. -/
def Argument.ofString? (arg : String) : Option Argument :=
  match arg.toList with
  | '-' :: '-' :: cs =>
    let name := cs.takeWhile (· ≠ '=')
    let value? := if cs.contains '=' then some (.ofList (cs.drop (name.length + 1))) else none
    match LongName.meant name with
    | [] => some (notOption arg)
    | [l] => some (.long l value?)
    | _ => none
  | '-' :: 'h' :: cs => some (afterHelp cs)
  | '-' :: _ :: _ => some (notOption arg)
  | _ => some (.operand arg)

/-- What the arguments are, each by itself. -/
def arguments? : List String → Option (List Argument)
  | [] => some []
  | arg :: rest =>
    if arg = "--" then some (.separator :: rest.map .operand)
    else do return (← Argument.ofString? arg) :: (← arguments? rest)

-- ======================================================== all arguments

/-- What an argument does, with the value that belongs to it. -/
inductive Step where
  | operand (text : String)
  | separator
  | help
  | quiet
  | dot (destination : Destination)
  | level (level? : Option Level)
  | unknown
  | failure
  deriving DecidableEq

/-- What an option does with the text in the place of its value, where a
double dash is none. -/
def LongName.withValue (l : LongName) (value : String) : Step :=
  match l with
  | dot => .dot (if value = "--" then .unnamed else .file value)
  | logLevel =>
    if value = "--" then .level none
    else
      match Level.ofName? value with
      | some level => .level (some level)
      | none => .failure
  | help => .failure
  | quiet => .failure

/-- What the arguments do. An option that wants a value takes the operand
after it. -/
def steps : List Argument → List Step
  | [] => []
  | .long .help none :: rest => .help :: steps rest
  | .long .quiet none :: rest => .quiet :: steps rest
  | .long l (some value) :: rest => l.withValue value :: steps rest
  | .long l none :: .operand value :: rest => l.withValue value :: steps rest
  | .long _ none :: rest => .failure :: steps rest
  | .operand text :: rest => .operand text :: steps rest
  | .separator :: rest => .separator :: steps rest
  | .help :: rest => .help :: steps rest
  | .misused :: rest => .failure :: steps rest
  | .unknown :: rest => .unknown :: steps rest

/-- Whether a step gives an operand or announces operands. -/
def Step.isOperand : Step → Bool
  | operand _ => true
  | separator => true
  | _ => false

/-- Takes one operand, with the separator before or after it. A second
double dash in the place of an operand counts as none. -/
def takeOperand : List Step → Option String × List Step
  | .separator :: .operand text :: rest => (some text, rest)
  | .separator :: rest => (none, rest)
  | .operand text :: .separator :: rest => (some text, rest)
  | .operand text :: rest => (if text = "--" then none else some text, rest)
  | rest => (none, rest)

/-- The options after a step. -/
def Options.after (o : Options) : Step → Options
  | .quiet => { o with quiet := true }
  | .dot destination => { o with dot := destination }
  | .level level? => { o with level? := level? }
  | _ => o

/-- What the arguments ask for. -/
inductive Request where
  | run (options : Options)
  | help
  | misuse
  deriving DecidableEq

/-- The request that steps make. The first call for help and the first
failure end the reading; unknown options and operands out of place are
found after the last step. -/
def request (steps : List Step) : Request :=
  match steps.find? fun s => s = .help || s = .failure with
  | some .help => .help
  | some _ => .misuse
  | none =>
    let fromFirst := steps.dropWhile (!·.isOperand)
    let (input?, afterInput) := takeOperand (fromFirst.takeWhile Step.isOperand)
    let (output?, left) := takeOperand afterInput
    let later := fromFirst.dropWhile Step.isOperand
    if left.isEmpty && !later.any Step.isOperand && !steps.contains .unknown then
      let o := steps.foldl Options.after .default
      .run { o with input := input?.getD o.input, output := output?.getD o.output }
    else .misuse

/-- The request that arguments make. -/
def Request.ofArguments (args : List String) : Request :=
  match arguments? args with
  | none => .misuse
  | some arguments => request (steps arguments)

end Automata.CommandLine
