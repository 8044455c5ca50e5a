/-
A run of the command: it reads an automaton, minimizes it, and writes
the report and, if asked to, the drawing.

What a run shows is kept apart from what it does to the disk: its exit
code, the messages of its log, and the text that it prints. A fault that
the command does not report cuts the run off. So does an option without
its value, but not before the value is needed: the level at the start,
the place of the drawing when the report is written.
-/
import Automata.CommandLine.Options
import Automata.Files.Disk
import Automata.Minimization

namespace Automata.CommandLine

/-- A message of the log. -/
structure Message where
  level : Level
  text : String
  deriving DecidableEq

/-- The message as a line. -/
def Message.line (m : Message) : String := m.level.name ++ ": " ++ m.text ++ "\n"

/-- What a finished run shows. -/
structure Outcome where
  exitCode : Nat
  log : List Message
  printed : String
  deriving DecidableEq

/-- What the run shows if its log starts at a level. -/
def Outcome.atLevel (level : Level) (o : Outcome) : Outcome :=
  { o with log := o.log.filter fun m => decide (level.rank ≤ m.level.rank) }

/-- The log as text. -/
def Outcome.logText (o : Outcome) : String := .join (o.log.map Message.line)

/-- Why a run is cut off. -/
inductive CutOff where
  /-- An option is without the value that is needed. -/
  | noValue
  | fault (f : DiskFault)
  deriving DecidableEq

/-- Why the run is cut off, in words. -/
def CutOff.message : CutOff → String
  | noValue => "an option is without its value"
  | fault f => f.message

/-- The messages on the course of the minimization of an automaton. -/
def courseMessages (A : Automaton) (m : Minimization) : List Message :=
  [ ⟨.debug, "Pruned " ++ toString ((A.size : Int) - m.pruned.size) ++
      " unreachable states; " ++ toString m.pruned.size ++ " remain."⟩ ] ++
  (m.refinement.partitions.zipIdx.map fun (P, k) =>
    ⟨.debug, "Round " ++ toString k ++ ": " ++ toString P.size ++ " blocks."⟩) ++
  [ ⟨.debug, "Minimized DFA has " ++ toString m.minimized.size ++ " states."⟩,
    ⟨.info, "Reduced " ++ toString A.size ++ " states to " ++ toString m.minimized.size ++
      " in " ++ toString m.rounds ++ " rounds."⟩ ]

/-- A run that ends with an error. -/
def failed (log : List Message) (text : String) : Outcome := ⟨1, log ++ [⟨.error, text⟩], ""⟩

variable {m : Type → Type} [Monad m] (disk : Disk m) (room : Nat) (o : Options)

/-- The end of a run, when the files are written. -/
def finish (M : Automaton) (log : List Message) : Except CutOff Outcome :=
  if o.quiet then .ok ⟨0, log, ""⟩
  else
    match M.consoleReport Automaton.defaultTitle with
    | .ok report => .ok ⟨0, log, report ++ "\n"⟩
    | .error f => .error (.fault (.automaton f))

/-- Writes the drawing, if asked to. -/
def draw (M : Automaton) (log : List Message) : m (Except CutOff Outcome) :=
  match o.dot with
  | .nowhere => return finish o M log
  | .unnamed => return .error .noValue
  | .file path => do
    match ← disk.saveDrawing M path with
    | .ok () => return finish o M log
    | .error (.file f) =>
      return .ok (failed log ("Error writing the dot file " ++ path ++ ": " ++ f.message))
    | .error f => return .error (.fault f)

/-- Writes the report and what follows it. -/
def report (M : Automaton) (log : List Message) : m (Except CutOff Outcome) := do
  match ← disk.saveReport M o.output with
  | .ok () =>
    draw disk o M (log ++ [⟨.info, "Minimized DFA has been written to " ++ o.output⟩])
  | .error (.file f) =>
    return .ok (failed log ("Error writing the output file: " ++ f.message))
  | .error f => return .error (.fault f)

/-- Reads and minimizes the automaton, and what follows it. -/
def minimizeInput : m (Except CutOff Outcome) := do
  match ← disk.load room o.input with
  | .ok A =>
    match A.minimization with
    | .ok M => report disk o M.minimized (courseMessages A M)
    | .error f => return .error (.fault (.automaton f))
  | .error (.file f) => return .ok (failed [] ("Error reading the input file: " ++ f.message))
  | .error (.listing (.format e)) =>
    return .ok (failed [] ("Malformed automaton in " ++ o.input ++ ": " ++ e.message))
  | .error f => return .error (.fault f)

/-- A run with the given options on a disk, where memory has room for so
many states. -/
def run : m (Except CutOff Outcome) := do
  match o.level? with
  | some level => return (← minimizeInput disk room o).map (Outcome.atLevel level)
  | none => return .error .noValue

end Automata.CommandLine
