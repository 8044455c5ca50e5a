/-
The command: reads a listing of an automaton, minimizes the automaton
and writes a report of the result.
-/
import Automata.CommandLine.Run

open Automata CommandLine

/-- The cause of a fault of the file system, for the causes that the
command knows. Its number may come with either sign. -/
def fileCause? : IO.Error → Option FileCause
  | .noFileOrDirectory .. => some .notFound
  | .noSuchThing .. => some .notFound
  | .inappropriateType _ code _ =>
    some (if code = 20 ∨ code + 20 = 0 then .notDirectory else .isDirectory)
  | .invalidArgument _ code _ => if code = 36 ∨ code + 36 = 0 then some .nameTooLong else none
  | .permissionDenied .. => some .permissionDenied
  | .resourceExhausted _ code _ => if code = 28 ∨ code + 28 = 0 then some .noSpace else none
  | _ => none

/-- The result of an action on a file, or why the file is not read or written. -/
def attempt {α : Type} (path : Path) (action : IO α) : IO (Except FileFault α) :=
  try
    return .ok (← action)
  catch e =>
    match fileCause? e with
    | some cause => return .error ⟨cause, path⟩
    | none => throw e

/-- The disk of the computer. -/
def computerDisk : Disk IO where
  read path := attempt path (IO.FS.readBinFile path.text)
  write path bytes := attempt path (IO.FS.writeBinFile path.text bytes)

/-- How the command is called. -/
def usage : String :=
  "usage: minimize [-h] [--dot PATH] [--quiet] [--log-level LEVEL] [input] [output]"

/-- Runs the command on the disk of the computer. How much memory there is
shows by itself. -/
def main (args : List String) : IO UInt32 := do
  match Request.ofArguments args with
  | .help =>
    IO.println usage
    return 0
  | .misuse =>
    IO.eprintln usage
    return 2
  | .run o =>
    match ← CommandLine.run computerDisk Listing.wordLimit o with
    | .ok outcome =>
      (← IO.getStderr).putStr outcome.logText
      (← IO.getStdout).putStr outcome.printed
      return outcome.exitCode.toUInt32
    | .error c =>
      IO.eprintln c.message
      return 1
