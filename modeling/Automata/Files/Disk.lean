/-
Disks: reading and writing files as effects.

An operation on files is written over any disk. A tree of files is a
disk whose effect is the change of the tree; the computer's own is
another.
-/
import Automata.Dot.Drawing
import Automata.Files.Tree
import Automata.Listing.Reader

namespace Automata

/-- A way to read and to write files. -/
structure Disk (m : Type → Type) where
  read : Path → m (Except FileFault ByteArray)
  write : Path → ByteArray → m (Except FileFault Unit)

/-- The tree of files that is carried along as a disk. -/
def FileTree.disk : Disk (StateM FileTree) where
  read path := fun t => (t.read path, t)
  write path bytes := fun t => t.write path bytes

/-- Why an automaton is not read from a file or written to one. -/
inductive DiskFault where
  /-- The text names no path, since it holds a null character. -/
  | noPath
  | file (f : FileFault)
  | listing (f : Listing.Fault)
  | automaton (f : Fault)
  deriving DecidableEq

/-- The fault in words. -/
def DiskFault.message : DiskFault → String
  | noPath => "embedded null byte"
  | file f => f.message
  | listing f => f.message
  | automaton f => f.message

/-- The automaton that the bytes of a file list. -/
def Listing.readBytes (room : Nat) (path : String) (bytes : ByteArray) :
    Except Listing.Fault Automaton :=
  match Text.ofBytes bytes with
  | .ok text => Listing.readLines room (Text.lines text)
  | .error flaw => .error (.format ⟨.notText path flaw, none⟩)

namespace Disk

variable {m : Type → Type} [Monad m] (disk : Disk m)

/-- Reads the automaton that a file lists. -/
def load (room : Nat) (path : String) : m (Except DiskFault Automaton) := do
  match Path.ofString? path with
  | none => return .error .noPath
  | some p =>
    match ← disk.read p with
    | .error f => return .error (.file f)
    | .ok bytes => return (Listing.readBytes room path bytes).mapError .listing

/-- Writes a text, unless there is a fault instead of it. -/
def save (path : String) (text : Except Fault String) : m (Except DiskFault Unit) := do
  match text with
  | .error f => return .error (.automaton f)
  | .ok text =>
    match Path.ofString? path with
    | none => return .error .noPath
    | some p => return (← disk.write p text.toUTF8).mapError .file

/-- Writes the report of an automaton. -/
def saveReport (A : Automaton) (path : String) : m (Except DiskFault Unit) :=
  disk.save path A.fileReport

/-- Writes the drawing of an automaton. -/
def saveDrawing (A : Automaton) (path : String) : m (Except DiskFault Unit) :=
  disk.save path (A.drawing.map fun d => d.source Dot.defaultBackground)

end Disk

end Automata
