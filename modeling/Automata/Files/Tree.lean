/-
Trees of files, with a working directory from which relative paths
start.

A place is given by the directories on the way to it. What lies above
the working directory is taken to hold nothing but the way down to it.

Files may be protected against writing, and directories against new
files, and the disk may get full. A write empties the file before it
fills it, so one that does not fit leaves the beginning of what was to be
written.

Main statement: a write sets the contents of the place that the path
leads to, and of no other (`write_cases`, `contents?_put`).
-/
import Automata.Files.Path
import Automata.Text.Quoted

namespace Automata

/-- Why a file is not read or written. -/
inductive FileCause where
  | notFound
  | isDirectory
  | notDirectory
  | nameTooLong
  | permissionDenied
  /-- The disk is full. -/
  | noSpace
  deriving DecidableEq

/-- The cause in words, after the number that systems give it. -/
def FileCause.text : FileCause → String
  | notFound => "[Errno 2] No such file or directory"
  | isDirectory => "[Errno 21] Is a directory"
  | notDirectory => "[Errno 20] Not a directory"
  | nameTooLong => "[Errno 36] File name too long"
  | permissionDenied => "[Errno 13] Permission denied"
  | noSpace => "[Errno 28] No space left on device"

/-- A file that is not read or written: why, and its path. -/
structure FileFault where
  cause : FileCause
  path : Path
  deriving DecidableEq

/-- The fault in words. That the disk is full shows when the file is open,
and is said without its path. -/
def FileFault.message (f : FileFault) : String :=
  match f.cause with
  | .noSpace => f.cause.text
  | cause => cause.text ++ ": " ++ Text.quote f.path.text

/-- A place: the names of directories from the working directory down to
it. A place above begins with double dots, an absolute one with a slash. -/
abbrev Place := List String

/-- Directories, and files with their contents. -/
structure FileTree where
  directories : List Place
  files : List (Place × ByteArray)
  /-- Files that may not be written, and directories that no file may be
  made in. -/
  locked : List Place := []
  /-- How many more bytes the disk holds, if it may get full. -/
  space? : Option Nat := none

namespace FileTree

/-- The directory above a place. -/
def above (p : Place) : Place :=
  if p = ["/"] then p
  else if p.all (· == "..") then ".." :: p
  else p.dropLast

/-- Whether a directory is at a place. -/
def isDirectory (t : FileTree) (p : Place) : Bool :=
  p.all (· == "..") || p == ["/"] || t.directories.contains p

/-- The contents of the file at a place. -/
def contents? (t : FileTree) (p : Place) : Option ByteArray :=
  (t.files.find? fun f => f.1 = p).map Prod.snd

/-- The place that components lead to. All on the way are directories,
and in each directory the next name may not be too long. -/
def follow (t : FileTree) : Place → List String → Except FileCause Place
  | here, [] => .ok here
  | here, name :: rest =>
    if t.isDirectory here then
      if Path.isLongName name then .error .nameTooLong
      else t.follow (if name = ".." then above here else here ++ [name]) rest
    else if (t.contents? here).isSome then .error .notDirectory
    else .error .notFound

/-- The place of a path at which a file is or can be. -/
def locate (t : FileTree) (path : Path) : Except FileFault Place :=
  if path.isLong then .error ⟨.nameTooLong, path⟩
  else match t.follow (if path.root = "" then [] else ["/"]) path.components with
  | .ok p => if t.isDirectory p then .error ⟨.isDirectory, path⟩ else .ok p
  | .error cause => .error ⟨cause, path⟩

/-- The contents of the file that a path names. -/
def read (t : FileTree) (path : Path) : Except FileFault ByteArray :=
  match t.locate path with
  | .error f => .error f
  | .ok p =>
    match t.contents? p with
    | some bytes => .ok bytes
    | none => .error ⟨.notFound, path⟩

/-- Whether no file may be written at a place, or none made there. -/
def isLocked (t : FileTree) (p : Place) : Bool :=
  t.locked.contains (if (t.contents? p).isSome then p else above p)

/-- How many bytes the disk holds at a place once the file there is empty,
if it may get full. -/
def spaceAt? (t : FileTree) (p : Place) : Option Nat :=
  t.space?.map (· + ((t.contents? p).map ByteArray.size).getD 0)

/-- The tree with a file at a place, in the stead of one that was there. -/
def put (t : FileTree) (p : Place) (bytes : ByteArray) : FileTree :=
  { t with
    files := (p, bytes) :: t.files.filter fun f => f.1 ≠ p
    space? := (t.spaceAt? p).map (· - bytes.size) }

/-- What becomes of bytes that are written where the disk holds so many:
whether all of them are, and those that are. -/
def fit (space? : Option Nat) (bytes : ByteArray) : Except FileCause Unit × ByteArray :=
  match space? with
  | some n => if n < bytes.size then (.error .noSpace, bytes.extract 0 n) else (.ok (), bytes)
  | none => (.ok (), bytes)

/-- Writes the contents of the file that a path names. -/
def write (t : FileTree) (path : Path) (bytes : ByteArray) : Except FileFault Unit × FileTree :=
  match t.locate path with
  | .error f => (.error f, t)
  | .ok p =>
    if t.isLocked p then (.error ⟨.permissionDenied, path⟩, t)
    else
      let written := fit (t.spaceAt? p) bytes
      (written.1.mapError fun cause => ⟨cause, path⟩, t.put p written.2)

theorem contents?_put (t : FileTree) (p q : Place) (bytes : ByteArray) :
    (t.put p bytes).contents? q = if q = p then some bytes else t.contents? q := by
  by_cases h : q = p
  · subst h
    simp [contents?, put]
  · have hp : ¬p = q := fun e => h e.symm
    simp only [contents?, put, List.find?_cons, decide_eq_false hp, if_neg h, List.find?_filter]
    congr 2
    funext f
    by_cases hf : f.1 = q
    · simp [hf, h]
    · simp [hf]

/-- All bytes are kept unless this fails. -/
theorem fit_snd {space? : Option Nat} {bytes : ByteArray} (h : (fit space? bytes).1 = .ok ()) :
    (fit space? bytes).2 = bytes := by
  unfold fit at h ⊢
  cases space? with
  | none => rfl
  | some n =>
    by_cases hn : n < bytes.size
    · simp only [if_pos hn] at h
      cases h
    · simp only [if_neg hn]

/-- A write leaves the tree as it is, or puts down some bytes where the path
leads to. These are the bytes that were given, unless it fails. -/
theorem write_cases (t : FileTree) (path : Path) (bytes : ByteArray) :
    (∃ f, t.write path bytes = (.error f, t)) ∨
      ∃ p result kept, t.locate path = .ok p ∧ t.write path bytes = (result, t.put p kept) ∧
        (result = .ok () → kept = bytes) := by
  unfold write
  cases t.locate path with
  | error f => exact Or.inl ⟨f, rfl⟩
  | ok p =>
    by_cases hlocked : t.isLocked p = true
    · exact Or.inl ⟨_, if_pos hlocked⟩
    · refine Or.inr ⟨p, _, _, rfl, if_neg hlocked, fun h => fit_snd ?_⟩
      cases hfit : (fit (t.spaceAt? p) bytes).1 with
      | ok _ => rfl
      | error cause =>
        rw [hfit] at h
        cases h

example :
    let t : FileTree := { directories := [], files := [(["a"], "x".toUTF8)], space? := some 2 }
    (t.write (.ofString "a") "wxyz".toUTF8).2.contents? ["a"] = some "wxy".toUTF8 := by
  decide +kernel

end FileTree

end Automata
