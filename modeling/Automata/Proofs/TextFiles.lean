/-
Reading from a file and reading a text.

A text file is read with a line feed for each carriage return, alone or
with a line feed behind it, and only then split into lines. These are the
lines of the text all the same (`lines_uniformNewlines`), so an automaton
is read from a file as from the text that the file holds, faults included
(`listed_eq_read`). A file that holds no text has a flaw in its bytes, and
that is what it is refused for.
-/
import Automata.Proofs.Files
import Automata.Proofs.Text
import Automata.Proofs.Utf8

namespace Automata.FileTree

variable {t : FileTree} {path text : String} {bytes : ByteArray} {room : Nat}

/-- A file that holds a text is read as the text is. -/
theorem listed_eq_read (hpath : '\x00' ∉ path.toList)
    (hread : t.read (.ofString path) = .ok text.toUTF8) :
    disk.listed room t path = (Listing.read room text).mapError .listing := by
  have hlisted : disk.listed room t path = _ :=
    Disk.listed_of_text hpath hread (Text.ofBytes_toUTF8 text)
  rw [hlisted, Text.lines_uniformNewlines]
  rfl

/-- A file that can be read gives what the text that it holds gives, the
automaton or the fault, and is refused as a whole if it holds none. -/
theorem load_eq_read (hpath : '\x00' ∉ path.toList)
    (hread : t.read (.ofString path) = .ok bytes) :
    (∀ text : String, bytes = text.toUTF8 →
      (disk.load room path).run t = pure ((Listing.read room text).mapError .listing, t)) ∧
    ((¬∃ text : String, bytes = text.toUTF8) → ∃ flaw,
      Text.firstFlaw? [] bytes.data.toList = some flaw ∧
        (disk.load room path).run t =
          pure (.error (.listing (.format ⟨.notText path flaw, none⟩)), t)) := by
  constructor
  · intro text hbytes
    subst hbytes
    rw [lawful.run_load, listed_eq_read hpath hread]
  · intro hnone
    rw [← Text.firstFlaw?_data_eq_none_iff] at hnone
    obtain ⟨flaw, hflaw⟩ := Option.ne_none_iff_exists'.1 hnone
    refine ⟨flaw, hflaw, ?_⟩
    have hlisted : disk.listed room t path =
        .error (.listing (.format ⟨.notText path flaw, none⟩)) :=
      Disk.listed_of_flaw hpath hread (Text.ofBytes_eq_error hflaw)
    rw [lawful.run_load, hlisted]

/-- Lines that end in many ways, the last one with what is no line. -/
def mixedText : String := "2\r\na\r1\n0\x0b\r\x85 0 a 1\u20281 a 0\r\n\n\rx"

/-- A file of lines that end in many ways, and one with the bytes that a
surrogate would have. -/
def mixedFiles : FileTree where
  directories := []
  files := [(["in.txt"], mixedText.toUTF8), (["half.txt"], ⟨#[0x30, 0xED, 0xA0, 0x80]⟩)]

theorem load_eq_read_mixedFiles :
    ('\x00' ∉ "in.txt".toList ∧ mixedFiles.read (.ofString "in.txt") = .ok mixedText.toUTF8 ∧
      (disk.load 2 "in.txt").run mixedFiles =
        pure ((Listing.read 2 mixedText).mapError .listing, mixedFiles)) ∧
    (∃ bytes, mixedFiles.read (.ofString "half.txt") = .ok bytes ∧
      (¬∃ text : String, bytes = text.toUTF8) ∧ ∃ flaw, (disk.load 2 "half.txt").run mixedFiles =
        pure (.error (.listing (.format ⟨.notText "half.txt" flaw, none⟩)), mixedFiles)) := by
  have hin : mixedFiles.read (.ofString "in.txt") = .ok mixedText.toUTF8 := by decide +kernel
  have hhalf : mixedFiles.read (.ofString "half.txt") = .ok ⟨#[0x30, 0xED, 0xA0, 0x80]⟩ := by
    decide +kernel
  have hnone : ¬∃ text : String, (⟨#[0x30, 0xED, 0xA0, 0x80]⟩ : ByteArray) = text.toUTF8 := by
    rw [← Text.firstFlaw?_data_eq_none_iff]
    decide
  refine ⟨⟨by decide, hin, (load_eq_read (by decide) hin).1 mixedText rfl⟩, _, hhalf, hnone, ?_⟩
  obtain ⟨flaw, -, hload⟩ := (load_eq_read (by decide) hhalf).2 hnone
  exact ⟨flaw, hload⟩

-- four lines of headings, two empty ones, two transitions, two empty ones, and the last
example : Listing.read 2 mixedText = .error (.format ⟨.invalidTransition ['x'], some 11⟩) := by
  decide +kernel

end Automata.FileTree
