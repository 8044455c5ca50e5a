/-
Blanks: the characters that part the words of a line.

Main statements: the words of a line are nonempty and hold no blank
(`words_ne_nil`, `not_isBlank_of_mem_words`).
-/
import Automata.Text.CodeRanges

namespace Automata.Text

/-- The white space of Unicode, with the four separators among the controls. -/
def blankRanges : CodeRanges :=
  [(0x9, 0xD), (0x1C, 0x20), (0x85, 0x85), (0xA0, 0xA0), (0x1680, 0x1680), (0x2000, 0x200A),
   (0x2028, 0x2029), (0x202F, 0x202F), (0x205F, 0x205F), (0x3000, 0x3000)]

/-- Whether a character is a blank. -/
def isBlank (c : Char) : Bool := blankRanges.contains c

/-- The words: the longest runs of characters without a blank. -/
def words : List Char → List (List Char)
  | [] => []
  | c :: cs =>
    if isBlank c then words cs
    else
      match cs with
      | [] => [[c]]
      | d :: _ =>
        if isBlank d then [c] :: words cs
        else
          match words cs with
          | [] => [[c]]
          | w :: ws => (c :: w) :: ws

/-- The text without the blanks at its ends. -/
def trim (cs : List Char) : List Char :=
  ((cs.dropWhile isBlank).reverse.dropWhile isBlank).reverse

theorem words_ne_nil {cs : List Char} {w : List Char} (h : w ∈ words cs) : w ≠ [] := by
  induction cs generalizing w with
  | nil => cases h
  | cons c cs ih =>
    rw [words.eq_def] at h
    simp only at h
    split at h
    · exact ih h
    · split at h
      · simp_all
      · split at h
        · rcases List.mem_cons.1 h with rfl | h
          · simp
          · exact ih h
        · split at h
          · simp_all
          · rename_i hw
            rcases List.mem_cons.1 h with rfl | h
            · simp
            · exact ih (hw ▸ List.mem_cons_of_mem _ h)

theorem not_isBlank_of_mem_words {cs : List Char} {w : List Char} (h : w ∈ words cs) {c : Char}
    (hc : c ∈ w) : isBlank c = false := by
  induction cs generalizing w with
  | nil => cases h
  | cons b cs ih =>
    rw [words.eq_def] at h
    simp only at h
    split at h
    · exact ih h hc
    · rename_i hb
      split at h
      · simp_all
      · split at h
        · rcases List.mem_cons.1 h with rfl | h
          · simp_all
          · exact ih h hc
        · split at h
          · simp_all
          · rename_i hw
            rcases List.mem_cons.1 h with rfl | h
            · rcases List.mem_cons.1 hc with rfl | hc
              · simpa using hb
              · exact ih (hw ▸ List.mem_cons_self) hc
            · exact ih (hw ▸ List.mem_cons_of_mem _ h) hc

end Automata.Text
