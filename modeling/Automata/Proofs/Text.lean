/-
Written text is read back: lines that are ended split into the same lines,
words that are joined split into the same words, and the numeral of a
number is read as that number.

A line or a word has to be free of what it is parted by. The characters
that part lines also part words (`isBlank_of_isLineBreak`), so a line that
is made of words with spaces between them is not broken anywhere. Numerals
consist of decimal digits, which part nothing.

A line feed, a carriage return and the one behind the other end a line
each, and no more than one, so that it makes no difference to the lines
when all three become line feeds (`lines_uniformNewlines`).
-/
import Mathlib.Algebra.Group.Nat.Defs
import Mathlib.Data.List.Basic
import Automata.Text.Blank
import Automata.Text.Lines
import Automata.Text.Numeral

namespace Automata.Text

variable {c : Char} {cs l w : List Char} {n : Nat}

-- ============================================================== blanks

theorem isBlank_iff : isBlank c = true ↔ ∃ r ∈ blankRanges, r.1 ≤ c.toNat ∧ c.toNat ≤ r.2 := by
  simp [isBlank, CodeRanges.contains]

theorem isLineBreak_iff :
    isLineBreak c = true ↔ ∃ r ∈ lineBreakRanges, r.1 ≤ c.toNat ∧ c.toNat ≤ r.2 := by
  simp [isLineBreak, CodeRanges.contains]

/-- What parts lines parts words. -/
theorem isBlank_of_isLineBreak (h : isLineBreak c = true) : isBlank c = true := by
  rw [isLineBreak_iff] at h
  rw [isBlank_iff]
  simp only [lineBreakRanges, blankRanges, List.exists_mem_cons_iff, List.not_mem_nil, false_and,
    exists_false, or_false] at h ⊢
  omega

theorem asciiDigit_iff : c.isDigit = true ↔ 48 ≤ c.toNat ∧ c.toNat ≤ 57 := by
  unfold Char.isDigit
  rw [Bool.and_eq_true, decide_eq_true_eq, decide_eq_true_eq]
  exact Iff.rfl

theorem digit_bounds (h : c.isDigit = true) : 48 ≤ c.toNat ∧ c.toNat ≤ 57 := asciiDigit_iff.1 h

theorem not_isBlank_of_isDigit (h : c.isDigit = true) : isBlank c = false := by
  have hbounds := digit_bounds h
  rw [← Bool.not_eq_true, isBlank_iff]
  simp only [blankRanges, List.exists_mem_cons_iff, List.not_mem_nil, false_and, exists_false,
    or_false]
  omega

-- =============================================================== words

theorem words_cons_cons (a b : Char) (l : List Char) : words (a :: b :: l) =
    if isBlank a then words (b :: l)
    else if isBlank b then [a] :: words (b :: l)
    else
      match words (b :: l) with
      | [] => [[a]]
      | w :: ws => (a :: w) :: ws := rfl

theorem words_cons_of_isBlank (h : isBlank c = true) : words (c :: cs) = words cs := by
  cases cs with
  | nil => simp [words, h]
  | cons d cs => rw [words_cons_cons, if_pos h]

/-- A character goes to the word that the next one begins. -/
theorem words_cons_cons_of_not_isBlank {a b : Char} (ha : isBlank a = false)
    (hb : isBlank b = false) {ws : List (List Char)} (h : words (b :: l) = w :: ws) :
    words (a :: b :: l) = (a :: w) :: ws := by
  rw [words_cons_cons, ha, hb, h]
  rfl

theorem exists_words_cons (h : isBlank c = false) : ∃ w ws, words (c :: cs) = w :: ws := by
  refine List.exists_cons_of_ne_nil ?_
  cases cs with
  | nil =>
      rw [words, h]
      exact List.cons_ne_nil _ _
  | cons d cs =>
      rw [words_cons_cons, h]
      cases isBlank d with
      | true => exact List.cons_ne_nil _ _
      | false => cases words (d :: cs) <;> exact List.cons_ne_nil _ _

/-- A blank parts the words before it from those behind it. -/
theorem words_append_cons (h : isBlank c = true) (l m : List Char) :
    words (l ++ c :: m) = words l ++ words m := by
  induction l with
  | nil => exact words_cons_of_isBlank h
  | cons a l ih =>
      cases ha : isBlank a with
      | true => rw [List.cons_append, words_cons_of_isBlank ha, words_cons_of_isBlank ha, ih]
      | false =>
          cases l with
          | nil =>
              rw [List.cons_append, List.nil_append, words_cons_cons, ha, h,
                words_cons_of_isBlank h, words, ha]
              rfl
          | cons b l =>
              rw [List.cons_append] at ih
              rw [List.cons_append, List.cons_append]
              cases hb : isBlank b with
              | true =>
                  rw [words_cons_cons, words_cons_cons, ha, hb, ih]
                  rfl
              | false =>
                  obtain ⟨v, vs, hv⟩ : ∃ v vs, words (b :: l) = v :: vs := exists_words_cons hb
                  rw [hv] at ih
                  rw [words_cons_cons_of_not_isBlank ha hb hv]
                  exact words_cons_cons_of_not_isBlank ha hb ih

/-- What holds no blank is one word. -/
theorem words_eq_singleton (hne : w ≠ []) (h : ∀ c ∈ w, isBlank c = false) : words w = [w] := by
  induction w with
  | nil => exact absurd rfl hne
  | cons a w ih =>
      obtain ⟨ha, hw⟩ := List.forall_mem_cons.1 h
      cases w with
      | nil =>
          rw [words, ha]
          rfl
      | cons b w =>
          exact words_cons_cons_of_not_isBlank ha (hw b List.mem_cons_self)
            (ih (List.cons_ne_nil _ _) hw)

/-- The texts can stand as words: none is empty, and none holds a blank. -/
def AreWords (ws : List (List Char)) : Prop :=
  ∀ w ∈ ws, w ≠ [] ∧ ∀ c ∈ w, isBlank c = false

theorem isBlank_space : isBlank ' ' = true := by decide

/-- Words with spaces between them are split again. -/
theorem words_intercalate {ws : List (List Char)} (h : AreWords ws) :
    words ([' '].intercalate ws) = ws := by
  induction ws with
  | nil => rfl
  | cons w ws ih =>
      obtain ⟨⟨hne, hw⟩, hws⟩ := List.forall_mem_cons.1 h
      cases ws with
      | nil =>
          rw [List.intercalate_singleton]
          exact words_eq_singleton hne hw
      | cons v vs =>
          rw [List.intercalate_cons_cons, List.append_assoc, List.singleton_append,
            words_append_cons isBlank_space, words_eq_singleton hne hw, ih hws]
          rfl

/-- A character among joined words is one of the separator or of a word. -/
theorem mem_intercalate {sep : List Char} {ws : List (List Char)} (h : c ∈ sep.intercalate ws) :
    c ∈ sep ∨ ∃ w ∈ ws, c ∈ w := by
  induction ws with
  | nil => cases h
  | cons w ws ih =>
      cases ws with
      | nil =>
          rw [List.intercalate_singleton] at h
          exact Or.inr ⟨w, List.mem_singleton_self w, h⟩
      | cons v vs =>
          rw [List.intercalate_cons_cons, List.mem_append, List.mem_append] at h
          rcases h with (h | h) | h
          · exact Or.inr ⟨w, List.mem_cons_self, h⟩
          · exact Or.inl h
          · refine (ih h).imp_right fun h => ?_
            obtain ⟨u, hu, hc⟩ := h
            exact ⟨u, List.mem_cons_of_mem _ hu, hc⟩

/-- A line of words is not broken. -/
theorem not_isLineBreak_of_mem_intercalate {ws : List (List Char)} (h : AreWords ws)
    (hc : c ∈ [' '].intercalate ws) : isLineBreak c = false := by
  rcases mem_intercalate hc with hc | ⟨w, hw, hcw⟩
  · rw [List.mem_singleton.1 hc]
    decide
  · have hblank := (h w hw).2 c hcw
    rw [← Bool.not_eq_true] at hblank ⊢
    exact fun hbreak => hblank (isBlank_of_isLineBreak hbreak)

-- =============================================================== lines

/-- A character with which no pair begins ends a line by itself or goes to
the line behind it. -/
theorem lines_cons (h : ∀ ds, c = '\r' → cs ≠ '\n' :: ds) : lines (c :: cs) =
    if isLineBreak c then [] :: lines cs
    else match lines cs with
      | [] => [[c]]
      | l :: ls => (c :: l) :: ls :=
  lines.eq_3 c cs h

theorem lines_newline (cs : List Char) : lines ('\n' :: cs) = [] :: lines cs := by
  rw [lines_cons fun _ h => absurd h (by decide)]
  rfl

/-- A line that is ended is split off. -/
theorem lines_append_newline (h : ∀ c ∈ l, isLineBreak c = false) (m : List Char) :
    lines (l ++ '\n' :: m) = l :: lines m := by
  induction l with
  | nil => exact lines_newline m
  | cons a l ih =>
      obtain ⟨ha, hl⟩ := List.forall_mem_cons.1 h
      have hreturn : a ≠ '\r' := by
        rintro rfl
        exact absurd ha (by decide)
      rw [List.cons_append, lines_cons fun _ h => absurd h hreturn, ha, ih hl]
      rfl

/-- Ended lines are split again. -/
theorem lines_flatMap {ls : List (List Char)}
    (h : ∀ l ∈ ls, ∀ c ∈ l, isLineBreak c = false) : lines (ls.flatMap (· ++ ['\n'])) = ls := by
  induction ls with
  | nil => rfl
  | cons l ls ih =>
      obtain ⟨hl, hls⟩ := List.forall_mem_cons.1 h
      rw [List.flatMap_cons, List.append_assoc, List.singleton_append, lines_append_newline hl,
        ih hls]

/-- A text has the same lines with uniform newlines. -/
theorem lines_uniformNewlines (cs : List Char) : lines (uniformNewlines cs) = lines cs := by
  fun_induction uniformNewlines cs with
  | case1 => rfl
  | case2 cs ih => rw [lines_newline, ih, lines]
  | case3 cs hpair ih =>
      rw [lines_newline, ih, lines_cons fun ds _ => hpair ds]
      rfl
  | case4 c cs hpair hreturn ih =>
      rw [lines_cons fun _ h => absurd h hreturn, lines_cons fun _ h => absurd h hreturn, ih]

-- ============================================================ numerals

/-- A number written in base ten. -/
def numeral (n : Nat) : List Char := Nat.toDigits 10 n

theorem decimalValue?_of_isDigit (h : c.isDigit = true) : decimalValue? c = some (c.toNat - 48) := by
  obtain ⟨hlo, hhi⟩ := digit_bounds h
  unfold decimalValue? decimalZeros
  rw [List.find?_cons_of_pos]
  · rfl
  · simp only [Bool.and_eq_true, decide_eq_true_eq]
    omega

/-- A row of decimal digits has their values. -/
theorem digitRow?_eq_some (hne : cs ≠ []) (h : ∀ c ∈ cs, c.isDigit = true) :
    digitRow? cs = some (cs.map fun c => c.toNat - 48) := by
  induction cs with
  | nil => exact absurd rfl hne
  | cons a cs ih =>
      obtain ⟨ha, hcs⟩ := List.forall_mem_cons.1 h
      cases cs with
      | nil =>
          rw [digitRow?, decimalValue?_of_isDigit ha]
          rfl
      | cons b cs =>
          have hb : b ≠ '_' := by
            rintro rfl
            exact absurd (hcs _ List.mem_cons_self) (by decide)
          rw [digitRow?, decimalValue?_of_isDigit ha, ih (List.cons_ne_nil _ _) hcs]
          · rfl
          · exact List.cons_ne_nil _ _
          · exact fun ds hds => hb (List.cons.inj hds).1

theorem ofDigits_map (cs : List Char) :
    ofDigits (cs.map fun c => c.toNat - 48) = Nat.ofDigitChars 10 cs 0 := by
  unfold ofDigits Nat.ofDigitChars
  rw [List.foldl_map]
  rfl

theorem numeral_ne_nil : numeral n ≠ [] := by
  unfold numeral
  rw [Nat.toDigits_eq_if (by decide)]
  split
  · exact List.cons_ne_nil _ _
  · exact List.append_ne_nil_of_right_ne_nil _ (List.cons_ne_nil _ _)

theorem isDigit_of_mem_numeral (h : c ∈ numeral n) : c.isDigit = true :=
  Nat.isDigit_of_mem_toDigits (by decide) (by decide) h

theorem areWords_numeral (n : Nat) : AreWords [numeral n] :=
  List.forall_mem_singleton.2
    ⟨numeral_ne_nil, fun _ hc => not_isBlank_of_isDigit (isDigit_of_mem_numeral hc)⟩

theorem digitLimit_eq : digitLimit = 10 ^ maxDigits := by
  unfold digitLimit
  generalize maxDigits = k
  exact Nat.pow_eq

/-- What has no more digits than a numeral may have lies below the limit. -/
theorem length_numeral_le_iff : (numeral n).length ≤ maxDigits ↔ n < digitLimit := by
  rw [digitLimit_eq]
  exact Nat.length_toDigits_le_iff (by decide) (by decide)

/-- The numeral of a number that is not too long is read as the number. -/
theorem integer?_numeral (h : n < digitLimit) : integer? (numeral n) = some (n : Int) := by
  have hlength := length_numeral_le_iff.2 h
  have hnatural : natural? (numeral n) = some n := by
    unfold natural?
    rw [digitRow?_eq_some numeral_ne_nil fun _ => isDigit_of_mem_numeral, Option.bind_eq_bind,
      Option.bind_some, List.length_map, if_pos hlength, ofDigits_map]
    exact congrArg some (Nat.ofDigitChars_toDigits (by decide) (by decide))
  unfold integer?
  split
  · rename_i cs hcs
    exact absurd (isDigit_of_mem_numeral (hcs ▸ List.mem_cons_self)) (by decide)
  · rename_i cs hcs
    exact absurd (isDigit_of_mem_numeral (hcs ▸ List.mem_cons_self)) (by decide)
  · rw [hnatural]
    rfl

end Automata.Text
