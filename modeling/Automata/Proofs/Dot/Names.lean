/-
The names of nodes in DOT source, and how they are read there.

A node is named by a letter and the text of its state. Of a text with a
colon only what comes before the first one is left, unless this is all but
the colon (`stem`). As an identifier a name stands as it is if it is a word
or has letters and numbers only, and is quoted otherwise (`identifier_eq`).

Of the names that stand as they are those with quotes in them are cut off
at the first quote when they are read, and of those in quotes the ones
with a backslash at the end run on to another quote. All others are
legible, and what is read of them is said by `shown`: a word without a
final line feed, and other names with line breaks as they are spelled
(`readNode?_identifier_iff`). At an end of an edge a colon at the end of a
name opens a port that does not come, and so the name cannot be read
there (`readNode?_edgeEnd_iff`).
-/
import Mathlib.Data.List.Infix
import Automata.Proofs.Dot.Reading

namespace Automata.Dot

variable {s t n m x rest : List Char} {mark : String}

-- ====================================================== names of nodes

/-- What is left of the text of a state in the name of its node: what comes
before the first colon, and all of it if there is none or it ends the text. -/
def stem (s : List Char) : List Char :=
  if ((s.dropWhile (· != ':')).drop 1).isEmpty then s else s.takeWhile (· != ':')

/-- The only colon ends the text. -/
def EndsInColon (s : List Char) : Prop := s.getLast? = some ':' ∧ ':' ∉ s.dropLast

instance (s : List Char) : Decidable (EndsInColon s) := inferInstanceAs (Decidable (_ ∧ _))

theorem nodeName_eq (s : Symbol) : nodeName s = 'q' :: stem s.spelling.toList := by
  unfold nodeName withoutPort stem
  exact (apply_ite (List.cons 'q') _ _ _).symm

theorem stem_of_not_mem (h : ':' ∉ s) : stem s = s := by
  have hdrop : s.dropWhile (· != ':') = [] :=
    List.dropWhile_eq_nil_iff.2 fun c hc => bne_iff_ne.2 fun e => h (e ▸ hc)
  unfold stem
  rw [hdrop]
  rfl

theorem stem_append (h : ':' ∉ s) (t : List Char) :
    stem (s ++ ':' :: t) = if t.isEmpty then s ++ [':'] else s := by
  have hs : ∀ c ∈ s, (c != ':') = true := fun c hc => bne_iff_ne.2 fun e => h (e ▸ hc)
  unfold stem
  rw [List.dropWhile_append_of_pos hs, List.takeWhile_append_of_pos hs]
  cases t with
  | nil => rfl
  | cons c t => exact List.append_nil s

theorem endsInColon_append : EndsInColon (s ++ [':']) ↔ ':' ∉ s := by
  unfold EndsInColon
  rw [List.getLast?_concat, List.dropLast_concat]
  exact and_iff_right rfl

/-- A name has a colon at its end at most, and just where the text has its
only one there. -/
theorem stem_cases (s : List Char) : (∃ t, s = t ++ [':'] ∧ ':' ∉ t ∧ stem s = s) ∨
    ¬EndsInColon s ∧ ':' ∉ stem s := by
  by_cases hmem : ':' ∈ s
  · obtain ⟨a, b, rfl, ha⟩ := List.eq_append_cons_of_mem hmem
    rw [stem_append ha]
    cases b with
    | nil => exact Or.inl ⟨a, rfl, ha, rfl⟩
    | cons c b =>
        refine Or.inr ⟨fun h => h.2 ?_, ha⟩
        rw [List.dropLast_append_of_ne_nil (List.cons_ne_nil _ _)]
        exact List.mem_append_right a List.mem_cons_self
  · rw [stem_of_not_mem hmem]
    exact Or.inr ⟨fun h => hmem (List.mem_of_getLast? h.1), hmem⟩

-- ========================================================= identifiers

/-- The text can be the name of a node: it begins as all of them do, and
has no colon but at its end. -/
def IsName (n : List Char) : Prop := n.head? = some 'q' ∧ ':' ∉ n.dropLast

theorem isName_nodeName (s : Symbol) : IsName (nodeName s) := by
  rw [nodeName_eq]
  refine ⟨rfl, ?_⟩
  rcases stem_cases s.spelling.toList with ⟨t, hs, ht, hstem⟩ | ⟨-, h⟩
  · rw [hstem, hs, ← List.cons_append, List.dropLast_concat]
    simpa using ht
  · intro hmem
    have hmem := List.mem_of_mem_dropLast hmem
    simp [h] at hmem

/-- A text with a line feed at its end, or itself, is what is left without it. -/
theorem withoutFinalNewline_cases (n : List Char) :
    withoutFinalNewline n = n ∧ n.getLast? ≠ some '\n' ∨ n = withoutFinalNewline n ++ ['\n'] := by
  unfold withoutFinalNewline
  split
  · obtain ⟨t, rfl⟩ := List.getLast?_eq_some_iff.1 ‹_›
    rw [List.dropLast_concat]
    exact Or.inr rfl
  · exact Or.inl ⟨rfl, ‹_›⟩

theorem mem_of_mem_withoutFinalNewline {c : Char} (h : c ∈ withoutFinalNewline n) : c ∈ n := by
  rcases withoutFinalNewline_cases n with ⟨hn, -⟩ | hn
  · exact hn ▸ h
  · exact hn ▸ List.mem_append_left _ h

theorem mem_withoutFinalNewline_or {c : Char} (h : c ∈ n) :
    c ∈ withoutFinalNewline n ∨ c = '\n' := by
  rcases withoutFinalNewline_cases n with ⟨hn, -⟩ | hn
  · exact Or.inl (hn.symm ▸ h)
  · rw [hn] at h
    simpa using h

theorem mem_withoutFinalNewline_of_mem_dropLast {c : Char} (h : c ∈ n.dropLast) :
    c ∈ withoutFinalNewline n := by
  rcases withoutFinalNewline_cases n with ⟨hn, -⟩ | hn
  · exact hn.symm ▸ List.mem_of_mem_dropLast h
  · rwa [hn, List.dropLast_concat] at h

/-- What begins like a name keeps its beginning without a final line feed. -/
theorem withoutFinalNewline_cons (z : List Char) :
    ∃ w, withoutFinalNewline ('q' :: z) = 'q' :: w := by
  rcases withoutFinalNewline_cases ('q' :: z) with ⟨hn, -⟩ | hn
  · exact ⟨z, hn⟩
  · cases hw : withoutFinalNewline ('q' :: z) with
    | nil =>
        rw [hw] at hn
        exact absurd (List.cons.inj hn).1 (by decide)
    | cons c w =>
        rw [hw] at hn
        exact ⟨w, (List.cons.inj hn).1 ▸ rfl⟩

/-- The name consists of characters of bare identifiers and of quotes, a
final line feed apart. -/
def IsWord (n : List Char) : Prop :=
  ∀ c ∈ withoutFinalNewline n, isNameRest c = true ∨ c = Text.doubleQuote

instance (n : List Char) : Decidable (IsWord n) := List.decidableBAll _ _

/-- Words are plain names, or names with quotes inside. -/
theorem isPlainName_or_isLooseName (hn : IsName n) :
    (isPlainName n || isLooseName n) = true ↔ IsWord n := by
  obtain ⟨z, rfl⟩ := List.head?_eq_some_iff.1 hn.1
  obtain ⟨w, hw⟩ := withoutFinalNewline_cons z
  have hcolon : ':' ∈ w → w.getLast? = some ':' := by
    intro hmem
    rcases withoutFinalNewline_cases ('q' :: z) with ⟨hz, -⟩ | hz
    · rw [hz] at hw
      obtain ⟨v, c, rfl⟩ := List.eq_nil_or_concat' w |>.resolve_left (List.ne_nil_of_mem hmem)
      have hv : ':' ∉ v := by
        have hdrop := hn.2
        rw [hw, ← List.cons_append, List.dropLast_concat] at hdrop
        exact fun h => hdrop (List.mem_cons_of_mem _ h)
      rw [List.getLast?_concat]
      exact congrArg some (List.mem_singleton.1 ((List.mem_append.1 hmem).resolve_left hv)).symm
    · rw [hw] at hz
      have hdrop := hn.2
      rw [hz, List.dropLast_concat] at hdrop
      exact absurd (List.mem_cons_of_mem _ hmem) hdrop
  have hq : isNameStart 'q' = true := rfl
  have hword : IsWord ('q' :: z) ↔ ∀ c ∈ w, isNameRest c = true ∨ c = Text.doubleQuote := by
    unfold IsWord
    rw [hw, List.forall_mem_cons]
    exact and_iff_right (Or.inl rfl)
  rw [hword]
  unfold isPlainName isLooseName
  simp only [hw, hq, Bool.true_and, Bool.or_eq_true, Bool.and_eq_true, List.all_eq_true, beq_iff_eq,
    Option.any_eq_true, bne_iff_ne]
  constructor
  · rintro (hplain | ⟨hloose, d, hlast, hd⟩) c hc
    · exact Or.inl (hplain c hc)
    · rcases hloose c hc with (h | rfl) | h
      · exact Or.inl h
      · rw [hcolon hc] at hlast
        exact absurd (Option.some.inj hlast).symm hd
      · exact Or.inr h
  · intro h
    rcases List.eq_nil_or_concat' w with rfl | ⟨v, d, rfl⟩
    · exact Or.inl fun c hc => absurd hc List.not_mem_nil
    · refine Or.inr ⟨fun c hc => (h c hc).imp_left Or.inl, d, List.getLast?_concat, ?_⟩
      rintro rfl
      exact absurd (h ':' (List.mem_append_right v List.mem_cons_self)) (by decide)

/-- The name stands for itself as an identifier. -/
def IsBare (n : List Char) : Prop := n.all Text.isAlphanumeric = true ∨ IsWord n

instance (n : List Char) : Decidable (IsBare n) := inferInstanceAs (Decidable (_ ∨ _))

theorem isKeyword_of_head? (h : n.head? = some 'q') : isKeyword n = false := by
  obtain ⟨z, rfl⟩ := List.head?_eq_some_iff.1 h
  refine isKeyword_eq_false ?_
  simp [keywords]

/-- A name is enclosed by no characters but its own first one. -/
theorem isEnclosed_eq_false (hn : IsName n) {first last : Char} (h : first ≠ 'q') :
    isEnclosed first last n = false := by
  obtain ⟨z, rfl⟩ := List.head?_eq_some_iff.1 hn.1
  obtain ⟨w, hw⟩ := withoutFinalNewline_cons z
  unfold isEnclosed
  simp [hw, h.symm]

theorem isNumber_eq_false (hn : IsName n) : isNumber n = false := by
  obtain ⟨z, rfl⟩ := List.head?_eq_some_iff.1 hn.1
  obtain ⟨w, hw⟩ := withoutFinalNewline_cons z
  have hq : ('q'.isDigit || 'q' == '.') = false := by decide
  unfold isNumber
  simp only [hw, List.all_cons, hq, Bool.false_and, Bool.and_false]

/-- Whether a character is beyond ASCII, or null. -/
def isForeign (c : Char) : Bool := c.toNat = 0 || 0x7F < c.toNat

/-- Only names of letters and numbers are settled by their characters, and
those with foreign ones. -/
theorem needsQuotes?_eq (hn : IsName n) : needsQuotes? n =
    if n.all Text.isAlphanumeric then some false
    else if n.any isForeign then some true else none := by
  obtain ⟨z, hz⟩ := List.head?_eq_some_iff.1 hn.1
  have hdigit : Text.isDigit 'q' = false := by decide +kernel
  have hempty : n.isEmpty = false := by rw [hz]; rfl
  have hhead : n.head?.any Text.isDigit = false := by rw [hn.1]; exact hdigit
  have hdigits : n.all Text.isDigit = false := by rw [hz, List.all_cons, hdigit, Bool.false_and]
  have hquoted : isQuotedString n = false := isEnclosed_eq_false hn (by decide)
  have hhtml : isHtmlString n = false := isEnclosed_eq_false hn (by decide)
  unfold needsQuotes?
  simp only [hempty, hdigits, hhead, hquoted, hhtml, isNumber_eq_false hn, Bool.not_false,
    Bool.true_and, Bool.and_true, Bool.false_or, Bool.false_eq_true, if_false]
  rfl

theorem isNameRest_bounds {c : Char} (h : isNameRest c = true) : 48 ≤ c.toNat ∧ c.toNat ≤ 122 := by
  unfold isNameRest Char.isAlphanum Char.isAlpha Char.isUpper Char.isLower at h
  simp only [Bool.or_eq_true, Bool.and_eq_true, decide_eq_true_eq, beq_iff_eq, ← Char.toNat_inj,
    Text.asciiDigit_iff] at h
  rcases h with ((h | h) | h) | h
  · exact ⟨le_trans (by decide) h.1, le_trans h.2 (by decide)⟩
  · exact ⟨le_trans (by decide) h.1, h.2⟩
  · exact ⟨h.1, le_trans h.2 (by decide)⟩
  · rw [h]
    decide

/-- Words have no foreign characters. -/
theorem not_any_isForeign (h : IsWord n) : ¬n.any isForeign = true := by
  intro hany
  obtain ⟨c, hc, hforeign⟩ := List.any_eq_true.1 hany
  unfold isForeign at hforeign
  rw [Bool.or_eq_true, decide_eq_true_eq, decide_eq_true_eq] at hforeign
  rcases mem_withoutFinalNewline_or hc with hc | rfl
  · rcases h c hc with hrest | rfl
    · have hbounds := isNameRest_bounds hrest
      omega
    · exact absurd hforeign (by decide)
  · exact absurd hforeign (by decide)

/-- All names that are not bare are quoted. -/
theorem identifier_eq (hn : IsName n) : identifier n = if IsBare n then n else inQuotes n := by
  have hempty : n.isEmpty = false := by
    obtain ⟨z, rfl⟩ := List.head?_eq_some_iff.1 hn.1
    rfl
  unfold identifier
  simp only [hempty, isKeyword_of_head? hn.1, needsQuotes?_eq hn, Bool.false_eq_true, if_false]
  by_cases hletters : n.all Text.isAlphanumeric = true
  · have hbare : IsBare n := Or.inl hletters
    rw [if_pos hletters, if_pos hbare]
  · rw [if_neg hletters]
    by_cases hword : IsWord n
    · have hbare : IsBare n := Or.inr hword
      rw [if_neg (not_any_isForeign hword), if_pos hbare]
      exact if_pos ((isPlainName_or_isLooseName hn).2 hword)
    · have hbare : ¬IsBare n := not_or.2 ⟨hletters, hword⟩
      have hplain := (isPlainName_or_isLooseName hn).not.2 hword
      rw [if_neg hbare]
      by_cases hforeign : n.any isForeign = true
      · rw [if_pos hforeign]
      · rw [if_neg hforeign]
        refine (if_neg hplain).trans ?_
        split
        · -- the colon is at the end, and nothing comes behind it
          rename_i hcount
          have hmem : ':' ∈ n := List.count_pos_iff.1 (by omega)
          obtain ⟨t, c, rfl⟩ := (List.eq_nil_or_concat' n).resolve_left (List.ne_nil_of_mem hmem)
          have ht := hn.2
          rw [List.dropLast_concat] at ht
          obtain rfl := List.mem_singleton.1 ((List.mem_append.1 hmem).resolve_left ht)
          have hne : ∀ c ∈ t, (c != ':') = true := fun c hc => bne_iff_ne.2 fun e => ht (e ▸ hc)
          have hpart : ((t ++ [':']).dropWhile (· != ':')).drop 1 = [] := by
            rw [List.dropWhile_append_of_pos hne]
            rfl
          rw [hpart]
          exact if_pos (Bool.or_eq_true_iff.2 (Or.inr rfl))
        · rfl

-- ============================================================= reading

/-- The name is bare with quotes in it, so that they cut it off. -/
def CutOff (n : List Char) : Prop := Text.doubleQuote ∈ n ∧ IsWord n

/-- The identifier of the name can be read: it is not cut off, and no
backslash takes its closing quote away. -/
def Legible (n : List Char) : Prop := ¬CutOff n ∧ n.getLast? ≠ some '\\'

instance (n : List Char) : Decidable (CutOff n) := inferInstanceAs (Decidable (_ ∧ _))

instance (n : List Char) : Decidable (Legible n) := inferInstanceAs (Decidable (_ ∧ _))

/-- What the identifier of the name is read as. A bare word is read without
a final line feed, which is a blank. -/
def shown (n : List Char) : List Char := if IsWord n then withoutFinalNewline n else spelled n

theorem readValue?_word (hq : n.head? = some 'q') (hn : ∀ c ∈ n, isBareRest c = true)
    (hrest : ∀ d ∈ rest.head?, isBareRest d = false) :
    readValue? (n ++ rest) = some (.text n, rest) := by
  have hkey := isKeyword_of_head? hq
  obtain ⟨z, rfl⟩ := List.head?_eq_some_iff.1 hq
  exact readValue?_bare (by decide) (List.forall_mem_cons.1 hn).2 hkey hrest

/-- A legible identifier is read as a name, and a line feed at its end may
be left. -/
theorem readValue?_identifier (hn : IsName n) (hlegible : Legible n)
    (hrest : ∀ d ∈ rest.head?, isBareRest d = false) :
    ∃ b, (b = [] ∨ b = ['\n']) ∧
      readValue? (identifier n ++ rest) = some (.text (shown n), b ++ rest) := by
  rw [identifier_eq hn, shown]
  by_cases hword : IsWord n
  · have hbare : IsBare n := Or.inr hword
    have hquote : Text.doubleQuote ∉ n := fun h => hlegible.1 ⟨h, hword⟩
    have hrests : ∀ c ∈ withoutFinalNewline n, isBareRest c = true := by
      intro c hc
      refine isBareRest_of_isNameRest ((hword c hc).resolve_right ?_)
      rintro rfl
      exact hquote (mem_of_mem_withoutFinalNewline hc)
    have hq : (withoutFinalNewline n).head? = some 'q' := by
      obtain ⟨z, hz⟩ := List.head?_eq_some_iff.1 hn.1
      obtain ⟨w, hw⟩ := withoutFinalNewline_cons z
      rw [hz, hw]
      rfl
    rw [if_pos hbare, if_pos hword]
    rcases withoutFinalNewline_cases n with ⟨hsame, -⟩ | hfeed
    · rw [hsame] at hq hrests ⊢
      exact ⟨[], Or.inl rfl, readValue?_word hq hrests hrest⟩
    · have happend : n ++ rest = withoutFinalNewline n ++ '\n' :: rest := by
        conv_lhs => rw [hfeed, List.append_assoc, List.singleton_append]
      rw [happend]
      have hbreak := forall_head?_isBareRest (c := '\n') (by decide) rest
      exact ⟨['\n'], Or.inr rfl, readValue?_word hq hrests hbreak⟩
  · rw [if_neg hword]
    by_cases hall : n.all Text.isAlphanumeric = true
    · have hbare : IsBare n := Or.inl hall
      have hletters := List.all_eq_true.1 hall
      have hfeed : '\n' ∉ n := fun h => absurd (hletters _ h) (by decide +kernel)
      have hreturn : '\r' ∉ n := fun h => absurd (hletters _ h) (by decide +kernel)
      rw [if_pos hbare, spelled_eq hfeed hreturn]
      refine ⟨[], Or.inl rfl, ?_⟩
      exact readValue?_word hn.1 (fun c hc => isBareRest_of_isAlphanumeric (hletters c hc)) hrest
    · have hbare : ¬IsBare n := not_or.2 ⟨hall, hword⟩
      rw [if_neg hbare]
      exact ⟨[], Or.inl rfl, readValue?_inQuotes hlegible.2 rest⟩

/-- No blanks come before an identifier. -/
theorem skipBlanks_identifier (hn : IsName n) (rest : List Char) :
    skipBlanks (identifier n ++ rest) = identifier n ++ rest := by
  rw [identifier_eq hn]
  split
  · obtain ⟨z, rfl⟩ := List.head?_eq_some_iff.1 hn.1
    rfl
  · rfl

/-- At a bare quote the name breaks off, and there no mark is. -/
theorem readNode?_cutOff (hmark : mark ∈ marks) (hn : IsName n) (hcut : CutOff n)
    (rest : List Char) : readNode? mark (identifier n ++ rest) = none := by
  have hbare : IsBare n := Or.inr hcut.2
  obtain ⟨p, more, hsplit, hp⟩ := List.eq_append_cons_of_mem hcut.1
  have hq : p.head? = some 'q' := by
    have hq := hn.1
    rw [hsplit] at hq
    cases p with
    | nil => exact absurd (Option.some.inj hq) (by decide)
    | cons c p => exact hq
  have hrests : ∀ c ∈ p, isBareRest c = true := by
    intro c hc
    have hw : c ∈ withoutFinalNewline n := by
      refine mem_withoutFinalNewline_of_mem_dropLast ?_
      rw [hsplit, List.dropLast_append_of_ne_nil (List.cons_ne_nil _ _)]
      exact List.mem_append_left _ hc
    refine isBareRest_of_isNameRest ((hcut.2 c hw).resolve_right ?_)
    rintro rfl
    exact hp hc
  have hread : readValue? (skipBlanks (identifier n ++ rest)) =
      some (.text p, Text.doubleQuote :: (more ++ rest)) := by
    rw [skipBlanks_identifier hn, identifier_eq hn, if_pos hbare, hsplit, List.append_assoc]
    exact readValue?_word hq hrests (forall_head?_isBareRest (by decide) _)
  rw [readNode?_eq hread, skipMark?_doubleQuote hmark]
  rfl

/-- A name that a backslash ends is not bare. -/
theorem identifier_backslash (hn : IsName n) (h : n.getLast? = some '\\') :
    identifier n = inQuotes n := by
  have hmem := List.mem_of_getLast? h
  rw [identifier_eq hn]
  refine if_neg (not_or.2 ⟨fun hall => ?_, fun hword => ?_⟩)
  · exact absurd (List.all_eq_true.1 hall _ hmem) (by decide +kernel)
  · rcases mem_withoutFinalNewline_or hmem with hw | hw
    · exact absurd (hword _ hw) (by decide)
    · exact absurd hw (by decide)

/-- Behind a name that a backslash ends, reading goes on to another quote,
and so further than to the mark. -/
theorem readNode?_backslash {p : List Char} (hn : IsName n) (h : n.getLast? = some '\\')
    (hp : Text.doubleQuote ∉ p) :
    readNode? mark (identifier n ++ (p ++ rest)) ≠ some (x, rest) := by
  obtain ⟨t, ht⟩ := List.getLast?_eq_some_iff.1 h
  have hread := readValue?_inQuotes_backslash t (p ++ rest)
  rw [← ht, ← identifier_backslash hn h, ← skipBlanks_identifier hn] at hread
  cases hquoted : readQuoted? (p ++ rest) with
  | none =>
      rw [hquoted] at hread
      rw [readNode?, hread]
      exact nofun
  | some r =>
      rw [hquoted] at hread
      rw [readNode?_eq hread]
      intro h
      obtain ⟨more, hmore, he⟩ := Option.map_eq_some_iff.1 h
      cases he
      have hle := (skipMark?_suffix hmore).length_le
      have hlt := length_lt_of_readQuoted? hp hquoted
      exact absurd hle (Nat.not_le.2 hlt)

/-- With no quote before the mark, an identifier is read just if it is
legible and the mark is found from where it ends. -/
theorem readNode?_identifier_append_iff {p : List Char} (hmark : mark ∈ marks) (hn : IsName n)
    (hp : Text.doubleQuote ∉ p) (hrest : ∀ d ∈ (p ++ rest).head?, isBareRest d = false) :
    readNode? mark (identifier n ++ (p ++ rest)) = some (x, rest) ↔
      (Legible n ∧ shown n = x) ∧ skipMark? mark (p ++ rest) = some rest := by
  by_cases hcut : CutOff n
  · rw [readNode?_cutOff hmark hn hcut]
    exact iff_of_false nofun fun h => h.1.1.1 hcut
  by_cases hback : n.getLast? = some '\\'
  · exact iff_of_false (readNode?_backslash hn hback hp) fun h => h.1.1.2 hback
  have hlegible : Legible n := ⟨hcut, hback⟩
  obtain ⟨b, hb, hread⟩ := readValue?_identifier hn hlegible hrest
  rw [← skipBlanks_identifier hn] at hread
  have hskip : skipMark? mark (b ++ (p ++ rest)) = skipMark? mark (p ++ rest) := by
    rcases hb with rfl | rfl
    · rfl
    · exact skipMark?_newline mark _
  rw [readNode?_eq hread, hskip, and_iff_right hlegible]
  simp [and_comm]

/-- The identifier of a node, with a mark behind it, is read just if it is
legible. -/
theorem readNode?_identifier_iff (hmark : mark ∈ marks) (hn : IsName n) :
    readNode? mark (identifier n ++ ' ' :: (mark.toList ++ rest)) = some (x, rest) ↔
      Legible n ∧ shown n = x := by
  have hquote := doubleQuote_not_mem_mark hmark
  have hspace := forall_head?_isBareRest (c := ' ') (by decide) (mark.toList ++ rest)
  have hskip := skipMark?_mark hmark rest
  exact (readNode?_identifier_append_iff hmark hn hquote hspace).trans (and_iff_left hskip)

/-- A colon behind an identifier, with no port behind it, makes it unreadable. -/
theorem readNode?_colon (hmark : mark ∈ marks) (hn : IsName n) :
    readNode? mark (identifier n ++ ':' :: ' ' :: (mark.toList ++ rest)) ≠ some (x, rest) := by
  have hquote : Text.doubleQuote ∉ ':' :: ' ' :: mark.toList :=
    List.not_mem_cons_of_ne_of_not_mem (by decide) (doubleQuote_not_mem_mark hmark)
  have hcolon := forall_head?_isBareRest (c := ':') (by decide) (' ' :: (mark.toList ++ rest))
  intro h
  have hskip := ((readNode?_identifier_append_iff hmark hn hquote hcolon).1 h).2
  exact Option.some_ne_none _ (hskip.symm.trans (skipMark?_colon hmark rest))

-- ======================================================== ends of edges

theorem edgeEnd_of_not_mem (h : ':' ∉ n) : edgeEnd n = identifier n := by
  have hdrop : n.reverse.dropWhile (· != ':') = [] := by
    refine List.dropWhile_eq_nil_iff.2 fun c hc => bne_iff_ne.2 fun e => h ?_
    exact e ▸ List.mem_reverse.1 hc
  unfold edgeEnd
  rw [hdrop]
  rfl

theorem edgeEnd_append (h : n ≠ []) : edgeEnd (n ++ [':']) = identifier n ++ [':'] := by
  unfold edgeEnd
  simp [h]
  rfl

/-- As an end of an edge a node is read just if it is legible and has no
colon behind it. -/
theorem readNode?_edgeEnd_iff (hmark : mark ∈ marks) (s : Symbol) :
    readNode? mark (edgeEnd (nodeName s) ++ ' ' :: (mark.toList ++ rest)) = some (x, rest) ↔
      ¬EndsInColon s.spelling.toList ∧ Legible (nodeName s) ∧ shown (nodeName s) = x := by
  have hname := isName_nodeName s
  rcases stem_cases s.spelling.toList with ⟨t, hs, ht, hstem⟩ | ⟨hcolon, hstem⟩
  · have hends : EndsInColon s.spelling.toList := hs ▸ endsInColon_append.2 ht
    have hn : nodeName s = 'q' :: t ++ [':'] := by rw [nodeName_eq, hstem, hs]; rfl
    have hbefore : IsName ('q' :: t) := by
      refine ⟨rfl, fun h => ?_⟩
      simpa [ht] using List.mem_of_mem_dropLast h
    rw [hn, edgeEnd_append (List.cons_ne_nil _ _), List.append_assoc]
    exact iff_of_false (readNode?_colon hmark hbefore) fun h => h.1 hends
  · have hn : ':' ∉ nodeName s := by
      rw [nodeName_eq]
      exact List.not_mem_cons_of_ne_of_not_mem (by decide) hstem
    rw [edgeEnd_of_not_mem hn, readNode?_identifier_iff hmark hname]
    exact (and_iff_right hcolon).symm

theorem head?_shown (hn : IsName n) : (shown n).head? = some 'q' := by
  obtain ⟨z, rfl⟩ := List.head?_eq_some_iff.1 hn.1
  unfold shown
  split
  · obtain ⟨w, hw⟩ := withoutFinalNewline_cons z
    rw [hw]
    rfl
  · rfl

end Automata.Dot
