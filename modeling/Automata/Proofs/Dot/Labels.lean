/-
How the labels of edges are read in the source of a drawing.

The letters of an edge go on it in the order of their code points
(`SymbolSet.exists_listing_eq`), with commas between them. Of labels of
more letters than one only those that angle brackets enclose are not
quoted (`needsQuotes?_joined`): a comma is no part of a word or a number,
and two quotes at the ends would be one letter twice. The order leaves no
room between the brackets but for an equals sign, so there are two such
labels (`isHtmlString_joined`). A single letter may stand bare, and is read
as it is then (`readValue?_letter`).

A quoted label is read back unless a backslash ends it. All in all a label
is read as it is unless it is one of these, and in which case is settled
by its letters alone (`readValue?_label_iff`).
-/
import Mathlib.Data.Set.List
import Automata.Proofs.Dot.Nodes

namespace Automata

-- ======================================================= listing order

namespace Symbol

theorem listedBefore_asymm (a b : Symbol) (h : a.listedBefore b = true) :
    ¬b.listedBefore a = true := by
  unfold listedBefore at h ⊢
  split_ifs at h ⊢ with hab hba hba
  · rw [decide_eq_true_eq] at h ⊢
    exact lt_asymm h
  · exact absurd hab.symm hba
  · exact absurd hba.symm hab
  · rw [decide_eq_true_eq] at h ⊢
    exact Nat.lt_asymm h

theorem not_listedBefore_trans (a b c : Symbol) (h : ¬b.listedBefore a = true)
    (h' : ¬c.listedBefore b = true) : ¬c.listedBefore a = true := by
  unfold listedBefore at h h' ⊢
  split_ifs at h h' ⊢ <;> rw [decide_eq_true_eq] at h h' ⊢
  · exact not_lt_trans h h'
  all_goals omega

theorem singleton_inj {x y : Char} : str (.singleton x) = str (.singleton y) ↔ x = y := by
  rw [str.injEq, ← String.toList_inj, String.toList_singleton, String.toList_singleton,
    List.cons.injEq, and_iff_left rfl]

/-- Single characters are ordered by their code points. -/
theorem singleton_lt {x y : Char} (h : x.toNat < y.toNat) :
    str (.singleton x) < str (.singleton y) := by
  have hcompare : comparing Char.toNat compareNumbers x y = .lt := if_pos h
  show List.compareLex (comparing Char.toNat compareNumbers) (String.singleton x).toList
    (String.singleton y).toList = .lt
  rw [String.toList_singleton, String.toList_singleton, List.compareLex_cons_cons, hcompare]
  rfl

end Symbol

namespace SymbolSet

variable {s : SymbolSet}

/-- No member is listed before one that comes first in listing order. -/
theorem pairwise_listing (s : SymbolSet) :
    s.listing.Pairwise fun a b => ¬b.listedBefore a = true :=
  pairwise_sortBy Symbol.listedBefore_asymm Symbol.not_listedBefore_trans s.toList

/-- Letters are listed in the order of their code points. -/
theorem exists_listing_eq (h : ∀ c ∈ s, c.IsLetter) :
    ∃ cs : List Char, s.listing = cs.map (fun c => .str (.singleton c)) ∧
      cs.Pairwise (fun c d => c.toNat < d.toNat) ∧ ∀ c ∈ cs, Text.isBlank c = false := by
  have hletter : ∀ c ∈ s.listing, c.IsLetter :=
    fun c hc => h c (mem_of_mem_toList (mem_listing.1 hc))
  have hrange : s.listing ∈ Set.range (List.map fun c => Symbol.str (.singleton c)) := by
    rw [Set.range_list_map]
    intro c hc
    obtain ⟨x, -, rfl⟩ := hletter c hc
    exact ⟨x, rfl⟩
  obtain ⟨cs, hcs⟩ := hrange
  have hpairwise := s.pairwise_listing.and s.distinct_listing
  rw [← hcs, List.pairwise_map] at hpairwise
  refine ⟨cs, hcs.symm, hpairwise.imp fun {c d} hcd => ?_, fun c hc => ?_⟩
  · by_contra hle
    rcases Nat.lt_or_eq_of_le (Nat.le_of_not_lt hle) with hlt | heq
    · exact hcd.1 (decide_eq_true (Symbol.singleton_lt hlt))
    · exact hcd.2 (Char.toNat_inj.1 heq ▸ Setoid.refl _)
  · obtain ⟨x, hx, heq⟩ := hletter _ (hcs ▸ List.mem_map_of_mem hc)
    exact Symbol.singleton_inj.1 heq ▸ hx

end SymbolSet

namespace Dot

-- ============================================================== labels

/-- The letters with commas between them. -/
def joined (cs : List Char) : List Char := [','].intercalate (cs.map ([·]))

/-- The characters are some letters, in rising order. -/
structure Rising (cs : List Char) : Prop where
  ne_nil : cs ≠ []
  rising : cs.Pairwise fun c d => c.toNat < d.toNat
  not_blank : ∀ c ∈ cs, Text.isBlank c = false

/-- The label of these letters is not read as it was: a backslash at its
end takes the closing quote away, and what angle brackets enclose stands
without quotes, as HTML. -/
def Garbled (cs : List Char) : Prop :=
  cs.getLast? = some '\\' ∨ cs = ['<', '>'] ∨ cs = ['<', '=', '>']

instance (cs : List Char) : Decidable (Garbled cs) := inferInstanceAs (Decidable (_ ∨ _ ∨ _))

variable {cs rest : List Char} {c d : Char}

theorem joined_cons (c : Char) (cs : List Char) :
    joined (c :: cs) = c :: cs.flatMap fun d => [',', d] := by
  unfold joined
  rw [List.map_cons, Text.intercalate_cons, List.flatMap_map]
  rfl

theorem getLast?_joined (cs : List Char) : (joined cs).getLast? = cs.getLast? := by
  rcases List.eq_nil_or_concat' cs with rfl | ⟨ds, d, rfl⟩
  · rfl
  · cases ds with
    | nil => rfl
    | cons c ds =>
        have hjoined : joined (c :: ds ++ [d]) =
            c :: ds.flatMap (fun e => [',', e]) ++ [','] ++ [d] := by
          rw [List.cons_append, joined_cons, List.flatMap_append]
          simp
        rw [hjoined, List.getLast?_concat, List.getLast?_concat]

theorem comma_mem_joined (c d : Char) (cs : List Char) : ',' ∈ joined (c :: d :: cs) := by
  simp [joined_cons]

theorem mem_joined (h : d ∈ joined cs) : d ∈ cs ∨ d = ',' := by
  cases cs with
  | nil => cases h
  | cons c cs =>
      rw [joined_cons] at h
      rcases List.mem_cons.1 h with rfl | h
      · exact Or.inl List.mem_cons_self
      · obtain ⟨e, he, hd⟩ := List.mem_flatMap.1 h
        simp only [List.mem_cons, List.not_mem_nil, or_false] at hd
        rcases hd with rfl | rfl
        · exact Or.inr rfl
        · exact Or.inl (List.mem_cons_of_mem _ he)

theorem isKeyword_joined (h : cs ≠ []) : isKeyword (joined cs) = false := by
  have hkeywords : (keywords.map String.toList).all
      (fun w => w.length != 1 && !w.contains ',') = true := by decide
  refine isKeyword_eq_false fun hmem => ?_
  have hnone := List.all_eq_true.1 hkeywords _ hmem
  rw [Bool.and_eq_true, bne_iff_ne] at hnone
  rcases cs with - | ⟨c, - | ⟨d, cs⟩⟩
  · exact h rfl
  · exact hnone.1 rfl
  · have hcomma : ',' ∈ (joined (c :: d :: cs)).map Char.toLower :=
      List.mem_map.2 ⟨',', comma_mem_joined c d cs, rfl⟩
    rw [List.contains_iff_mem.2 hcomma] at hnone
    cases hnone.2

theorem not_mem_joined (h : Rising cs) (hblank : Text.isBlank c = true) : c ∉ joined cs := by
  intro hmem
  rcases mem_joined hmem with hc | rfl
  · rw [h.not_blank c hc] at hblank
    cases hblank
  · exact absurd hblank (by decide)

theorem withoutFinalNewline_joined (h : Rising cs) : withoutFinalNewline (joined cs) = joined cs :=
  if_neg fun hlast => not_mem_joined h (by decide) (List.mem_of_getLast? hlast)

/-- Of more letters than one, characters at both ends are the first and the last. -/
theorem isEnclosed_joined (h : Rising (c :: d :: cs)) {first last : Char} :
    isEnclosed first last (joined (c :: d :: cs)) = true ↔
      c = first ∧ (d :: cs).getLast? = some last := by
  simp only [isEnclosed, withoutFinalNewline_joined h, getLast?_joined, List.getLast?_cons_cons]
  simp [joined_cons]

theorem isHtmlString_joined (h : Rising (c :: d :: cs)) :
    isHtmlString (joined (c :: d :: cs)) = true ↔
      c :: d :: cs = ['<', '>'] ∨ c :: d :: cs = ['<', '=', '>'] := by
  unfold isHtmlString
  rw [isEnclosed_joined h]
  obtain ⟨hc, hrising⟩ := List.pairwise_cons.1 h.rising
  constructor
  · rintro ⟨rfl, hlast⟩
    rcases cs with - | ⟨e, - | ⟨f, cs⟩⟩
    · cases hlast
      exact Or.inl rfl
    · cases hlast
      have hd := hc d List.mem_cons_self
      have hde := (List.pairwise_cons.1 hrising).1 '>' List.mem_cons_self
      have heq : d.toNat = '='.toNat := by
        have hlower : '<'.toNat = 60 := rfl
        have hupper : '>'.toNat = 62 := rfl
        have hmiddle : '='.toNat = 61 := rfl
        omega
      rw [Char.toNat_inj.1 heq]
      exact Or.inr rfl
    · -- there is room for one letter only
      have hmem : '>' ∈ f :: cs := by
        rw [List.getLast?_cons_cons, List.getLast?_cons_cons] at hlast
        exact List.mem_of_getLast? hlast
      obtain ⟨hd, hrest⟩ := List.pairwise_cons.1 hrising
      have h1 := hc d List.mem_cons_self
      have h2 := hd e List.mem_cons_self
      have h3 := (List.pairwise_cons.1 hrest).1 '>' hmem
      have hlower : '<'.toNat = 60 := rfl
      have hupper : '>'.toNat = 62 := rfl
      omega
  · rintro (heq | heq)
    · cases heq
      exact ⟨rfl, rfl⟩
    · cases heq
      exact ⟨rfl, rfl⟩

/-- More letters than one are quoted, unless angle brackets enclose them. -/
theorem needsQuotes?_joined (h : Rising (c :: d :: cs)) :
    needsQuotes? (joined (c :: d :: cs)) = some false ↔
      isHtmlString (joined (c :: d :: cs)) = true := by
  have hcomma := comma_mem_joined c d cs
  have hdigits : (joined (c :: d :: cs)).all Text.isDigit = false :=
    List.all_eq_false.2 ⟨',', hcomma, by decide +kernel⟩
  have hletters : (joined (c :: d :: cs)).all Text.isAlphanumeric = false :=
    List.all_eq_false.2 ⟨',', hcomma, by decide +kernel⟩
  have hdots : (joined (c :: d :: cs)).all (fun c => c.isDigit || c == '.') = false :=
    List.all_eq_false.2 ⟨',', hcomma, by decide⟩
  have hnumber : isNumber (joined (c :: d :: cs)) = false := by
    simp only [isNumber, withoutFinalNewline_joined h, hdots, Bool.and_false, Bool.false_and]
  have hquoted : isQuotedString (joined (c :: d :: cs)) = false := by
    refine Bool.eq_false_iff.2 fun hquoted => ?_
    obtain ⟨rfl, hlast⟩ := (isEnclosed_joined h).1 hquoted
    exact Nat.lt_irrefl _ ((List.pairwise_cons.1 h.rising).1 _ (List.mem_of_getLast? hlast))
  unfold needsQuotes?
  simp only [hdigits, hletters, hnumber, hquoted, Bool.and_false, Bool.false_or, Bool.not_false,
    Bool.and_true, Bool.false_eq_true, if_false]
  cases isHtmlString (joined (c :: d :: cs)) with
  | true => simp
  | false => simp

/-- A letter that is not quoted may stand in a bare identifier. -/
theorem isBareRest_of_needsQuotes? (h : needsQuotes? [c] = some false) : isBareRest c = true := by
  have hsmall : (withoutFinalNewline [c]).length ≤ 1 := by
    unfold withoutFinalNewline
    split
    · exact Nat.zero_le 1
    · exact Nat.le_refl 1
  have henclosed : ∀ first last, isEnclosed first last [c] = false := by
    intro first last
    have hfew : decide (2 ≤ (withoutFinalNewline [c]).length) = false :=
      decide_eq_false (Nat.not_le.2 (Nat.lt_succ_of_le hsmall))
    simp only [isEnclosed, hfew, Bool.false_and]
  have hquoted : isQuotedString [c] = false := henclosed _ _
  have hhtml : isHtmlString [c] = false := henclosed _ _
  unfold needsQuotes? at h
  simp only [hquoted, hhtml, List.all_cons, List.all_nil, Bool.and_true, List.isEmpty_cons,
    Bool.not_false, Bool.true_and, Bool.or_false] at h
  split_ifs at h with hdigit hletter hforeign hnumber
  · exact isBareRest_of_isDigit hdigit
  · exact isBareRest_of_isAlphanumeric hletter
  · cases h
  · unfold isNumber at hnumber
    simp only [Bool.and_eq_true, List.any_eq_true] at hnumber
    obtain ⟨⟨⟨d, hd, hascii⟩, -⟩, -⟩ := hnumber
    obtain rfl := List.mem_singleton.1 (mem_of_mem_withoutFinalNewline hd)
    exact isBareRest_iff.2 (Or.inr hascii)

/-- A single letter that is not quoted is read back. -/
theorem readValue?_letter (hc : isBareRest c = true) (rest : List Char) :
    readValue? (c :: ',' :: rest) = some (.text [c], ',' :: rest) := by
  have hcomma : ∀ d ∈ (',' :: rest).head?, isBareRest d = false ∧ d.isDigit = false ∧ d ≠ '.' := by
    intro d hd
    cases hd
    decide
  rcases isBareRest_iff.1 hc with hstart | hdigit
  · have hnone : ∀ d ∈ ([] : List Char), isBareRest d = true :=
      fun d hd => absurd hd List.not_mem_nil
    have hkey := isKeyword_joined (List.cons_ne_nil c [])
    rw [joined_cons, List.flatMap_nil] at hkey
    have hread := readValue?_bare hstart hnone hkey fun d hd => (hcomma d hd).1
    rwa [List.cons_append, List.nil_append] at hread
  · exact readValue?_digit hdigit fun d hd => (hcomma d hd).2

/-- A label is read back, with a comma behind it, unless it is garbled. -/
theorem readValue?_label_iff (h : Rising cs) (rest : List Char) :
    (∃ more, readValue? (attributeValue (joined cs) ++ ',' :: rest) =
      some (.text (joined cs), more)) ↔ ¬Garbled cs := by
  have hempty : (joined cs).isEmpty = false := by
    rcases cs with - | ⟨c, cs⟩
    · exact absurd rfl h.ne_nil
    · rw [joined_cons]
      rfl
  have hvalue : attributeValue (joined cs) =
      if needsQuotes? (joined cs) = some false then joined cs else inQuotes (joined cs) := by
    unfold attributeValue
    rw [hempty, isKeyword_joined h.ne_nil]
    exact if_neg Bool.false_ne_true
  have hquoted : (∃ more, readValue? (inQuotes (joined cs) ++ ',' :: rest) =
      some (.text (joined cs), more)) ↔ cs.getLast? ≠ some '\\' := by
    rw [← getLast?_joined]
    exact readValue?_inQuotes_iff (not_mem_joined h (by decide)) (not_mem_joined h (by decide))
  rw [hvalue]
  rcases cs with - | ⟨c, - | ⟨d, cs⟩⟩
  · exact absurd rfl h.ne_nil
  · have hgarbled : Garbled [c] ↔ [c].getLast? = some '\\' := by simp [Garbled]
    rw [hgarbled]
    split
    · have hc := isBareRest_of_needsQuotes? ‹_›
      refine iff_of_true ⟨_, readValue?_letter hc rest⟩ fun hback => ?_
      cases hback
      exact absurd hc (by decide)
    · exact hquoted
  · by_cases hhtml : isHtmlString (joined (c :: d :: cs)) = true
    · have hbrackets := (isHtmlString_joined h).1 hhtml
      rw [if_pos ((needsQuotes?_joined h).2 hhtml)]
      refine iff_of_false ?_ (not_not.2 (Or.inr hbrackets))
      rintro ⟨more, hread⟩
      obtain ⟨rfl, -⟩ := (isEnclosed_joined h).1 hhtml
      cases hread
    · have hbrackets := (isHtmlString_joined h).not.1 hhtml
      rw [if_neg ((needsQuotes?_joined h).not.2 hhtml), hquoted, Garbled, or_iff_left hbrackets]

-- =============================================================== edges

theorem joinable_of_plain {s : Symbol} (h : Plain s.spelling.toList) : (End.state s).Joinable :=
  fun hcolon => h ':' (by decide) (List.mem_of_getLast? hcolon.1)

variable {l : DrawnEdge} {name : Symbol → List Char} {attributes : List (String × List Char)}

/-- An edge whose ends can be read is read to its attributes. -/
theorem readEdge?_statement (hsource : l.source.Joinable ∧ l.source.Reads name)
    (htarget : l.target.Joinable ∧ l.target.Reads name) (rest : List Char) :
    readEdge? ((statement (arrow l.source.name l.target.name) attributes).toList ++ rest) =
      some ((l.source.named name, l.target.named name), bracketed attributes ++ rest) := by
  have hfirst : ∀ more, readNode? "->" (edgeEnd l.source.name ++ ' ' :: ("->".toList ++ more)) =
      some (l.source.named name, more) :=
    fun more => ((opens_edgeEnd_iff (by decide)).2 ⟨hsource, rfl⟩).2
  have hsecond : ∀ more, readNode? "[" (edgeEnd l.target.name ++ ' ' :: ("[".toList ++ more)) =
      some (l.target.named name, more) :=
    fun more => ((opens_edgeEnd_iff (by decide)).2 ⟨htarget, rfl⟩).2
  have hblank : ∀ cs, readNode? "[" (' ' :: cs) = readNode? "[" cs := fun _ => rfl
  rw [toList_statement_arrow]
  simp only [List.append_assoc, List.cons_append]
  rw [readEdge?, hfirst]
  show (readNode? "[" (' ' :: _)).bind _ = _
  rw [hblank, hsecond]
  rfl

/-- The label of such an edge is read as it is just if its letters are not
garbled, whatever follows the statement. -/
theorem readLabel?_statement_iff {label : String} {cs : List Char}
    (hsource : l.source.Joinable ∧ l.source.Reads name)
    (htarget : l.target.Joinable ∧ l.target.Reads name) (hlabel : l.label = some label)
    (hcs : Rising cs) (hjoined : label.toList = joined cs) (rest : List Char) :
    readLabel? (l.statement.toList ++ rest) = some (.text label.toList) ↔ ¬Garbled cs := by
  have hstatement : l.statement = statement (arrow l.source.name l.target.name)
      [ ("label", attributeValue label.toList),
        ("color", foreground.toList),
        ("fontcolor", foreground.toList) ] := by
    unfold DrawnEdge.statement
    rw [hlabel]
  obtain ⟨more, hmore⟩ : ∃ more,
      closing [("color", foreground.toList), ("fontcolor", foreground.toList)] = ',' :: more :=
    ⟨_, rfl⟩
  have hprefix : ∀ cs, "label".toList ++ '=' :: cs = "label=".toList ++ cs := fun _ => rfl
  have hdrop : ∀ cs, ("label=".toList ++ cs).dropPrefix? "label=".toList = some cs :=
    fun cs => List.dropPrefix?_append_of_beq cs (beq_self_eq_true _)
  rw [hstatement, readLabel?, readEdge?_statement hsource htarget, bracketed_cons, hmore, hprefix,
    List.append_assoc]
  show ((List.dropPrefix? _ _).bind fun rest => (readValue? rest).bind fun v => some v.1) = _ ↔ _
  rw [hdrop, Option.bind_some, hjoined, List.append_assoc, List.cons_append,
    ← readValue?_label_iff hcs (more ++ rest), Option.bind_eq_some_iff]
  constructor
  · rintro ⟨⟨v, left⟩, hread, hv⟩
    cases hv
    exact ⟨left, hread⟩
  · rintro ⟨left, hread⟩
    exact ⟨_, hread, rfl⟩

/-- The text on an edge is its letters with commas between them. -/
theorem toList_label {a : Arc} {cs : List Char}
    (h : a.letters = cs.map (fun c => .str (.singleton c))) : a.label.toList = joined cs := by
  unfold Arc.label joined
  rw [h, String.toList_intercalate, List.map_map, List.map_map]
  exact congrArg _ (List.map_congr_left fun c _ => String.toList_singleton c)

/-- The characters are the letters that lead from the one state of an edge
to the other, in rising order. -/
structure DrawnEdge.Bears (l : DrawnEdge) (A : Automaton) (cs : List Char) : Prop where
  rising : Rising cs
  leads : ∃ s t, l.source = .state s ∧ l.target = .state t ∧ ∀ c : Char,
    c ∈ cs ↔ .str (.singleton c) ∈ A.alphabet ∧ A.LeadsAcross s t (.str (.singleton c))

end Dot

namespace Automaton

open Dot (DrawnEdge Garbled joined readLabel?)

variable {A : Automaton} {e : Edge} {d : Dot.Drawing} {l : DrawnEdge}

/-- The letters of an edge as characters. -/
theorem exists_letters_eq (hletter : ∀ c ∈ A.alphabet, c.IsLetter) (he : e ∈ A.edges) :
    ∃ cs : List Char, (A.arcOf e).letters = cs.map (fun c => .str (.singleton c)) ∧
      (A.arcOf e).drawn.Bears A cs := by
  obtain ⟨ks, hks, hrising, hblank⟩ := SymbolSet.exists_listing_eq hletter
  have hmem : ∀ c : Char, c ∈ ks ↔ Symbol.str (.singleton c) ∈ A.alphabet := by
    intro c
    constructor
    · intro hc
      have hlisted : Symbol.str (.singleton c) ∈ A.alphabet.listing := hks ▸ List.mem_map_of_mem hc
      exact SymbolSet.mem_of_mem_toList (SymbolSet.mem_listing.1 hlisted)
    · rintro ⟨y, hy, halike⟩
      rw [Symbol.alike_str_iff.1 (Setoid.symm halike), ← SymbolSet.mem_listing, hks] at hy
      obtain ⟨k, hk, heq⟩ := List.mem_map.1 hy
      exact Symbol.singleton_inj.1 heq ▸ hk
  obtain ⟨cs, hcs⟩ :
      ∃ cs, cs = ks.filter fun c => decide (Symbol.str (.singleton c) ∈ e.letters) := ⟨_, rfl⟩
  have hborne : ∀ c, c ∈ cs ↔ Symbol.str (.singleton c) ∈ e.letters := by
    intro c
    rw [hcs, List.mem_filter, decide_eq_true_eq, hmem, mem_letters_of_mem_edges he]
    exact and_iff_right_of_imp And.left
  have hletters : (A.arcOf e).letters = cs.map fun c => .str (.singleton c) := by
    unfold arcOf letters
    rw [hks, List.filter_map, hcs]
    rfl
  have hne : cs ≠ [] := by
    obtain ⟨c, hc, u, hmove, hut⟩ := exists_letter_of_mem_edges he
    have hc := SymbolSet.mem_of_mem_toList hc
    obtain ⟨x, -, rfl⟩ := hletter c hc
    rw [← next_eq_of_move? hmove] at hut
    exact List.ne_nil_of_mem ((hborne x).2 ((mem_letters_of_mem_edges he).2 ⟨hc, hut⟩))
  refine ⟨cs, hletters, ⟨hne, hcs ▸ hrising.filter _, fun c hc => hblank c ?_⟩,
    e.source, A.states.written e.target, rfl, rfl, fun c => ?_⟩
  · rw [hcs] at hc
    exact List.mem_of_mem_filter hc
  · rw [hborne, mem_letters_of_mem_edges he]
    refine and_congr_right fun hc => ?_
    rw [leadsAcross_iff (source_mem_of_mem_edges he) hc]
    have halike := SymbolSet.written_alike (target_mem_of_mem_edges he)
    exact ⟨fun h => Setoid.trans h (Setoid.symm halike), fun h => Setoid.trans h halike⟩

section Drawn

variable (hreportable : A.Reportable) (hd : A.drawing = .ok d)
include hreportable hd

/-- All that edges join can be read at their ends. -/
theorem readable_of_reportable (hl : l ∈ d.edges) :
    (l.source.Joinable ∧ l.source.Reads fun s => 'q' :: s.spelling.toList) ∧
      l.target.Joinable ∧ l.target.Reads fun s => 'q' :: s.spelling.toList := by
  have hcomparable := hreportable.comparable_states
  refine (forall_edges_iff hcomparable hd
    fun e => e.Joinable ∧ e.Reads fun s => 'q' :: s.spelling.toList).2 ⟨⟨trivial, trivial⟩, ?_⟩ l hl
  intro s hs _
  have hplain := Symbol.plain_spelling (hreportable.isNumber s (SymbolSet.mem_of_mem_toList hs))
  exact ⟨Dot.joinable_of_plain hplain, Dot.legible_of_plain hplain⟩

/-- The edges of a drawing but for that from the marker have labels, and
these are read as they are just if their letters are not garbled. -/
theorem labels_of_drawing (hl : l ∈ d.edges) : l.source = .marker ∧ l.label = none ∨
    ∃ label cs, l.label = some label ∧ l.Bears A cs ∧ label.toList = joined cs ∧
      ∀ rest, readLabel? (l.statement.toList ++ rest) = some (.text label.toList) ↔
        ¬Garbled cs := by
  obtain ⟨hsource, htarget⟩ := readable_of_reportable hreportable hd hl
  obtain ⟨-, rfl⟩ := (drawing_eq_ok_iff hreportable.comparable_states).1 hd
  rcases List.mem_cons.1 hl with rfl | hl
  · exact Or.inl ⟨rfl, rfl⟩
  · obtain ⟨a, ha, rfl⟩ := List.mem_map.1 hl
    obtain ⟨e, he, rfl⟩ := mem_arcsOf_walk.1 ha
    obtain ⟨cs, hcs, hbears⟩ := exists_letters_eq hreportable.isLetter he
    have hlabel := Dot.toList_label hcs
    exact Or.inr ⟨_, cs, rfl, hbears, hlabel, fun rest =>
      Dot.readLabel?_statement_iff hsource htarget rfl hbears.rising hlabel rest⟩

end Drawn

/-- The minimal automaton of what a text lists has a drawing. Every edge of
it but that from the marker has as its label the letters that lead across,
with commas between them. Whatever follows its statement, the label is read
as it is unless a backslash is the greatest of the letters, or these are
angle brackets with nothing or an equals sign between them. -/
theorem labels_read_iff {room : Nat} {text : String} (hread : Listing.read room text = .ok A) :
    ∃ M d, A.minimize = .ok M ∧ M.drawing = .ok d ∧
      (∀ background, d.lines background =
        d.opening background ++ d.edges.map DrawnEdge.statement ++ ["\x7d"]) ∧
      ∀ l ∈ d.edges, l.source = .marker ∧ l.label = none ∨
        ∃ label cs, l.label = some label ∧ l.Bears M cs ∧ label.toList = joined cs ∧
          ∀ rest, readLabel? (l.statement.toList ++ rest) = some (.text label.toList) ↔
            ¬Garbled cs := by
  obtain ⟨-, m, hm, -, hreportable, hwritable⟩ := reportable_of_readLines hread
  have hdrawing := drawing_eq_ok hreportable.comparable_states hwritable
  exact ⟨m.minimized, _, minimize_eq_ok hm, hdrawing, fun _ => Dot.Drawing.lines_eq _ _,
    fun l hl => labels_of_drawing hreportable hdrawing hl⟩

/-- Lists one state, and letters of which the last one is no backslash. -/
def backslashText : String := "1\n, \\ a\n0\n\n0 , 0\n0 \\ 0\n0 a 0\n"

theorem labels_read_iff_backslashText :
    ∃ A, Listing.read 1 backslashText = .ok A ∧ ∃ M d, A.minimize = .ok M ∧ M.drawing = .ok d ∧
      ∀ l ∈ d.edges, l.source = .marker ∧ l.label = none ∨
        ∃ label cs, l.label = some label ∧ l.Bears M cs ∧ label.toList = joined cs ∧
          ∀ rest, readLabel? (l.statement.toList ++ rest) = some (.text label.toList) ↔
            ¬Garbled cs := by
  obtain ⟨A, hA⟩ : ∃ A, Listing.read 1 backslashText = .ok A := exists_of_isOk (by decide +kernel)
  obtain ⟨M, d, hM, hd, -, hlabels⟩ := labels_read_iff hA
  exact ⟨A, hA, M, d, hM, hd, hlabels⟩

/-- Lists one state, and angle brackets for letters. -/
def bracketText : String := "1\n< >\n0\n\n0 < 0\n0 > 0\n"

/-- The label of the edge from the state to itself is read as HTML. -/
theorem label_bracketText :
    ∃ A M d, Listing.read 1 bracketText = .ok A ∧ A.minimize = .ok M ∧ M.drawing = .ok d ∧
      ∃ l ∈ d.edges, l.label = some "<,>" ∧ readLabel? l.statement.toList = some .html := by
  obtain ⟨A, hA⟩ : ∃ A, Listing.read 1 bracketText = .ok A := exists_of_isOk (by decide +kernel)
  obtain ⟨-, m, hm, -, hreportable, hwritable⟩ := reportable_of_readLines hA
  have hM := minimize_eq_ok hm
  have hd := drawing_eq_ok hreportable.comparable_states hwritable
  have hedges : (((Listing.read 1 bracketText).toOption.bind fun A => A.minimize.toOption).bind
      fun M => M.drawing.toOption).map (fun d => d.edges.map fun l =>
        (l.label, readLabel? l.statement.toList)) =
      some [(none, none), (some "<,>", some .html)] := by
    decide +kernel
  simp only [hA, hM, hd, Except.toOption, Option.bind_some, Option.map_some, Option.some.injEq]
    at hedges
  have hmem : (some "<,>", some .html) ∈
      m.minimized.drawn.edges.map fun l => (l.label, readLabel? l.statement.toList) := by
    rw [hedges]
    exact List.mem_cons_of_mem _ List.mem_cons_self
  obtain ⟨l, hl, heq⟩ := List.mem_map.1 hmem
  obtain ⟨hlabel, hvalue⟩ := Prod.mk.inj heq
  exact ⟨A, _, _, hA, hM, hd, l, hl, hlabel, hvalue⟩

end Automaton

end Automata
