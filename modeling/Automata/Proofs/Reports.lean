/-
Reports lose nothing: automata with the same report are alike.

In a report the states and the letters stand in a row with separators
between them, and a letter may itself be a comma, a digit or a sign. A
line of letters can then be read in one way only because each of them is
one character; a line of numbers because no number is written with a
comma.

From the four heading lines come the states, the letters, the start and
the accepting states. Two reports with the same heading list transitions
from the same states by the same letters, so they can differ in the
targets only, and a target is the end of its line. The two kinds of
report have layouts of one form, with a title before and a line behind it
in the one for a console.

Main statements: `alike_of_report_eq`, for automata whose states are
numbers, whose letters are single characters other than blanks, and whose
tables hold nothing beyond what they need (`Reportable`), and that what is
read from a text and its minimal automaton are such
(`reportable_of_readLines`).
-/
import Std.Data.String.ToInt
import Automata.Proofs.Joining
import Automata.Proofs.Listing.Writing
import Automata.Proofs.Mapping
import Automata.Proofs.Spelling

namespace Automata

-- ============================================================== symbols

namespace Symbol

variable {s t : Symbol}

/-- The symbol is a number, perhaps written as a truth value. -/
def IsNumber (s : Symbol) : Prop := ∃ n : Int, s ≈ .int n

/-- The symbol is a single character, and no blank. -/
def IsLetter (s : Symbol) : Prop := ∃ x, Text.isBlank x = false ∧ s = .str (.singleton x)

theorem isNumber_congr (h : s ≈ t) : s.IsNumber ↔ t.IsNumber :=
  exists_congr fun _ => ⟨Setoid.trans (Setoid.symm h), Setoid.trans h⟩

theorem isNumber_iff : s.IsNumber ↔ s.sort = 1 := by
  constructor
  · intro h
    obtain ⟨n, hn⟩ := h
    exact (alike_iff.1 hn).1
  · intro h
    cases s with
    | null => cases h
    | str _ => cases h
    | int n => exact ⟨n, Setoid.refl _⟩
    | bool b => exact ⟨if b then 1 else 0, rfl⟩

instance (s : Symbol) : Decidable s.IsNumber := decidable_of_iff _ isNumber_iff.symm

theorem isLetter_iff : s.IsLetter ↔ s.letter?.any fun x => !Text.isBlank x := by
  simp only [Option.any_eq_true, letter?_eq_some_iff, Bool.not_eq_true']
  exact exists_congr fun x => and_comm

instance (s : Symbol) : Decidable s.IsLetter := decidable_of_iff _ isLetter_iff.symm

theorem comparable_of_isNumber (hs : s.IsNumber) (ht : t.IsNumber) : s.comparable t = true := by
  unfold comparable
  rw [isNumber_iff.1 hs, isNumber_iff.1 ht]
  rfl

/-- An integer is written with digits, and perhaps a sign. -/
theorem spelling_int (n : Int) : (int n).spelling.toList ≠ [] ∧
    ∀ c ∈ (int n).spelling.toList, c.isDigit = true ∨ c = '-' := by
  cases n with
  | ofNat n =>
      have htext : (int (.ofNat n)).spelling.toList = Text.numeral n := Nat.toList_repr
      rw [htext]
      exact ⟨Text.numeral_ne_nil, fun c hc => Or.inl (Text.isDigit_of_mem_numeral hc)⟩
  | negSucc n =>
      have htext : (int (.negSucc n)).spelling.toList = '-' :: Text.numeral (n + 1) := by
        show ("-" ++ (n + 1).repr).toList = _
        rw [String.toList_append, Nat.toList_repr]
        rfl
      rw [htext]
      refine ⟨List.cons_ne_nil _ _, List.forall_mem_cons.2 ⟨Or.inr rfl, fun c hc => Or.inl ?_⟩⟩
      exact Text.isDigit_of_mem_numeral hc

theorem mem_spelling_bool (b : Bool) : 'e' ∈ (bool b).spelling.toList ∧
    ∀ c ∈ (bool b).spelling.toList, c ∈ "TrueFalse".toList := by
  have hall : (bool b).spelling.toList.all (fun c => decide (c ∈ "TrueFalse".toList)) = true := by
    cases b <;> decide
  refine ⟨by cases b <;> decide, fun c hc => ?_⟩
  exact of_decide_eq_true (List.all_eq_true.1 hall c hc)

/-- Numbers that are written in the same way are the same. -/
theorem spelling_inj (hs : s.IsNumber) (ht : t.IsNumber) : s.spelling = t.spelling ↔ s = t := by
  have hdiffer : ∀ (n : Int) (b : Bool), (int n).spelling ≠ (bool b).spelling := by
    intro n b h
    have he := (mem_spelling_bool b).1
    rw [← h] at he
    exact absurd ((spelling_int n).2 'e' he) (by decide)
  refine ⟨fun h => ?_, congrArg spelling⟩
  rw [isNumber_iff] at hs ht
  cases s with
  | null => cases hs
  | str _ => cases hs
  | int m =>
      cases t with
      | null => cases ht
      | str _ => cases ht
      | int n => exact congrArg int (Int.repr_inj.1 h)
      | bool b => exact absurd h (hdiffer m b)
  | bool b =>
      cases t with
      | null => cases ht
      | str _ => cases ht
      | int n => exact absurd h.symm (hdiffer n b)
      | bool c => cases b <;> cases c <;> first | rfl | exact absurd h (by decide)

/-- Symbols that can be compared are told apart by their texts. -/
theorem eq_of_spelling_eq (hcomparable : s.comparable t = true)
    (h : s.spelling = t.spelling) : s = t := by
  have hsort : s.sort = t.sort ∧ s.sort ≠ 0 := by simpa [comparable] using hcomparable
  by_cases hs : s.IsNumber
  · have ht : t.IsNumber := isNumber_iff.2 (hsort.1.symm.trans (isNumber_iff.1 hs))
    exact (spelling_inj hs ht).1 h
  · rw [isNumber_iff] at hs
    cases s with
    | null => exact absurd rfl hsort.2
    | bool _ => exact absurd rfl hs
    | int _ => exact absurd rfl hs
    | str x =>
        cases t with
        | str y => exact congrArg str h
        | null => exact absurd hsort.1 (Nat.succ_ne_zero 1)
        | bool _ => exact absurd hsort.1 (Nat.succ_ne_self 1)
        | int _ => exact absurd hsort.1 (Nat.succ_ne_self 1)

/-- A number is written with characters, and no commas or line feeds. -/
theorem spelling_of_isNumber (h : s.IsNumber) :
    s.spelling.toList ≠ [] ∧ ',' ∉ s.spelling.toList ∧ '\n' ∉ s.spelling.toList := by
  rw [isNumber_iff] at h
  cases s with
  | null => cases h
  | str _ => cases h
  | bool b => cases b <;> decide
  | int n =>
      obtain ⟨hne, hmem⟩ := spelling_int n
      exact ⟨hne, fun hc => absurd (hmem _ hc) (by decide),
        fun hc => absurd (hmem _ hc) (by decide)⟩

/-- A letter is written as itself, and is no line feed. -/
theorem spelling_of_isLetter (h : s.IsLetter) :
    s.spelling.toList.length = 1 ∧ '\n' ∉ s.spelling.toList := by
  obtain ⟨x, hx, rfl⟩ := h
  have htext : (str (.singleton x)).spelling.toList = [x] := String.toList_singleton x
  rw [htext]
  refine ⟨rfl, fun hmem => ?_⟩
  rw [← List.mem_singleton.1 hmem] at hx
  exact absurd hx (by decide)

theorem spelling_inj_of_isLetter (hs : s.IsLetter) (ht : t.IsLetter)
    (h : s.spelling = t.spelling) : s = t := by
  obtain ⟨x, -, rfl⟩ := hs
  obtain ⟨y, -, rfl⟩ := ht
  exact congrArg str h

end Symbol

namespace SymbolSet

variable {s t : SymbolSet} {P : List Char → Prop} {sep : String}

theorem toList_spelling (sep : String) (s : SymbolSet) :
    (s.spelling sep).toList =
      sep.toList.intercalate (s.listing.map fun x => x.spelling.toList) := by
  unfold spelling
  rw [String.toList_intercalate, List.map_map]
  rfl

/-- Members whose texts are parted, and differ, can be told from the line. -/
theorem eq_of_spelling_eq (hparted : Text.Parted sep.toList P) (hsep : sep.toList ≠ [])
    (hne : ∀ u, P u → u ≠ []) (hs : ∀ x ∈ s.toList, P x.spelling.toList)
    (ht : ∀ x ∈ t.toList, P x.spelling.toList)
    (hinj : ∀ x ∈ s.toList, ∀ y ∈ t.toList, x.spelling = y.spelling → x = y)
    (h : s.spelling sep = t.spelling sep) : s = t := by
  have hchars := congrArg String.toList h
  rw [toList_spelling, toList_spelling] at hchars
  have htexts := hparted.eq_of_intercalate_eq hsep hne
    (List.forall_mem_map.2 fun x hx => hs x (mem_listing.1 hx))
    (List.forall_mem_map.2 fun x hx => ht x (mem_listing.1 hx)) hchars
  have hmem : ∀ x, x ∈ s.toList ↔ x ∈ t.toList := by
    intro x
    constructor
    · intro hx
      have htext := List.mem_map_of_mem (f := fun x => x.spelling.toList) (mem_listing.2 hx)
      rw [htexts] at htext
      obtain ⟨y, hy, hxy⟩ := List.mem_map.1 htext
      have hy := mem_listing.1 hy
      rwa [hinj x hx y hy (String.toList_inj.1 hxy.symm)]
    · intro hx
      have htext := List.mem_map_of_mem (f := fun x => x.spelling.toList) (mem_listing.2 hx)
      rw [← htexts] at htext
      obtain ⟨y, hy, hxy⟩ := List.mem_map.1 htext
      have hy := mem_listing.1 hy
      rwa [← hinj y hy x hx (String.toList_inj.1 hxy)]
  rw [← ofList_toList s]
  exact ofList_eq hmem

end SymbolSet

-- ============================================================= reports

namespace Automaton

variable {A B : Automaton} {L : Layout} {s c : Symbol}

/-- The states are numbers, the letters single characters other than
blanks, and the table holds nothing else. -/
structure Reportable (A : Automaton) : Prop where
  isNumber : ∀ s ∈ A.states, s.IsNumber
  isLetter : ∀ c ∈ A.alphabet, c.IsLetter
  exact : A.Exact

theorem reportable_iff : A.Reportable ↔
    (∀ s ∈ A.states.toList, s.IsNumber) ∧ (∀ c ∈ A.alphabet.toList, c.IsLetter) ∧ A.Exact := by
  constructor
  · intro h
    exact ⟨fun s hs => h.isNumber s (SymbolSet.mem_of_mem_toList hs),
      fun c hc => h.isLetter c (SymbolSet.mem_of_mem_toList hc), h.exact⟩
  · intro h
    obtain ⟨hnumber, hletter, hexact⟩ := h
    refine ⟨fun s hs => ?_, fun c hc => ?_, hexact⟩
    · obtain ⟨t, ht, hst⟩ := hs
      exact (Symbol.isNumber_congr hst).2 (hnumber t ht)
    · obtain ⟨d, hd, hcd⟩ := hc
      obtain ⟨x, hx, rfl⟩ := hletter d hd
      exact ⟨x, hx, Symbol.alike_str_iff.1 hcd⟩

instance (A : Automaton) : Decidable A.Reportable := decidable_of_iff _ reportable_iff.symm

namespace Reportable

theorem comparable_states (h : A.Reportable) : Symbol.Comparable A.states.toList := by
  refine List.pairwise_of_forall_mem_list fun s hs t ht => ?_
  exact Symbol.comparable_of_isNumber (h.isNumber s (SymbolSet.mem_of_mem_toList hs))
    (h.isNumber t (SymbolSet.mem_of_mem_toList ht))

/-- No line of a report is broken. -/
theorem unbroken (h : A.Reportable) :
    ∀ l ∈ L.spelled A, '\n' ∉ l.toList := by
  have happend : ∀ {l m : String}, '\n' ∉ l.toList → '\n' ∉ m.toList → '\n' ∉ (l ++ m).toList := by
    intro l m hl hm
    rw [String.toList_append, List.mem_append]
    exact fun h => h.elim hl hm
  have hlayout := L.unbroken
  simp only [List.forall_mem_cons] at hlayout
  obtain ⟨hseparator, hstart, haccepting, hindent, htail, hhead, -⟩ := hlayout
  have hstate : ∀ {s}, s ∈ A.states → '\n' ∉ s.spelling.toList := fun hs =>
    (Symbol.spelling_of_isNumber (h.isNumber _ hs)).2.2
  have hletter : ∀ {c}, c ∈ A.alphabet → '\n' ∉ c.spelling.toList := fun hc =>
    (Symbol.spelling_of_isLetter (h.isLetter _ hc)).2
  have hjoin : ∀ {u : SymbolSet}, (∀ s ∈ u, '\n' ∉ s.spelling.toList) →
      '\n' ∉ (u.spelling L.separator).toList := by
    intro u hu hmem
    rw [SymbolSet.toList_spelling] at hmem
    rcases Text.mem_intercalate hmem with hmem | ⟨w, hw, hmem⟩
    · exact hseparator hmem
    · obtain ⟨s, hs, rfl⟩ := List.mem_map.1 hw
      exact hu s (SymbolSet.mem_of_mem_toList (SymbolSet.mem_listing.1 hs)) hmem
  have hheading : ∀ l ∈ L.spelledHeading A, '\n' ∉ l.toList := by
    refine List.forall_mem_cons.2 ⟨happend (by decide) (hjoin fun s hs => hstate hs), ?_⟩
    refine List.forall_mem_cons.2 ⟨happend (by decide) (hjoin fun c hc => hletter hc), ?_⟩
    refine List.forall_mem_cons.2 ⟨happend hstart (hstate A.start_mem), ?_⟩
    refine List.forall_mem_cons.2 ⟨happend haccepting (hjoin fun s hs => ?_), ?_⟩
    · exact hstate (A.accepting_subset hs)
    · exact List.forall_mem_singleton.2 (by decide)
  intro l hl
  rcases List.mem_append.1 hl with hl | hl
  · exact hheading l hl
  · rw [transitionsFrom_eq, List.map_map] at hl
    obtain ⟨⟨s, c⟩, he, rfl⟩ := List.mem_map.1 hl
    obtain ⟨hs, hc⟩ := List.mem_product.1 he
    have hs := SymbolSet.mem_of_mem_toList hs
    have hc := over_letters c hc
    have hsource := happend hindent (hstate hs)
    exact happend (happend (happend (happend hsource htail) (hletter hc)) hhead)
      (hstate (next_mem hs hc))

/-- States in a row can be told from the line. -/
theorem eq_of_spelling_states_eq {u v : SymbolSet} (hA : A.Reportable) (hB : B.Reportable)
    (hu : ∀ s ∈ u, s ∈ A.states) (hv : ∀ s ∈ v, s ∈ B.states)
    (h : u.spelling L.separator = v.spelling L.separator) : u = v := by
  have hmemA : ∀ s ∈ u.toList, s.IsNumber := fun s hs =>
    hA.isNumber s (hu s (SymbolSet.mem_of_mem_toList hs))
  have hmemB : ∀ s ∈ v.toList, s.IsNumber := fun s hs =>
    hB.isNumber s (hv s (SymbolSet.mem_of_mem_toList hs))
  obtain ⟨more, hcomma⟩ := L.exists_comma
  have hparted : Text.Parted L.separator.toList fun w => w ≠ [] ∧ ',' ∉ w := by
    rw [hcomma]
    intro x y _ _ hx hy
    exact Text.parted_of_not_mem ',' more hx.2 hy.2
  have hword : ∀ {s : Symbol}, s.IsNumber → s.spelling.toList ≠ [] ∧ ',' ∉ s.spelling.toList := by
    intro s hs
    obtain ⟨hne, hcomma, -⟩ := Symbol.spelling_of_isNumber hs
    exact ⟨hne, hcomma⟩
  refine SymbolSet.eq_of_spelling_eq hparted ?_ (fun _ hw => hw.1) (fun s hs => hword (hmemA s hs))
    (fun s hs => hword (hmemB s hs)) (fun s hs t ht => ?_) h
  · rw [hcomma]
    exact List.cons_ne_nil _ _
  · exact (Symbol.spelling_inj (hmemA s hs) (hmemB t ht)).1

/-- Letters in a row can be told from the line, even if one is a comma. -/
theorem eq_of_spelling_alphabet_eq (hA : A.Reportable) (hB : B.Reportable)
    (h : A.alphabet.spelling L.separator = B.alphabet.spelling L.separator) :
    A.alphabet = B.alphabet := by
  have hmemA : ∀ c ∈ A.alphabet.toList, c.IsLetter := fun c hc =>
    hA.isLetter c (SymbolSet.mem_of_mem_toList hc)
  have hmemB : ∀ c ∈ B.alphabet.toList, c.IsLetter := fun c hc =>
    hB.isLetter c (SymbolSet.mem_of_mem_toList hc)
  obtain ⟨more, hcomma⟩ := L.exists_comma
  refine SymbolSet.eq_of_spelling_eq (Text.parted_of_length _ 1) ?_ ?_
    (fun c hc => (Symbol.spelling_of_isLetter (hmemA c hc)).1)
    (fun c hc => (Symbol.spelling_of_isLetter (hmemB c hc)).1)
    (fun c hc d hd => Symbol.spelling_inj_of_isLetter (hmemA c hc) (hmemB d hd)) h
  · rw [hcomma]
    exact List.cons_ne_nil _ _
  · rintro u hu rfl
    cases hu

/-- Automata with the same lines in a report of either kind are alike. -/
theorem alike_of_lines_eq (hA : A.Reportable) (hB : B.Reportable)
    (h : "\n".intercalate (L.spelled A) = "\n".intercalate (L.spelled B)) : A ≈ B := by
  have hlines : L.spelled A = L.spelled B :=
    Text.lines_eq_of_intercalate_eq hA.unbroken hB.unbroken h
  obtain ⟨hheading, harcs⟩ := List.append_inj hlines rfl
  unfold Layout.spelledHeading at hheading
  simp only [List.cons.injEq, String.append_right_inj, and_true] at hheading
  obtain ⟨hstates, halphabet, hstart, haccepting⟩ := hheading
  have hstates := hA.eq_of_spelling_states_eq hB (fun _ => id) (fun _ => id) hstates
  have halphabet := hA.eq_of_spelling_alphabet_eq hB halphabet
  have hstart :=
    (Symbol.spelling_inj (hA.isNumber _ A.start_mem) (hB.isNumber _ B.start_mem)).1 hstart
  have haccepting := hA.eq_of_spelling_states_eq hB (fun _ => A.accepting_subset)
    (fun _ => B.accepting_subset) haccepting
  -- the same sources and letters are listed, so the lines differ in the targets at most
  rw [transitionsFrom_eq, transitionsFrom_eq] at harcs
  unfold letters at harcs
  rw [← hstates, ← halphabet, List.map_map, List.map_map, List.map_inj_left] at harcs
  have hlisted : ∀ s ∈ A.states.toList, ∀ c ∈ A.alphabet.toList, A.next s c = B.next s c := by
    intro s hs c hc
    have htext := harcs (s, c) (List.mem_product.2 ⟨hs, SymbolSet.mem_listing.2 hc⟩)
    have htarget := (String.append_right_inj _).1 htext
    have hs := SymbolSet.mem_of_mem_toList hs
    have hc := SymbolSet.mem_of_mem_toList hc
    have hnextB := next_mem (A := B) (hstates ▸ hs) (halphabet ▸ hc)
    exact (Symbol.spelling_inj (hA.isNumber _ (next_mem hs hc)) (hB.isNumber _ hnextB)).1 htarget
  refine hA.exact.alike hB.exact (SymbolSet.alike_of_eq hstates) (SymbolSet.alike_of_eq halphabet)
    (hstart ▸ Setoid.refl _) (SymbolSet.alike_of_eq haccepting) fun s hs c hc => ?_
  obtain ⟨t, ht, hst⟩ := hs
  obtain ⟨d, hd, hcd⟩ := hc
  have hnext := next_congr (A := B) (Setoid.symm hst) (Setoid.symm hcd)
  rw [← hlisted t ht d hd] at hnext
  exact Setoid.trans (next_congr hst hcd) hnext

end Reportable

/-- Reports for a console with one title differ in what stands between
the title and the end. -/
theorem intercalate_console (title : String) (ls : List String) (hls : ls ≠ []) :
    "\n".intercalate (consoleOpening title ++ ls ++ consoleEnding title) =
      "\n".intercalate (consoleOpening title) ++ "\n" ++
        ("\n".intercalate ls ++ ("\n" ++ "\n".intercalate (consoleEnding title))) := by
  have hopening : consoleOpening title ≠ [] := List.cons_ne_nil _ _
  have hending : consoleEnding title ≠ [] := List.cons_ne_nil _ _
  rw [String.intercalate_append_of_ne_nil (List.append_ne_nil_of_left_ne_nil hopening ls) hending,
    String.intercalate_append_of_ne_nil hopening hls]
  simp only [String.append_assoc]

/-- A report is written if no number has too many digits. Automata of which
one report is written, for a file or for a console with some title, are
alike. -/
theorem alike_of_report_eq (hA : A.Reportable) (hB : B.Reportable) :
    (((∃ r, A.fileReport = .ok r) ↔ A.Writable) ∧
      ∀ r, A.fileReport = .ok r → B.fileReport = .ok r → A ≈ B) ∧
    ∀ title, ((∃ r, A.consoleReport title = .ok r) ↔ A.Writable) ∧
      ∀ r, A.consoleReport title = .ok r → B.consoleReport title = .ok r → A ≈ B := by
  refine ⟨⟨exists_fileReport_iff hA.comparable_states, fun r hr hr' => ?_⟩, fun title =>
    ⟨exists_consoleReport_iff hA.comparable_states title, fun r hr hr' => ?_⟩⟩
  · obtain rfl := eq_of_fileReport hA.comparable_states hr
    have h := eq_of_fileReport hB.comparable_states hr'
    exact hA.alike_of_lines_eq hB ((String.append_left_inj _).1 h.symm)
  · obtain rfl := eq_of_consoleReport hA.comparable_states hr
    have h := eq_of_consoleReport hB.comparable_states hr'
    rw [intercalate_console title _ Layout.spelled_ne_nil,
      intercalate_console title _ Layout.spelled_ne_nil, String.append_right_inj,
      String.append_left_inj] at h
    exact hA.alike_of_lines_eq hB h.symm

/-- Has a comma and a sign for letters, and a state whose number begins
with the sign. -/
def commaAndSign : Automaton where
  toDescription := Presentation.description
    { states := [.int (-1), .int 10]
      alphabet := [.str ",", .str "-"]
      start := .int (-1)
      accepting := [.int 10]
      delta :=
        [(.int (-1), [(.str ",", .int 10), (.str "-", .int (-1))]),
          (.int 10, [(.str ",", .int 10), (.str "-", .int 10)])] }
  start_mem := by decide
  strays_isEmpty := by decide
  gaps_eq_nil := by decide

/-- Leads by the sign where `commaAndSign` leads by the comma. -/
def signAndComma : Automaton where
  toDescription := Presentation.description
    { states := [.int (-1), .int 10]
      alphabet := [.str ",", .str "-"]
      start := .int (-1)
      accepting := [.int 10]
      delta :=
        [(.int (-1), [(.str ",", .int (-1)), (.str "-", .int 10)]),
          (.int 10, [(.str ",", .int 10), (.str "-", .int 10)])] }
  start_mem := by decide
  strays_isEmpty := by decide
  gaps_eq_nil := by decide

theorem alike_of_report_eq_commaAndSign :
    commaAndSign.Reportable ∧ signAndComma.Reportable ∧ ¬commaAndSign ≈ signAndComma ∧
      (((∃ r, commaAndSign.fileReport = .ok r) ↔ commaAndSign.Writable) ∧
        ∀ r, commaAndSign.fileReport = .ok r → signAndComma.fileReport = .ok r →
          commaAndSign ≈ signAndComma) ∧
      ∀ title, ((∃ r, commaAndSign.consoleReport title = .ok r) ↔ commaAndSign.Writable) ∧
        ∀ r, commaAndSign.consoleReport title = .ok r → signAndComma.consoleReport title = .ok r →
          commaAndSign ≈ signAndComma :=
  have hA : commaAndSign.Reportable := by decide +kernel
  have hB : signAndComma.Reportable := by decide +kernel
  ⟨hA, hB, by decide +kernel, alike_of_report_eq hA hB⟩

example : commaAndSign.fileReport = .ok ("States: -1,10\nAlphabet: ,,-\nStartState: -1\n" ++
    "FinalStates: 10\nTransitions:\n-1 , 10\n-1 - -1\n10 , 10\n10 - 10\n") := by
  decide +kernel

-- ================================================== what is read and minimized

theorem Representable.reportable (h : A.Representable) : A.Reportable where
  isNumber := by
    intro s hs
    obtain ⟨i, -, hi⟩ := h.exists_number hs
    exact ⟨i, hi⟩
  isLetter := h.exists_letter
  exact := h.exact

/-- States that a machine word can number can be written. -/
theorem Representable.writable (h : A.Representable) (hsize : A.size < Listing.wordLimit) :
    A.Writable where
  states := by
    intro s hs
    obtain ⟨i, hi, hsi⟩ := h.exists_number (SymbolSet.mem_of_mem_toList hs)
    rw [Symbol.isWritable_congr hsi]
    exact Symbol.isWritable_ofNat
      (Nat.lt_trans hi (Nat.lt_trans hsize Listing.wordLimit_lt_digitLimit))
  alphabet := by
    intro c hc
    obtain ⟨x, -, rfl⟩ := h.exists_letter c (SymbolSet.mem_of_mem_toList hc)
    rfl

theorem Reportable.minimizable (h : A.Reportable) : A.Minimizable :=
  minimizable_of_comparable h.comparable_states fun hnull => absurd (h.isNumber _ hnull) (by decide)

/-- The minimal automaton of one with proper letters can be represented. -/
theorem Minimizes.representable {m : Minimization} (h : Minimizes m A)
    (hm : A.minimization = .ok m) (hletter : ∀ c ∈ A.alphabet, c.IsLetter) :
    m.minimized.Representable where
  mem_states_iff := fun _ => (h.numbered hm).mem_states_iff
  exists_letter := by
    rw [h.alphabet]
    exact hletter
  exact := (h.numbered hm).exact

/-- What lines list can be represented, and a machine word counts its states. -/
theorem representable_of_readLines {room : Nat} {lines : List (List Char)}
    (h : Listing.readLines room lines = .ok A) :
    A.Representable ∧ A.size < Listing.wordLimit := by
  obtain ⟨l, hspells, -, -, hfits, hlisted⟩ := Listing.of_readLines_eq_ok h
  have hlegible : l.Legible := by
    obtain ⟨line, -, hwords⟩ := Option.map_eq_some_iff.1 hspells.letters
    intro c hc
    have hword : [c] ∈ Text.words line := hwords ▸ List.mem_map_of_mem hc
    exact Text.not_isBlank_of_mem_words hword (List.mem_singleton_self c)
  exact ⟨hlisted.representable hlegible, hlisted.size ▸ hfits.lt_wordLimit⟩

/-- What is read from a text, and its minimal automaton, are reported
without loss. -/
theorem reportable_of_readLines {room : Nat} {lines : List (List Char)}
    (h : Listing.readLines room lines = .ok A) :
    (A.Reportable ∧ A.Writable) ∧ ∃ m, A.minimization = .ok m ∧ Minimizes m A ∧
      m.minimized.Reportable ∧ m.minimized.Writable := by
  obtain ⟨hrepresentable, hsize⟩ := representable_of_readLines h
  have hreportable := hrepresentable.reportable
  obtain ⟨m, hm, hspec⟩ := exists_minimization hreportable.minimizable
  have hminimal := hspec.representable hm hreportable.isLetter
  exact ⟨⟨hreportable, hrepresentable.writable hsize⟩, m, hm, hspec, hminimal.reportable,
    hminimal.writable (Nat.lt_of_le_of_lt hspec.size_le hsize)⟩

end Automaton

end Automata
