/-
Every automaton that can be written as a listing is read back from it.

An automaton is `Representable` when its states are the numbers below its
size, its letters are single characters other than blanks, and its table
holds nothing beyond what it needs. Such an automaton has a listing
(`Representable.listedBy_toListing`), and many: the letters, the accepting
states and the transitions may be listed in any order. Whichever is
written down, line by line and word by word (`Listing.text`), its lines
spell it (`Listing.spells_text`), and what is read from them is the
automaton again (`read_text`).
-/
import Automata.Proofs.Listing.Reading
import Automata.Proofs.Rounds
import Automata.Proofs.Text

namespace Automata

variable {A : Automaton} {l : Listing} {n : Nat} {c : Char} {s : Symbol}

-- ============================================================= writing

/-- The words of the line of a transition. -/
def Arc.words (a : Arc) : List (List Char) :=
  [Text.numeral a.source, [a.letter], Text.numeral a.target]

namespace Listing

/-- The words of the lines. -/
def rows (l : Listing) : List (List (List Char)) :=
  [Text.numeral l.count] :: l.letters.map ([·]) :: [Text.numeral l.start] ::
    l.accepting.map Text.numeral :: l.arcs.map Arc.words

/-- The lines, each of its words with spaces between them. -/
def toLines (l : Listing) : List (List Char) := l.rows.map ([' '].intercalate ·)

/-- The text, every line ended by a line feed. -/
def text (l : Listing) : String := .ofList (l.toLines.flatMap (· ++ ['\n']))

/-- The letters can stand as words. -/
def Legible (l : Listing) : Prop := ∀ c ∈ l.letters, Text.isBlank c = false

theorem areWords_singletons {cs : List Char} (h : ∀ c ∈ cs, Text.isBlank c = false) :
    Text.AreWords (cs.map ([·])) := by
  intro w hw
  obtain ⟨c, hc, rfl⟩ := List.mem_map.1 hw
  exact ⟨List.cons_ne_nil _ _, List.forall_mem_singleton.2 (h c hc)⟩

theorem areWords_numerals (ns : List Nat) : Text.AreWords (ns.map Text.numeral) := by
  intro w hw
  obtain ⟨n, -, rfl⟩ := List.mem_map.1 hw
  exact Text.areWords_numeral n _ (List.mem_singleton_self _)

theorem areWords_arc {a : Arc} (h : Text.isBlank a.letter = false) : Text.AreWords a.words := by
  refine List.forall_mem_cons.2 ⟨Text.areWords_numeral _ _ (List.mem_singleton_self _), ?_⟩
  refine List.forall_mem_cons.2 ⟨?_, Text.areWords_numeral _⟩
  exact ⟨List.cons_ne_nil _ _, List.forall_mem_singleton.2 h⟩

/-- Every row of a legible listing consists of words. -/
theorem areWords_of_mem_rows (h : l.Coherent) (hl : l.Legible) :
    ∀ ws ∈ l.rows, Text.AreWords ws := by
  refine List.forall_mem_cons.2 ⟨Text.areWords_numeral _, ?_⟩
  refine List.forall_mem_cons.2 ⟨areWords_singletons hl, ?_⟩
  refine List.forall_mem_cons.2 ⟨Text.areWords_numeral _, ?_⟩
  refine List.forall_mem_cons.2 ⟨areWords_numerals _, fun ws hws => ?_⟩
  obtain ⟨a, ha, rfl⟩ := List.mem_map.1 hws
  exact areWords_arc (hl _ (h.within a ha).letter_mem)

/-- The lines of the text are the lines of the listing. -/
theorem lines_text (h : l.Coherent) (hl : l.Legible) : Text.lines l.text.toList = l.toLines := by
  unfold text
  rw [String.toList_ofList]
  refine Text.lines_flatMap fun line hline c hc => ?_
  obtain ⟨ws, hws, rfl⟩ := List.mem_map.1 hline
  exact Text.not_isLineBreak_of_mem_intercalate (areWords_of_mem_rows h hl ws hws) hc

theorem wordsAt_toLines (h : l.Coherent) (hl : l.Legible) (i : Nat) :
    wordsAt l.toLines i = l.rows[i]? := by
  unfold wordsAt toLines
  rw [List.getElem?_map, Option.map_map]
  cases hws : l.rows[i]? with
  | none => rfl
  | some ws =>
      exact congrArg some
        (Text.words_intercalate (areWords_of_mem_rows h hl ws (List.mem_of_getElem? hws)))

/-- What is written spells the listing. -/
theorem spells_toLines (h : l.Coherent) (hl : l.Legible) (hcount : l.count < Text.digitLimit) :
    Spells l.toLines l := by
  have hdenotes : ∀ n, n ≤ l.count → Denotes (Text.numeral n) n :=
    fun n hn => Text.integer?_numeral (Nat.lt_of_le_of_lt hn hcount)
  have hgiven : ∀ a ∈ l.arcs, a.GivenBy ([' '].intercalate a.words) := by
    intro a ha
    have hwithin := h.within a ha
    exact ⟨_, _, Text.words_intercalate (areWords_arc (hl _ hwithin.letter_mem)),
      hdenotes _ (Nat.le_of_lt hwithin.source_lt), hdenotes _ (Nat.le_of_lt hwithin.target_lt)⟩
  have hline : ∀ line, line ∈ l.toLines.drop 4 ↔ ∃ a ∈ l.arcs, [' '].intercalate a.words = line := by
    intro line
    show line ∈ (l.arcs.map Arc.words).map _ ↔ _
    rw [List.map_map, List.mem_map]
    rfl
  refine ⟨⟨_, wordsAt_toLines h hl 0, hdenotes _ (Nat.le_refl _)⟩, wordsAt_toLines h hl 1,
    ⟨_, wordsAt_toLines h hl 2, hdenotes _ (Nat.le_of_lt h.start_lt)⟩,
    ⟨_, wordsAt_toLines h hl 3, ?_⟩, fun a => ?_, fun line hmem => ?_⟩
  · refine List.forall₂_map_left_iff.2 (List.forall₂_same.2 fun n hn => ?_)
    exact hdenotes n (Nat.le_of_lt (h.accepting_lt n hn))
  · simp only [hline]
    constructor
    · intro ha
      exact ⟨_, ⟨a, ha, rfl⟩, hgiven a ha⟩
    · intro ha
      obtain ⟨_, ⟨b, hb, rfl⟩, hab⟩ := ha
      rwa [hab.unique (hgiven b hb)]
  · obtain ⟨a, ha, rfl⟩ := (hline line).1 hmem
    exact Or.inr ⟨a, hgiven a ha⟩

end Listing

-- ====================================================== what is written

/-- The number that a symbol is alike to. -/
def Symbol.number? (s : Symbol) : Option Nat :=
  match s.plain with
  | .int (.ofNat n) => some n
  | _ => none

/-- The character that a symbol consists of. -/
def Symbol.letter? (s : Symbol) : Option Char :=
  match s.chars with
  | [c] => some c
  | _ => none

theorem Symbol.number?_eq_some_iff : s.number? = some n ↔ s ≈ .ofNat n := by
  unfold number? ofNat
  rw [alike_def]
  show _ ↔ s.plain = .int n
  cases s.plain with
  | int i =>
      cases i with
      | ofNat m =>
          show some m = some n ↔ Symbol.int m = Symbol.int n
          rw [Option.some.injEq, int.injEq, Int.natCast_inj]
      | negSucc m => exact iff_of_false (fun h => nomatch h) fun h => nomatch int.inj h
  | null => simp
  | bool b => simp
  | str t => simp

theorem Symbol.letter?_eq_some_iff : s.letter? = some c ↔ s = .str (.singleton c) := by
  unfold letter?
  constructor
  · intro h
    split at h
    · rename_i d hd
      cases h
      cases s with
      | str t => exact congrArg str (String.toList_inj.1 (hd.trans (String.toList_singleton _).symm))
      | null => cases hd
      | bool b => cases hd
      | int i => cases hd
    · cases h
  · intro h
    subst h
    show (match (String.singleton c).toList with | [c] => some c | _ => none) = _
    rw [String.toList_singleton]

namespace Automaton

/-- The states are the numbers below the size, the letters are single
characters other than blanks, and the table holds nothing else. -/
structure Representable (A : Automaton) : Prop where
  mem_states_iff : ∀ s, s ∈ A.states ↔ ∃ i < A.size, s ≈ .ofNat i
  exists_letter : ∀ c ∈ A.alphabet, ∃ x, Text.isBlank x = false ∧ c = .str (.singleton x)
  exact : A.Exact

/-- Whether an automaton is representable shows in its states, its alphabet
and its table. -/
theorem representable_iff : A.Representable ↔
    A.states ≈ .ofList ((List.range A.size).map .ofNat) ∧
      (∀ c ∈ A.alphabet.toList, c.letter?.any fun x => !Text.isBlank x) ∧ A.Exact := by
  have hstates : (∀ s, s ∈ A.states ↔ ∃ i < A.size, s ≈ .ofNat i) ↔
      A.states ≈ .ofList ((List.range A.size).map .ofNat) := by
    rw [SymbolSet.alike_iff]
    simp only [SymbolSet.mem_ofList_map, List.mem_range]
  rw [← hstates]
  simp only [Option.any_eq_true, Symbol.letter?_eq_some_iff, Bool.not_eq_true']
  constructor
  · intro h
    refine ⟨h.mem_states_iff, fun c hc => ?_, h.exact⟩
    obtain ⟨x, hx, hcx⟩ := h.exists_letter c (SymbolSet.mem_of_mem_toList hc)
    exact ⟨x, hcx, hx⟩
  · intro h
    obtain ⟨hmem, hletters, hexact⟩ := h
    refine ⟨hmem, fun c hc => ?_, hexact⟩
    obtain ⟨d, hd, hcd⟩ := hc
    obtain ⟨x, rfl, hx⟩ := hletters d hd
    exact ⟨x, hx, Symbol.alike_str_iff.1 hcd⟩

instance (A : Automaton) : Decidable A.Representable := decidable_of_iff _ representable_iff.symm

/-- The listing of an automaton with everything in order. -/
def toListing (A : Automaton) : Listing where
  count := A.size
  letters := A.letters.filterMap Symbol.letter?
  start := A.start.number?.getD 0
  accepting := A.accepting.toList.filterMap Symbol.number?
  arcs := A.states.toList.flatMap fun s => A.letters.filterMap fun c => do
    return ⟨← s.number?, ← c.letter?, ← (A.next s c).number?⟩

namespace Representable

theorem exists_number (h : A.Representable) (hs : s ∈ A.states) : ∃ i < A.size, s ≈ .ofNat i :=
  (h.mem_states_iff s).1 hs

theorem mem_letters_toListing_iff {x : Char} :
    x ∈ A.toListing.letters ↔ .str (.singleton x) ∈ A.alphabet := by
  show x ∈ A.letters.filterMap Symbol.letter? ↔ _
  rw [List.mem_filterMap]
  simp only [Symbol.letter?_eq_some_iff, exists_eq_right, mem_letters]
  constructor
  · exact SymbolSet.mem_of_mem_toList
  · intro hx
    obtain ⟨d, hd, hxd⟩ := hx
    rwa [Symbol.alike_str_iff.1 (Setoid.symm hxd)] at hd

theorem mem_arcs_toListing_iff (h : A.Representable) {a : Arc} : a ∈ A.toListing.arcs ↔
    ∃ t, A.transition (.ofNat a.source) (.str (.singleton a.letter)) = .ok t ∧
      t ≈ .ofNat a.target := by
  show a ∈ A.states.toList.flatMap _ ↔ _
  simp only [List.mem_flatMap, List.mem_filterMap, Option.bind_eq_bind, Option.bind_eq_some_iff,
    Symbol.number?_eq_some_iff, Symbol.letter?_eq_some_iff, mem_letters]
  constructor
  · intro ha
    obtain ⟨s, hs, c, hc, i, hi, x, rfl, j, hj, ha⟩ := ha
    cases ha
    have hsource := (SymbolSet.mem_congr hi).1 (SymbolSet.mem_of_mem_toList hs)
    refine ⟨_, transition_eq_ok hsource (SymbolSet.mem_of_mem_toList hc), ?_⟩
    exact Setoid.trans (next_congr (Setoid.symm hi) (Setoid.refl _)) hj
  · intro ha
    obtain ⟨t, ht, hta⟩ := ha
    have hmove := transition_eq_ok_iff.1 ht
    obtain ⟨row, hrow, hentry⟩ := Option.bind_eq_some_iff.1 hmove
    obtain ⟨s, hs, hsource⟩ := h.exact.mem_states hrow
    obtain ⟨c, hc, hletter⟩ := h.exact.mem_alphabet hrow hentry
    have hnext : A.next s c ≈ t := by
      rw [← next_eq_of_move? hmove]
      exact next_congr (Setoid.symm hsource) (Setoid.symm hletter)
    exact ⟨s, hs, c, hc, _, Setoid.symm hsource, _, Symbol.alike_str_iff.1 (Setoid.symm hletter), _,
      Setoid.trans hnext hta, rfl⟩

/-- The listing in order lists the automaton. -/
theorem listedBy_toListing (h : A.Representable) : A.ListedBy A.toListing where
  mem_states_iff := h.mem_states_iff
  mem_alphabet_iff := by
    intro c
    simp only [mem_letters_toListing_iff]
    constructor
    · intro hc
      obtain ⟨x, -, rfl⟩ := h.exists_letter c hc
      exact ⟨x, hc, rfl⟩
    · intro hc
      obtain ⟨x, hx, rfl⟩ := hc
      exact hx
  start := by
    obtain ⟨i, -, hi⟩ := h.exists_number A.start_mem
    show A.start ≈ .ofNat (A.start.number?.getD 0)
    rw [Symbol.number?_eq_some_iff.2 hi, Option.getD_some]
    exact hi
  mem_accepting_iff := by
    intro s
    show s ∈ A.accepting ↔ ∃ i ∈ A.accepting.toList.filterMap Symbol.number?, _
    simp only [List.mem_filterMap, Symbol.number?_eq_some_iff]
    constructor
    · intro hs
      obtain ⟨i, -, hi⟩ := h.exists_number (A.accepting_subset hs)
      obtain ⟨t, ht, hst⟩ := hs
      exact ⟨i, ⟨t, ht, Setoid.trans (Setoid.symm hst) hi⟩, hi⟩
    · intro hs
      obtain ⟨i, ⟨t, ht, hti⟩, hsi⟩ := hs
      exact ⟨t, ht, Setoid.trans hsi (Setoid.symm hti)⟩
  exact := h.exact
  mem_arcs_iff := fun _ => h.mem_arcs_toListing_iff

theorem legible (h : A.Representable) (hl : A.ListedBy l) : l.Legible := by
  intro c hc
  obtain ⟨x, hx, hcx⟩ := h.exists_letter _ (hl.letter_mem hc)
  rwa [String.singleton_inj.1 (Symbol.str.inj hcx)]

end Representable

theorem ListedBy.size (h : A.ListedBy l) : A.size = l.count :=
  SymbolSet.size_eq_of_mem_iff h.mem_states_iff

/-- What a legible listing lists can be represented. -/
theorem ListedBy.representable (h : A.ListedBy l) (hl : l.Legible) : A.Representable where
  mem_states_iff := by
    rw [h.size]
    exact h.mem_states_iff
  exists_letter := by
    intro c hc
    obtain ⟨x, hx, rfl⟩ := (h.mem_alphabet_iff c).1 hc
    exact ⟨x, hl x hx, rfl⟩
  exact := h.exact

end Automaton

-- ============================================================ reading back

namespace Listing

/-- The lines of the text of a representable automaton spell its listing. -/
theorem spells_text (h : A.Representable) (hl : A.ListedBy l) (hsize : A.size < Text.digitLimit) :
    Spells (Text.lines l.text.toList) l := by
  have hlegible := h.legible hl
  rw [lines_text hl.coherent hlegible]
  exact spells_toLines hl.coherent hlegible (hl.size ▸ hsize)

/-- A machine word holds no number that has too many digits. -/
theorem wordLimit_lt_digitLimit : wordLimit < Text.digitLimit := by
  rw [Text.digitLimit_eq]
  exact Nat.lt_of_lt_of_le (by decide : wordLimit < 10 ^ 19)
    (Nat.pow_le_pow_right (by decide) (by decide))

/-- An automaton whose states are the numbers below its size, which a word
can count, whose letters are single characters other than blanks, and
whose table holds nothing else, has a listing, and is read back from the
text of every listing that it has wherever memory has room for its
states. -/
theorem read_text (h : A.Representable) (hsize : A.size < wordLimit) :
    (∃ l, A.ListedBy l) ∧
      ∀ room l, A.size ≤ room → A.ListedBy l → ∃ B, read room l.text = .ok B ∧ B ≈ A := by
  refine ⟨⟨_, h.listedBy_toListing⟩, fun room l hroom hl => ?_⟩
  have hspells := spells_text h hl (Nat.lt_trans hsize wordLimit_lt_digitLimit)
  have hfits : Fits room l.count := by
    rw [← hl.size]
    exact ⟨hsize, hroom⟩
  obtain ⟨B, hB, hlisted⟩ := exists_readLines hspells hl.coherent hl.complete hfits
  exact ⟨B, hB, hlisted.alike hl⟩

theorem read_text_threeOrMore :
    Automaton.threeOrMore.Representable ∧ Automaton.threeOrMore.size < wordLimit ∧
      (∃ l, Automaton.threeOrMore.ListedBy l) ∧
      ∀ room l, Automaton.threeOrMore.size ≤ room → Automaton.threeOrMore.ListedBy l →
        ∃ B, read room l.text = .ok B ∧ B ≈ Automaton.threeOrMore :=
  have h : Automaton.threeOrMore.Representable := by decide +kernel
  have hsize : Automaton.threeOrMore.size < wordLimit := by decide +kernel
  ⟨h, hsize, read_text h hsize⟩

example : Automaton.threeOrMore.toListing.text = "4\na\n0\n3\n0 a 1\n1 a 2\n2 a 3\n3 a 3\n" := by
  decide +kernel

end Listing

end Automata
