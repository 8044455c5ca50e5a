/-
Which error lines are refused with.

The error of lines either shows at one of them, the first that does not
go on, or where the lines are over before all headings are read, or else
at no line. In the last case the lines have been forgotten but for the
transitions that they gave, and the fault names the least transition that
is missing, so neither the order of the lines nor how often one is given
counts. `ErrorAccount` says of each case what it says about the lines.

Before the line that an error shows at there is nothing wrong, and with
it there is, whatever comes behind. That the lines before it are read, or
refused for a missing transition, goes for states only that can be counted
out: where they cannot, the lines are refused for that
(`readLines_strayLine`).
-/
import Automata.Proofs.Listing.Progress
import Automata.Proofs.Listing.Reading

namespace Automata.Listing

variable {e : FormatError} {room k i : Nat} {lines other : List (List Char)} {line : List Char}
  {l : Listing} {c : Char}

-- ================================================ missing transitions

/-- No transition is given for a state and a letter. -/
def Missing (l : Listing) (i : Nat) (c : Char) : Prop :=
  i < l.count ∧ c ∈ l.letters ∧ ¬∃ a ∈ l.arcs, a.source = i ∧ a.letter = c

/-- No transition is given for a state and a letter, but for every state
before, and for every letter before it with the same state. -/
structure LeastMissing (l : Listing) (i : Nat) (c : Char) : Prop where
  missing : l.Missing i c
  least : ∀ j d, l.Missing j d → i < j ∨ i = j ∧ l.letters.idxOf c ≤ l.letters.idxOf d

/-- The lines have the same headings and, whatever their order and however
often each is given, the same lines behind them, blank ones aside. -/
structure SameLines (lines other : List (List Char)) : Prop where
  take_eq : other.take 4 = lines.take 4
  mem_iff : ∀ line, Text.words line ≠ [] → (line ∈ other.drop 4 ↔ line ∈ lines.drop 4)

theorem SameLines.wordsAt_eq (h : SameLines lines other) (hi : i < 4) :
    wordsAt other i = wordsAt lines i := by
  unfold wordsAt
  rw [← List.getElem?_take_of_lt hi, h.take_eq, List.getElem?_take_of_lt hi]

/-- What lines spell does not depend on the order of the transitions. -/
theorem Spells.congr (hl : Spells lines l) (h : SameLines lines other) : Spells other l where
  count := by
    rw [h.wordsAt_eq (by decide)]
    exact hl.count
  letters := by
    rw [h.wordsAt_eq (by decide)]
    exact hl.letters
  start := by
    rw [h.wordsAt_eq (by decide)]
    exact hl.start
  accepting := by
    rw [h.wordsAt_eq (by decide)]
    exact hl.accepting
  mem_arcs_iff := by
    intro a
    rw [hl.mem_arcs_iff]
    exact exists_congr fun line => and_congr_left fun ha => (h.mem_iff line ha.words_ne_nil).symm
  blank_or_given := by
    intro line hline
    rcases Classical.em (Text.words line = []) with hblank | hblank
    · exact Or.inl hblank
    · exact hl.blank_or_given line ((h.mem_iff line hblank).1 hline)

/-- A listing that is refused for its format lacks transitions, and the
error names the least that is missing. -/
theorem of_toAutomaton_eq_format (h : l.Coherent)
    (he : l.toAutomaton room = .error (.format e)) :
    Fits room l.count ∧ ∃ i c, missingFrom l.letters l.arcs l.count 0 = some (i, c) ∧
      l.LeastMissing i c ∧ e = ⟨.noTransition i c, none⟩ := by
  have hfits : Fits room l.count := by
    by_contra hexcess
    rw [toAutomaton_eq_excess hexcess] at he
    unfold excess at he
    split at he <;> cases he
  refine ⟨hfits, ?_⟩
  cases hmissing : missingFrom l.letters l.arcs l.count 0 with
  | none =>
      obtain ⟨A, hA, -⟩ := exists_toAutomaton h (complete_iff.2 hmissing) hfits
      rw [he] at hA
      cases hA
  | some m =>
      obtain ⟨i, c⟩ := m
      rw [toAutomaton_eq_of_fits hfits, hmissing] at he
      cases he
      obtain ⟨-, hi, hc, hnone⟩ := of_missingFrom_eq_some hmissing
      refine ⟨i, c, rfl, ⟨⟨by omega, hc, hnone⟩, fun j d hjd => ?_⟩, rfl⟩
      exact least_of_missingFrom_eq_some hmissing (Nat.zero_le j) hjd.2.1 hjd.2.2

/-- Listings that are alike lack the same transitions. -/
theorem Same.toAutomaton_eq {k : Listing} (h : l.Same k) (hfits : Fits room l.count)
    (hmissing : missingFrom l.letters l.arcs l.count 0 = some (i, c)) :
    k.toAutomaton room = .error (.format ⟨.noTransition i c, none⟩) := by
  rw [missingFrom_congr h.mem_arcs_iff, h.letters, h.count] at hmissing
  rw [h.count] at hfits
  rw [toAutomaton_eq_of_fits hfits, hmissing]

-- ========================================================== the reader

/-- Lines are refused for what they say, or for what they do not give. -/
theorem of_readLines_eq_format (h : readLines room lines = .error (.format e)) :
    ofLines lines = .error e ∨
      ∃ l, ofLines lines = .ok l ∧ l.toAutomaton room = .error (.format e) := by
  cases hl : ofLines lines with
  | error e' =>
      rw [readLines_eq_error hl] at h
      cases h
      exact Or.inl rfl
  | ok l =>
      rw [readLines_eq_toAutomaton hl] at h
      exact Or.inr ⟨l, rfl, h⟩

/-- What the error of lines, by the line it names, says of the lines. -/
structure ErrorAccount (room : Nat) (lines : List (List Char)) (e : FormatError) : Prop where
  /-- What comes behind the line plays no part. -/
  stable : ∀ k, e.line? = some k → k ≤ lines.length → ∀ other,
    other.take k = lines.take k → readLines room other = .error (.format e)
  /-- Whatever comes behind the line, there is no listing. -/
  refused : ∀ k, e.line? = some k → k ≤ lines.length → ∀ other,
    other.take k = lines.take k → ¬∃ l, Spells other l ∧ l.Coherent
  /-- Before a heading nothing is wrong but that it is missing. -/
  missing_before : ∀ k, e.line? = some k → k ≤ lines.length → k ≤ 4 →
    ∃ h : Heading, h.line = k ∧
      readLines room (lines.take (k - 1)) = .error (.format ⟨.missing h, some k⟩)
  /-- Before another line nothing is wrong but that transitions may be
  missing, or the states be too many to be counted out. -/
  sound_before : ∀ k, e.line? = some k → k ≤ lines.length → 5 ≤ k →
    ∃ l, Spells (lines.take (k - 1)) l ∧ l.Coherent ∧ (Fits room l.count →
      (∃ A, readLines room (lines.take (k - 1)) = .ok A) ∨
        ∃ i c, readLines room (lines.take (k - 1)) = .error (.format ⟨.noTransition i c, none⟩))
  /-- Behind the lines, it is the next heading that is missing. -/
  missing_behind : ∀ k, e.line? = some k → lines.length < k →
    k = lines.length + 1 ∧ k ≤ 4 ∧ ∃ h : Heading, h.line = k ∧ e = ⟨.missing h, some k⟩
  /-- At no line, it is the least missing transition, whatever the order
  of the lines. -/
  least_missing : e.line? = none → ∃ l i c, Spells lines l ∧ l.Coherent ∧ l.LeastMissing i c ∧
    e = ⟨.noTransition i c, none⟩ ∧
      ∀ other, SameLines lines other → readLines room other = .error (.format e)

/-- The account of an error at a line that is refused. -/
theorem RefusedAfter.account {before after : List (List Char)} (h : RefusedAfter before line e) :
    ErrorAccount room (before ++ line :: after) e := by
  have hnumber : ∀ {k}, e.line? = some k → before.length + 1 = k :=
    fun hk => Option.some.inj (h.line?_eq.symm.trans hk)
  have htake : (before ++ line :: after).take (before.length + 1 - 1) = before := List.take_left
  have hrefused : ∀ other : List (List Char),
      other.take (before.length + 1) = (before ++ line :: after).take (before.length + 1) →
        ofLines other = .error e := by
    intro other hother
    rw [List.take_length_add_append] at hother
    rw [← List.take_append_drop (before.length + 1) other, hother, List.append_assoc]
    exact h.ofLines_eq _
  constructor
  case stable =>
    intro k hk _ other hother
    obtain rfl := hnumber hk
    exact readLines_eq_error (hrefused other hother)
  case refused =>
    intro k hk _ other hother hlisting
    obtain rfl := hnumber hk
    obtain ⟨l, hspells, hcoherent⟩ := hlisting
    obtain ⟨l', hl', -⟩ := exists_ofLines hspells hcoherent
    rw [hrefused other hother] at hl'
    cases hl'
  case missing_before =>
    intro k hk _ hk4
    obtain rfl := hnumber hk
    rw [htake]
    rcases h.ofLines_before with ⟨h', hline, herror⟩ | ⟨hle, -⟩
    · exact ⟨h', hline, readLines_eq_error herror⟩
    · omega
  case sound_before =>
    intro k hk _ hk5
    obtain rfl := hnumber hk
    rw [htake]
    rcases h.ofLines_before with ⟨h', hline, -⟩ | ⟨-, l, hl⟩
    · have hle := h'.line_le
      omega
    · obtain ⟨hspells, hcoherent⟩ := spells_of_ofLines hl
      exact ⟨l, hspells, hcoherent, readLines_of_ofLines hl⟩
  case missing_behind =>
    intro k hk hlt
    obtain rfl := hnumber hk
    rw [List.length_append, List.length_cons] at hlt
    omega
  case least_missing =>
    intro hnone
    rw [h.line?_eq] at hnone
    cases hnone

/-- The account of an error at a heading that is missing. -/
theorem account_of_missing {h : Heading} (hline : h.line = lines.length + 1) :
    ErrorAccount room lines ⟨.missing h, some (lines.length + 1)⟩ := by
  have hbehind : ∀ {k}, some (lines.length + 1) = some k → ¬k ≤ lines.length := by
    intro k hk
    cases hk
    exact Nat.not_succ_le_self _
  constructor
  case stable => exact fun k hk hle => absurd hle (hbehind hk)
  case refused => exact fun k hk hle => absurd hle (hbehind hk)
  case missing_before => exact fun k hk hle => absurd hle (hbehind hk)
  case sound_before => exact fun k hk hle => absurd hle (hbehind hk)
  case missing_behind =>
    intro k hk _
    cases hk
    exact ⟨rfl, hline ▸ h.line_le, h, hline, rfl⟩
  case least_missing => exact fun hnone => nomatch hnone

/-- The account of an error that shows when all lines are read. -/
theorem account_of_toAutomaton (hl : ofLines lines = .ok l)
    (he : l.toAutomaton room = .error (.format e)) : ErrorAccount room lines e := by
  obtain ⟨hspells, hcoherent⟩ := spells_of_ofLines hl
  obtain ⟨hfits, i, c, hmissing, hleast, rfl⟩ := of_toAutomaton_eq_format hcoherent he
  constructor
  case stable => exact fun k hk => nomatch hk
  case refused => exact fun k hk => nomatch hk
  case missing_before => exact fun k hk => nomatch hk
  case sound_before => exact fun k hk => nomatch hk
  case missing_behind => exact fun k hk => nomatch hk
  case least_missing =>
    intro _
    refine ⟨l, i, c, hspells, hcoherent, hleast, rfl, fun other hother => ?_⟩
    obtain ⟨k, hk, hsame, -⟩ := exists_ofLines (hspells.congr hother) hcoherent
    rw [readLines_eq_toAutomaton hk]
    exact hsame.toAutomaton_eq hfits hmissing

/-- Every error names the first line that is not in order, or the least
transition missing from lines that all are. -/
theorem readLines_errorAccount (h : readLines room lines = .error (.format e)) :
    ErrorAccount room lines e := by
  rcases of_readLines_eq_format h with herror | ⟨l, hl, herror⟩
  · rcases of_ofLines_eq_error herror with ⟨before, line, after, rfl, hrefused⟩ | ⟨h', hline, rfl⟩
    · exact hrefused.account
    · exact account_of_missing hline
  · exact account_of_toAutomaton hl herror

/-- Two transitions that contradict each other, and a line behind them
that is none. -/
def conflicting : List (List Char) :=
  ["2", "a b", "0", "1", "0 a 1", "", "0 a 0", "x"].map String.toList

theorem readLines_errorAccount_conflicting :
    readLines 2 conflicting = .error (.format ⟨.conflict 0 'a', some 7⟩) ∧
      ErrorAccount 2 conflicting ⟨.conflict 0 'a', some 7⟩ :=
  have h : readLines 2 conflicting = .error (.format ⟨.conflict 0 'a', some 7⟩) := by
    decide +kernel
  ⟨h, readLines_errorAccount h⟩

/-- More states than can be counted, without letters, and a line that is
no transition. -/
def strayLine : List (List Char) :=
  ["9223372036854775808", "", "0", "", "x"].map String.toList

/-- The lines before the one that an error shows at need neither be read
nor be refused for a missing transition, whatever memory holds. -/
theorem readLines_strayLine :
    (∀ room, readLines room strayLine =
      .error (.format ⟨.invalidTransition ['x'], some 5⟩)) ∧
      ¬∃ room, (∃ A, readLines room (strayLine.take 4) = .ok A) ∨
        ∃ i c, readLines room (strayLine.take 4) = .error (.format ⟨.noTransition i c, none⟩) := by
  refine ⟨fun room => readLines_eq_error (by decide +kernel), fun h => ?_⟩
  obtain ⟨room, h⟩ := h
  have hlines : ofLines (strayLine.take 4) = .ok ⟨9223372036854775808, [], 0, [], []⟩ := by
    decide +kernel
  have hover : readLines room (strayLine.take 4) = .error .countOverflow :=
    (readLines_eq_toAutomaton hlines).trans (if_pos (by decide))
  rw [hover] at h
  rcases h with ⟨A, hA⟩ | ⟨i, c, herror⟩
  · cases hA
  · cases herror

end Automata.Listing
