/-
Reading a text: which texts list an automaton, and which automaton.

The two halves were settled by themselves: lines are read when they spell
a listing that fits together, and such a listing gives an automaton when
it misses no transition. In a row they say that a text is read exactly
when its lines spell a listing that fits together and is complete, and
that other texts are refused with what is wrong with them
(`read_outcome`).

States that cannot be counted out are the exception. A listing is checked
for missing transitions only once all its states have been counted out, so
a text that gives more of them than a machine word or memory holds ends
there, with a fault that tells nothing about the text, though its table is
as incomplete as any other (`read_countOverflow`).
-/
import Automata.Proofs.Listing.Table

namespace Automata.Listing

variable {A : Automaton} {l : Listing} {room : Nat} {lines : List (List Char)} {e : FormatError}

-- what lines say decides what they are refused for, or what comes of them

theorem readLines_eq_error (h : ofLines lines = .error e) :
    readLines room lines = .error (.format e) := by
  unfold readLines
  rw [h]
  rfl

theorem readLines_eq_toAutomaton (h : ofLines lines = .ok l) :
    readLines room lines = l.toAutomaton room := by
  unfold readLines
  rw [h]
  rfl

theorem readLines_eq_ok_iff :
    readLines room lines = .ok A ↔ ∃ l, ofLines lines = .ok l ∧ l.toAutomaton room = .ok A := by
  unfold readLines
  rw [bind_eq_ok_iff]
  cases ofLines lines <;> simp [Except.mapError]

/-- The automaton that is read is the one that the lines list. -/
theorem of_readLines_eq_ok (h : readLines room lines = .ok A) :
    ∃ l, Spells lines l ∧ l.Coherent ∧ l.Complete ∧ Fits room l.count ∧ A.ListedBy l := by
  obtain ⟨l, hl, hA⟩ := readLines_eq_ok_iff.1 h
  obtain ⟨hspells, hcoherent⟩ := spells_of_ofLines hl
  exact ⟨l, hspells, hcoherent, of_toAutomaton_eq_ok hcoherent hA⟩

/-- Lines that spell a complete listing are read, if its states can be
counted out. -/
theorem exists_readLines (hl : Spells lines l) (h : l.Coherent) (hc : l.Complete)
    (hfits : Fits room l.count) : ∃ A, readLines room lines = .ok A ∧ A.ListedBy l := by
  obtain ⟨k, hk, hsame, hcoherent⟩ := exists_ofLines hl h
  rw [hsame.count] at hfits
  obtain ⟨A, hA, hlisted⟩ := exists_toAutomaton hcoherent (hsame.complete hc) hfits
  exact ⟨A, readLines_eq_ok_iff.2 ⟨k, hk, hA⟩, hlisted.congr hsame.symm⟩

/-- Lines that spell a listing whose states cannot be counted out are
refused for that. -/
theorem readLines_eq_excess (hl : Spells lines l) (h : l.Coherent)
    (hexcess : ¬Fits room l.count) : readLines room lines = .error (excess l.count) := by
  obtain ⟨k, hk, hsame, -⟩ := exists_ofLines hl h
  rw [hsame.count] at hexcess ⊢
  rw [readLines_eq_toAutomaton hk]
  exact toAutomaton_eq_excess hexcess

/-- Lines that say something are read, or refused for what they do not
give, if the states can be counted out. -/
theorem readLines_of_ofLines (hl : ofLines lines = .ok l) (hfits : Fits room l.count) :
    (∃ A, readLines room lines = .ok A) ∨
      ∃ i c, readLines room lines = .error (.format ⟨.noTransition i c, none⟩) := by
  obtain ⟨-, hcoherent⟩ := spells_of_ofLines hl
  rw [readLines_eq_toAutomaton hl]
  rcases Classical.em l.Complete with hc | hc
  · obtain ⟨A, hA, -⟩ := exists_toAutomaton hcoherent hc hfits
    exact Or.inl ⟨A, hA⟩
  · obtain ⟨i, -, c, -, -, herror⟩ := exists_missing hc hfits
    exact Or.inr ⟨i, c, herror⟩

/-- Lines that are not read are refused for their format, or give states
that cannot be counted out. -/
theorem exists_error (h : ¬∃ A, readLines room lines = .ok A) :
    (∃ e, readLines room lines = .error (.format e)) ∨
      ∃ l, Spells lines l ∧ l.Coherent ∧ ¬Fits room l.count := by
  cases hl : ofLines lines with
  | error e => exact Or.inl ⟨e, readLines_eq_error hl⟩
  | ok l =>
      rcases Classical.em (Fits room l.count) with hfits | hexcess
      · rcases readLines_of_ofLines hl hfits with hA | ⟨i, c, herror⟩
        · exact absurd hA h
        · exact Or.inl ⟨_, herror⟩
      · obtain ⟨hspells, hcoherent⟩ := spells_of_ofLines hl
        exact Or.inr ⟨l, hspells, hcoherent, hexcess⟩

/-- A text is read exactly when its lines list an automaton whose states
can be counted out: four headings, transitions that fit together, and none
missing. What is read is the automaton that they list. Every other text
is refused for its format, but for those that give states that cannot be
counted out, which are refused for that, complete or not. -/
theorem read_outcome (room : Nat) (text : String) :
    ((∃ A, read room text = .ok A) ↔ ∃ l, Spells (Text.lines text.toList) l ∧ l.Coherent ∧
      l.Complete ∧ Fits room l.count) ∧
    (∀ A l, read room text = .ok A → Spells (Text.lines text.toList) l → A.ListedBy l) ∧
    ((¬∃ A, read room text = .ok A) → (∃ e, read room text = .error (.format e)) ∨
      ∃ l, Spells (Text.lines text.toList) l ∧ l.Coherent ∧ ¬Fits room l.count ∧
        read room text = .error (excess l.count)) := by
  refine ⟨⟨fun h => ?_, fun h => ?_⟩, fun A l hA hl => ?_, fun h => ?_⟩
  · obtain ⟨A, hA⟩ := h
    obtain ⟨l, hspells, hcoherent, hcomplete, hfits, -⟩ := of_readLines_eq_ok hA
    exact ⟨l, hspells, hcoherent, hcomplete, hfits⟩
  · obtain ⟨l, hspells, hcoherent, hcomplete, hfits⟩ := h
    obtain ⟨A, hA, -⟩ := exists_readLines hspells hcoherent hcomplete hfits
    exact ⟨A, hA⟩
  · obtain ⟨k, hspells, -, -, -, hlisted⟩ := of_readLines_eq_ok hA
    exact hlisted.congr (hspells.same hl)
  · refine (exists_error h).imp_right fun hlarge => ?_
    obtain ⟨l, hspells, hcoherent, hexcess⟩ := hlarge
    exact ⟨l, hspells, hcoherent, hexcess, readLines_eq_excess hspells hcoherent hexcess⟩

/-- Gives more states than can be counted, a letter and no transition. -/
def uncountable : String := "9223372036854775808\na\n0\n\n"

theorem readLines_uncountable (room : Nat) :
    readLines room (Text.lines uncountable.toList) = .error .countOverflow := by
  have hlines : ofLines (Text.lines uncountable.toList) =
      .ok ⟨9223372036854775808, ['a'], 0, [], []⟩ := by decide +kernel
  exact (readLines_eq_toAutomaton hlines).trans (if_pos (by decide))

/-- Lines that list no automaton, for want of transitions, need not be
refused for that, whatever memory holds. -/
theorem read_countOverflow :
    (¬∃ l, Spells (Text.lines uncountable.toList) l ∧ l.Coherent ∧ l.Complete) ∧
      ∀ room, read room uncountable = .error .countOverflow := by
  refine ⟨fun h => ?_, readLines_uncountable⟩
  obtain ⟨l, hspells, hcoherent, hcomplete⟩ := h
  have hletters : wordsAt (Text.lines uncountable.toList) 1 = some [['a']] := by decide
  have hrest : (Text.lines uncountable.toList).drop 4 = [] := by decide
  have hmem : 'a' ∈ l.letters := by
    have hwords := hspells.letters
    rw [hletters, Option.some.injEq] at hwords
    obtain ⟨c, hc, hca⟩ := List.mem_map.1 (hwords ▸ List.mem_singleton_self _)
    rwa [← (List.cons.inj hca).1]
  -- the state 0 has no transition for the letter
  obtain ⟨a, ha, -⟩ := hcomplete 0 hcoherent.count_pos 'a' hmem
  obtain ⟨line, hline, -⟩ := (hspells.mem_arcs_iff a).1 ha
  rw [hrest] at hline
  cases hline

end Automata.Listing
