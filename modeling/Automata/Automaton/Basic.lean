/-
Complete deterministic finite automata.

A `Description` is the five data of an automaton as they may be given,
sound or not. An `Automaton` is a description that fits together: it
starts in a state, accepts in states, and its table leads from every
state by every letter of the alphabet to a state. The table may hold
more, rows of other symbols and entries for other letters; they are kept
and can be walked through, and no operation on the language sees them.

Nothing here tells alike symbols apart, so the same state may be written
in one way among the states and in another in the table; where a state
comes out, it is written as in the place that it was read from.

Main statements: `build` gives an automaton exactly for the descriptions
that fit together (`build_eq_ok_iff`), and in an automaton every state
has a row and every letter an entry in it that is a state
(`exists_row`, `exists_move`).
-/
import Automata.Fault

namespace Automata

/-- Where each letter leads from one state. -/
abbrev Row := SymbolMap Symbol

/-- The row of each state. -/
abbrev Table := SymbolMap Row

/-- The data of an automaton, sound or not. -/
@[ext] structure Description where
  states : SymbolSet
  alphabet : SymbolSet
  start : Symbol
  accepting : SymbolSet
  delta : Table
  deriving DecidableEq

/-- An automaton as it is given: everything in any order, and repeated
at will. Of two rows for one state, and of two entries for one letter in
a row, the later counts. -/
@[ext] structure Presentation where
  states : List Symbol
  alphabet : List Symbol
  start : Symbol
  accepting : List Symbol
  delta : List (Symbol × List (Symbol × Symbol))

/-- The data that a presentation lists. -/
def Presentation.description (p : Presentation) : Description where
  states := .ofList p.states
  alphabet := .ofList p.alphabet
  start := p.start
  accepting := .ofList p.accepting
  delta := .ofList (p.delta.map fun row => (row.1, .ofList row.2))

-- ========================================================== descriptions

namespace Description

/-- Where a letter leads from a state, if the table says so. -/
def move? (d : Description) (s c : Symbol) : Option Symbol :=
  (d.delta.get? s).bind fun row => row.get? c

/-- The gap that a letter leaves in the row of a state. -/
def gapAt? (d : Description) (s : Symbol) (row : Row) (c : Symbol) : Option Gap :=
  match row.get? c with
  | none => some (.noEntry s c)
  | some t => if t ∈ d.states then none else some (.leaves s c)

/-- The gaps that a state leaves in the table. -/
def gapsAt (d : Description) (s : Symbol) : List Gap :=
  match d.delta.get? s with
  | none => [.noRow s]
  | some row => d.alphabet.toList.filterMap (d.gapAt? s row)

/-- The gaps of the table, by state and then by letter. -/
def gaps (d : Description) : List Gap :=
  d.states.toList.flatMap d.gapsAt

/-- The accepting states that are not states. -/
def strays (d : Description) : SymbolSet := d.accepting.sdiff d.states

theorem strays_isEmpty_iff {d : Description} :
    d.strays.isEmpty = true ↔ ∀ s ∈ d.accepting, s ∈ d.states := by
  rw [SymbolSet.isEmpty_iff]
  refine forall_congr' fun s => ?_
  rw [strays, SymbolSet.mem_sdiff, not_and, Decidable.not_not]

/-- The description with all symbols written plainly. -/
def plain (d : Description) : Description where
  states := d.states.plain
  alphabet := d.alphabet.plain
  start := d.start.plain
  accepting := d.accepting.plain
  delta := d.delta.plain fun row => row.plain Symbol.plain

/-- Descriptions are alike when they differ at most in how symbols are
written. -/
def Alike (d e : Description) : Prop := d.plain = e.plain

instance : Setoid Description where
  r := Alike
  iseqv := ⟨fun _ => rfl, Eq.symm, Eq.trans⟩

instance (d e : Description) : Decidable (d ≈ e) :=
  inferInstanceAs (Decidable (d.plain = e.plain))

/-- Descriptions are alike when their parts are. -/
theorem alike_iff {d e : Description} :
    d ≈ e ↔ d.states ≈ e.states ∧ d.alphabet ≈ e.alphabet ∧ d.start ≈ e.start ∧
      d.accepting ≈ e.accepting ∧ ∀ s, (d.delta.get? s).map (fun row => row.plain Symbol.plain) =
        (e.delta.get? s).map fun row => row.plain Symbol.plain := by
  rw [← SymbolMap.plain_eq_iff]
  show d.plain = e.plain ↔ _
  rw [plain, plain, Description.mk.injEq]
  rfl

/-- From a symbol that has a row its entries lead. -/
theorem move?_of_row {d : Description} {s : Symbol} {row : Row} (h : d.delta.get? s = some row)
    (c : Symbol) : d.move? s c = row.get? c := by
  rw [move?, h, Option.bind_some]

/-- Alike symbols lead to the same state. -/
theorem move?_congr (d : Description) {s s' c c' : Symbol} (hs : s ≈ s') (hc : c ≈ c') :
    d.move? s c = d.move? s' c' := by
  rw [move?, move?, SymbolMap.get?_congr hs]
  congr 1
  funext row
  exact SymbolMap.get?_congr hc

theorem gapAt?_eq_none_iff {d : Description} {s c : Symbol} {row : Row} :
    d.gapAt? s row c = none ↔ ∃ t, row.get? c = some t ∧ t ∈ d.states := by
  rw [gapAt?]
  split
  · simp_all
  · split <;> simp_all

theorem gapsAt_eq_nil_iff {d : Description} {s : Symbol} :
    d.gapsAt s = [] ↔
      ∃ row, d.delta.get? s = some row ∧
        ∀ c ∈ d.alphabet, ∃ t, row.get? c = some t ∧ t ∈ d.states := by
  rw [gapsAt]
  split
  · simp_all
  · rename_i row h
    simp only [List.filterMap_eq_nil_iff, gapAt?_eq_none_iff, h, Option.some.injEq,
      exists_eq_left']
    refine ⟨fun h c ⟨c', hc', hc⟩ => ?_, fun h c hc => h c (SymbolSet.mem_of_mem_toList hc)⟩
    rw [SymbolMap.get?_congr hc]
    exact h c' hc'

/-- The table has no gap when every state has a row with an entry in the
states for every letter of the alphabet. -/
theorem gaps_eq_nil_iff {d : Description} :
    d.gaps = [] ↔
      ∀ s ∈ d.states, ∃ row, d.delta.get? s = some row ∧
        ∀ c ∈ d.alphabet, ∃ t, row.get? c = some t ∧ t ∈ d.states := by
  simp only [gaps, List.flatMap_eq_nil_iff, gapsAt_eq_nil_iff]
  refine ⟨fun h s ⟨s', hs', hs⟩ => ?_, fun h s hs => h s (SymbolSet.mem_of_mem_toList hs)⟩
  rw [SymbolMap.get?_congr hs]
  exact h s' hs'

end Description

-- ============================================================== automata

/-- A complete deterministic finite automaton. -/
structure Automaton extends Description where
  start_mem : start ∈ states
  strays_isEmpty : toDescription.strays.isEmpty = true
  gaps_eq_nil : toDescription.gaps = []
  deriving DecidableEq

/-- The automaton with the given data, or what is wrong with them: first
the start, then the accepting states, then the table. -/
def Description.build (d : Description) : Except Fault Automaton :=
  if hs : d.start ∈ d.states then
    if ha : d.strays.isEmpty = true then
      match hg : d.gaps with
      | [] => .ok { d with start_mem := hs, strays_isEmpty := ha, gaps_eq_nil := hg }
      | gap :: others => .error (.notTotal gap others)
    else .error (.acceptingNotStates d.strays)
  else .error (.startNotState d.start)

/-- The automaton that a presentation lists. -/
def Presentation.build (p : Presentation) : Except Fault Automaton := p.description.build

namespace Automaton

/-- Automata are alike when they differ at most in how symbols are written. -/
def Alike (A B : Automaton) : Prop := A.toDescription ≈ B.toDescription

instance : Setoid Automaton where
  r := Alike
  iseqv := ⟨fun _ => Setoid.refl _, Setoid.symm, Setoid.trans⟩

instance (A B : Automaton) : Decidable (A ≈ B) :=
  inferInstanceAs (Decidable (A.toDescription ≈ B.toDescription))

theorem eq_of_toDescription_eq {A B : Automaton} (h : A.toDescription = B.toDescription) :
    A = B := by
  cases A
  cases B
  simp_all

theorem accepting_subset (A : Automaton) {s : Symbol} (h : s ∈ A.accepting) : s ∈ A.states :=
  Description.strays_isEmpty_iff.1 A.strays_isEmpty s h

/-- Every state has a row. -/
theorem exists_row (A : Automaton) {s : Symbol} (h : s ∈ A.states) :
    ∃ row, A.delta.get? s = some row :=
  (Description.gaps_eq_nil_iff.1 A.gaps_eq_nil s h).imp fun _ h => h.1

/-- From every state every letter of the alphabet leads to a state. -/
theorem exists_move (A : Automaton) {s c : Symbol} (hs : s ∈ A.states) (hc : c ∈ A.alphabet) :
    ∃ t, A.move? s c = some t ∧ t ∈ A.states := by
  obtain ⟨row, hrow, h⟩ := Description.gaps_eq_nil_iff.1 A.gaps_eq_nil s hs
  obtain ⟨t, ht, htm⟩ := h c hc
  exact ⟨t, by simp [Description.move?, hrow, ht], htm⟩

theorem mem_states_of_move? (A : Automaton) {s c t : Symbol} (hs : s ∈ A.states)
    (hc : c ∈ A.alphabet) (h : A.move? s c = some t) : t ∈ A.states := by
  obtain ⟨u, hu, hum⟩ := A.exists_move hs hc
  rw [h] at hu
  exact Option.some.inj hu ▸ hum

/-- The number of states. -/
def size (A : Automaton) : Nat := A.states.size

/-- The letters of the alphabet in listing order. -/
def letters (A : Automaton) : List Symbol := A.alphabet.listing

@[simp] theorem mem_letters {A : Automaton} {c : Symbol} :
    c ∈ A.letters ↔ c ∈ A.alphabet.toList := SymbolSet.mem_listing

-- =============================================================== running

/-- Where a letter leads from a state; the state or the letter may be
one that the table does not know. -/
def transition (A : Automaton) (s c : Symbol) : Except Fault Symbol := do
  let row ← A.delta.fetch s
  row.fetch c

/-- The state that a word leads to from a state. -/
def runFrom (A : Automaton) (s : Symbol) (w : List Symbol) : Except Fault Symbol :=
  w.foldlM A.transition s

/-- The state that a word leads to from the start. -/
def run (A : Automaton) (w : List Symbol) : Except Fault Symbol := A.runFrom A.start w

/-- Whether a word leads from the start to an accepting state. -/
def accepts (A : Automaton) (w : List Symbol) : Except Fault Bool := do
  return decide ((← A.run w) ∈ A.accepting)

-- =========================================================== restriction

/-- The part of the automaton on some states. They have to have rows,
and to be closed under the letters of the alphabet. -/
def restrict (A : Automaton) (states : SymbolSet) : Except Fault Automaton :=
  match states.toList.find? fun s => (A.delta.get? s).isNone with
  | some s => .error (.missing s)
  | none =>
    Description.build
      { states := states
        alphabet := A.alphabet
        start := A.start
        accepting := A.accepting.inter states
        delta := .tabulate states A.delta.get? }

end Automaton

/-- A description that fits together is that of one automaton, which is
then built from it. -/
theorem Description.build_eq_ok_iff {d : Description} {A : Automaton} :
    d.build = .ok A ↔ A.toDescription = d := by
  constructor
  · intro h
    rw [build] at h
    split at h
    · split at h
      · split at h
        · cases h
          rfl
        · cases h
      · cases h
    · cases h
  · rintro rfl
    rw [build, dif_pos A.start_mem, dif_pos A.strays_isEmpty]
    split
    · rfl
    · rename_i hg
      rw [A.gaps_eq_nil] at hg
      cases hg

/-- Data fit together when the start is a state, the accepting states are
states, and every state has a row in which all letters lead to states. -/
theorem Description.exists_build {d : Description} (hstart : d.start ∈ d.states)
    (haccepting : ∀ s ∈ d.accepting, s ∈ d.states)
    (htotal : ∀ s ∈ d.states, ∃ row, d.delta.get? s = some row ∧
      ∀ c ∈ d.alphabet, ∃ t, row.get? c = some t ∧ t ∈ d.states) :
    ∃ A : Automaton, d.build = .ok A ∧ A.toDescription = d :=
  ⟨⟨d, hstart, strays_isEmpty_iff.2 haccepting, gaps_eq_nil_iff.2 htotal⟩, build_eq_ok_iff.2 rfl,
    rfl⟩

end Automata
