/-
Automata whose tables hold nothing beyond what they need.

A table may have rows of symbols that are no states and entries for
symbols that are no letters. Two automata with the same states, letters,
start, accepting states and moves may then still differ. An `Exact`
automaton has no such rows or entries, and exact automata that agree in
all that can be asked of the language are alike (`Exact.alike`). The
automata that minimization gives are exact (`Numbered.exact`), and any
automaton becomes exact when the rest is dropped from its table
(`exact_trim`).
-/
import Automata.Proofs.Numbered

namespace Automata.Automaton

variable {A B M : Automaton} {s c : Symbol}

-- ======================================================= exact tables

/-- The rows are those of states, and the entries those for letters. -/
structure Exact (A : Automaton) : Prop where
  mem_states : ∀ {s row}, A.delta.get? s = some row → s ∈ A.states
  mem_alphabet : ∀ {s row c t}, A.delta.get? s = some row → row.get? c = some t → c ∈ A.alphabet

/-- Whether an automaton is exact shows in the entries of its table. -/
theorem exact_iff : A.Exact ↔ ∀ e ∈ A.delta.toList, e.1 ∈ A.states ∧
    ∀ f ∈ e.2.toList, f.1 ∈ A.alphabet := by
  constructor
  · intro h e he
    have hrow : A.delta.get? e.1 = some e.2 :=
      SymbolMap.get?_eq_some_iff.2 ⟨e.1, he, Setoid.refl _⟩
    refine ⟨h.mem_states hrow, fun f hf => h.mem_alphabet hrow (t := f.2) ?_⟩
    exact SymbolMap.get?_eq_some_iff.2 ⟨f.1, hf, Setoid.refl _⟩
  · intro h
    constructor
    · intro s row hrow
      obtain ⟨k, hk, hsk⟩ := SymbolMap.get?_eq_some_iff.1 hrow
      exact (SymbolSet.mem_congr hsk).2 (h _ hk).1
    · intro s row c t hrow ht
      obtain ⟨k, hk, -⟩ := SymbolMap.get?_eq_some_iff.1 hrow
      obtain ⟨d, hd, hcd⟩ := SymbolMap.get?_eq_some_iff.1 ht
      exact (SymbolSet.mem_congr hcd).2 ((h _ hk).2 _ hd)

instance (A : Automaton) : Decidable A.Exact := decidable_of_iff _ exact_iff.symm

namespace Exact

theorem get?_delta_eq_none (h : A.Exact) (hs : ¬s ∈ A.states) : A.delta.get? s = none := by
  refine Option.eq_none_iff_forall_ne_some.2 fun row hrow => hs ?_
  exact h.mem_states hrow

theorem get?_row_eq_none (h : A.Exact) {row : Row} (hrow : A.delta.get? s = some row)
    (hc : ¬c ∈ A.alphabet) : row.get? c = none := by
  refine Option.eq_none_iff_forall_ne_some.2 fun t ht => hc ?_
  exact h.mem_alphabet hrow ht

/-- Exact automata of which the same can be said are alike. -/
theorem alike (hA : A.Exact) (hB : B.Exact) (hstates : A.states ≈ B.states)
    (halphabet : A.alphabet ≈ B.alphabet) (hstart : A.start ≈ B.start)
    (haccepting : A.accepting ≈ B.accepting)
    (hnext : ∀ s ∈ A.states, ∀ c ∈ A.alphabet, A.next s c ≈ B.next s c) : A ≈ B := by
  have hmem := SymbolSet.alike_iff.1 hstates
  have hletter := SymbolSet.alike_iff.1 halphabet
  refine Description.alike_iff.2 ⟨hstates, halphabet, hstart, haccepting, fun s => ?_⟩
  by_cases hs : s ∈ A.states
  · obtain ⟨row, hrow⟩ := A.exists_row hs
    obtain ⟨row', hrow'⟩ := B.exists_row ((hmem s).1 hs)
    rw [hrow, hrow', Option.map_some, Option.map_some, Option.some.injEq]
    refine SymbolMap.plain_eq_iff.2 fun c => ?_
    by_cases hc : c ∈ A.alphabet
    · rw [get?_row hrow, get?_row hrow', move?_eq_some_next hs hc,
        move?_eq_some_next ((hmem s).1 hs) ((hletter c).1 hc), Option.map_some, Option.map_some]
      exact congrArg some (hnext s hs c hc)
    · rw [hA.get?_row_eq_none hrow hc, hB.get?_row_eq_none hrow' fun h => hc ((hletter c).2 h)]
  · rw [hA.get?_delta_eq_none hs, hB.get?_delta_eq_none fun h => hs ((hmem s).2 h)]

end Exact

/-- What a numbered automaton lists is all that its table holds. -/
theorem Numbered.exact (h : M.Numbered) : M.Exact := by
  have hdelta : M.delta = .ofList (M.listing.delta.map fun row => (row.1, .ofList row.2)) :=
    congrArg Description.delta h.description_eq
  have hlisted : ∀ {s row}, M.delta.get? s = some row →
      ∃ i < M.size, s ≈ .ofNat i ∧
        row = .ofList (M.letters.map fun c => (c, M.next (.ofNat i) c)) := by
    intro s row hrow
    rw [hdelta] at hrow
    obtain ⟨j, hj, hsj⟩ := SymbolMap.exists_of_get?_ofList hrow
    unfold listing at hj
    simp only [List.map_map, List.mem_map, List.mem_range, Function.comp, Prod.mk.injEq] at hj
    obtain ⟨i, hi, rfl, rfl⟩ := hj
    exact ⟨i, hi, hsj, rfl⟩
  constructor
  · intro s row hrow
    obtain ⟨i, hi, hsi, -⟩ := hlisted hrow
    exact h.mem_states_iff.2 ⟨i, hi, hsi⟩
  · intro s row c t hrow ht
    obtain ⟨i, -, -, rfl⟩ := hlisted hrow
    obtain ⟨_, he, hcd⟩ := SymbolMap.exists_of_get?_ofList ht
    obtain ⟨_, hd, hde⟩ := List.mem_map.1 he
    cases hde
    exact ⟨_, mem_letters.1 hd, hcd⟩

-- =========================================================== trimming

/-- A row without the entries for symbols that are no letters. -/
def trimRow (A : Automaton) (row : Row) : Row := .tabulate A.alphabet row.get?

theorem get?_trimRow {row : Row} (hc : c ∈ A.alphabet) : (A.trimRow row).get? c = row.get? c :=
  SymbolMap.get?_tabulate_of_mem (fun _ _ h => SymbolMap.get?_congr h) hc

/-- The data without the rows of symbols that are no states and the entries
for symbols that are no letters. -/
def trimmed (A : Automaton) : Description where
  states := A.states
  alphabet := A.alphabet
  start := A.start
  accepting := A.accepting
  delta := .tabulate A.states fun s => (A.delta.get? s).map A.trimRow

theorem get?_trimmed (hs : s ∈ A.states) :
    A.trimmed.delta.get? s = (A.delta.get? s).map A.trimRow := by
  refine SymbolMap.get?_tabulate_of_mem (fun s t hst => ?_) hs
  rw [SymbolMap.get?_congr hst]

/-- The automaton with nothing in its table beyond what it needs. -/
def trim (A : Automaton) : Automaton where
  toDescription := A.trimmed
  start_mem := A.start_mem
  strays_isEmpty := A.strays_isEmpty
  gaps_eq_nil := by
    refine Description.gaps_eq_nil_iff.2 fun s hs => ?_
    obtain ⟨row, hrow, hall⟩ := Description.gaps_eq_nil_iff.1 A.gaps_eq_nil s hs
    refine ⟨A.trimRow row, ?_, fun c hc => ?_⟩
    · rw [get?_trimmed hs, hrow, Option.map_some]
    · rw [get?_trimRow hc]
      exact hall c hc

theorem exact_trim (A : Automaton) : A.trim.Exact where
  mem_states := SymbolMap.mem_of_get?_tabulate
  mem_alphabet := by
    intro s row c t hrow ht
    have hs : s ∈ A.states := SymbolMap.mem_of_get?_tabulate hrow
    have hrow : A.trimmed.delta.get? s = some row := hrow
    rw [get?_trimmed hs] at hrow
    obtain ⟨row', -, rfl⟩ := Option.map_eq_some_iff.1 hrow
    exact SymbolMap.mem_of_get?_tabulate ht

/-- Letters lead from states as before. -/
theorem next_trim (hs : s ∈ A.states) (hc : c ∈ A.alphabet) : A.trim.next s c = A.next s c := by
  obtain ⟨row, hrow⟩ := A.exists_row hs
  refine next_eq_of_move? ?_
  have hmove := move?_eq_some_next hs hc
  show (A.trimmed.delta.get? s).bind _ = _
  rw [get?_trimmed hs, hrow, Option.map_some, Option.bind_some, get?_trimRow hc, get?_row hrow,
    hmove]

end Automata.Automaton
