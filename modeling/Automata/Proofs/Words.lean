/-
Words and where they lead: running as a function of states, and
simulation between two automata.

A run from a state may fail, because the table need not know the state
or a letter. From a state of the automaton a word over the alphabet
never fails, so on such words running is the function `after`, the fold
of the single step `next`. Everything said about languages further on
is said of `after`; `runFrom_eq_ok` and `accepts_eq_ok` carry it back to
the runs themselves.

# Simulation

Two automata over one alphabet accept the same words as soon as some
relation holds between their starts, agrees on acceptance and is kept by
every letter. Pruning, merging the blocks of a partition and renaming
states are all shown to keep the language through a relation of this
kind, so the induction over words is done once, in `Simulation.after`.
-/
import Automata.Automaton.Basic
import Automata.Proofs.Results

namespace Automata.Automaton

variable {A B : Automaton}

-- ================================================== words and states

/-- The word is over the alphabet of the automaton. -/
def Over (A : Automaton) (w : List Symbol) : Prop := ∀ c ∈ w, c ∈ A.alphabet

/-- The state that a letter leads to; where the table leads nowhere, the
state itself. -/
def next (A : Automaton) (s c : Symbol) : Symbol := (A.move? s c).getD s

/-- The state that a word leads to. -/
def after (A : Automaton) (s : Symbol) (w : List Symbol) : Symbol := w.foldl A.next s

/-- Some word over the alphabet leads from the start to the state. -/
def Reachable (A : Automaton) (s : Symbol) : Prop := ∃ w, A.Over w ∧ A.run w = .ok s

@[simp] theorem over_nil : A.Over [] := fun _ h => absurd h List.not_mem_nil

@[simp] theorem over_cons {c : Symbol} {w : List Symbol} :
    A.Over (c :: w) ↔ c ∈ A.alphabet ∧ A.Over w := List.forall_mem_cons

@[simp] theorem over_append {v w : List Symbol} :
    A.Over (v ++ w) ↔ A.Over v ∧ A.Over w := List.forall_mem_append

theorem over_letters : A.Over A.letters := fun _ hc =>
  SymbolSet.mem_of_mem_toList (mem_letters.1 hc)

theorem over_congr (h : A.alphabet ≈ B.alphabet) {w : List Symbol} : A.Over w ↔ B.Over w := by
  have hmem := SymbolSet.alike_iff.1 h
  exact ⟨fun hw c hc => (hmem c).1 (hw c hc), fun hw c hc => (hmem c).2 (hw c hc)⟩

@[simp] theorem after_nil (s : Symbol) : A.after s [] = s := rfl

@[simp] theorem after_cons (s c : Symbol) (w : List Symbol) :
    A.after s (c :: w) = A.after (A.next s c) w := rfl

theorem after_append (s : Symbol) (v w : List Symbol) :
    A.after s (v ++ w) = A.after (A.after s v) w := List.foldl_append

/-- A row of a state has the entries that lead from the state. -/
theorem get?_row {s : Symbol} {row : Row} (hrow : A.delta.get? s = some row) (c : Symbol) :
    row.get? c = A.move? s c := (Description.move?_of_row hrow c).symm

/-- A letter of the alphabet leads from a state as the table says. -/
theorem move?_eq_some_next {s c : Symbol} (hs : s ∈ A.states) (hc : c ∈ A.alphabet) :
    A.move? s c = some (A.next s c) := by
  obtain ⟨t, ht, -⟩ := A.exists_move hs hc
  unfold next
  rw [ht, Option.getD_some]

theorem next_eq_of_move? {s c t : Symbol} (h : A.move? s c = some t) : A.next s c = t := by
  unfold next
  rw [h, Option.getD_some]

theorem next_mem {s c : Symbol} (hs : s ∈ A.states) (hc : c ∈ A.alphabet) :
    A.next s c ∈ A.states :=
  A.mem_states_of_move? hs hc (move?_eq_some_next hs hc)

theorem after_mem {s : Symbol} {w : List Symbol} (hs : s ∈ A.states) (hw : A.Over w) :
    A.after s w ∈ A.states := by
  induction w generalizing s with
  | nil => exact hs
  | cons c w ih =>
      obtain ⟨hc, hw⟩ := over_cons.1 hw
      exact ih (next_mem hs hc) hw

theorem next_congr {s t c d : Symbol} (hst : s ≈ t) (hcd : c ≈ d) : A.next s c ≈ A.next t d := by
  unfold next
  rw [A.move?_congr hst hcd]
  cases A.move? t d with
  | none => exact hst
  | some u => exact Setoid.refl u

/-- Alike states lead to alike states. -/
theorem after_congr {s t : Symbol} (h : s ≈ t) (w : List Symbol) : A.after s w ≈ A.after t w := by
  induction w generalizing s t with
  | nil => exact h
  | cons c w ih => exact ih (next_congr h (Setoid.refl c))

-- ============================================================== runs

/-- A single step leads where the table says. -/
theorem transition_eq_ok_iff {s c t : Symbol} :
    A.transition s c = .ok t ↔ A.move? s c = some t := by
  unfold transition Description.move?
  rw [bind_eq_ok_iff, Option.bind_eq_some_iff]
  simp only [SymbolMap.fetch_eq_ok_iff]

theorem transition_eq_ok {s c : Symbol} (hs : s ∈ A.states) (hc : c ∈ A.alphabet) :
    A.transition s c = .ok (A.next s c) :=
  transition_eq_ok_iff.2 (move?_eq_some_next hs hc)

/-- From a state a word over the alphabet leads to a state. -/
theorem runFrom_eq_ok {s : Symbol} {w : List Symbol} (hs : s ∈ A.states) (hw : A.Over w) :
    A.runFrom s w = .ok (A.after s w) := by
  induction w generalizing s with
  | nil => rfl
  | cons c w ih =>
      obtain ⟨hc, hw⟩ := over_cons.1 hw
      unfold runFrom at ih ⊢
      rw [List.foldlM_cons, transition_eq_ok hs hc]
      exact ih (next_mem hs hc) hw

theorem run_eq_ok {w : List Symbol} (hw : A.Over w) : A.run w = .ok (A.after A.start w) :=
  runFrom_eq_ok A.start_mem hw

theorem accepts_eq_ok {w : List Symbol} (hw : A.Over w) :
    A.accepts w = .ok (decide (A.after A.start w ∈ A.accepting)) := by
  unfold accepts
  rw [run_eq_ok hw]
  rfl

theorem reachable_iff {s : Symbol} :
    A.Reachable s ↔ ∃ w, A.Over w ∧ A.after A.start w = s := by
  unfold Reachable
  refine exists_congr fun w => and_congr_right fun hw => ?_
  rw [run_eq_ok hw, Except.ok.injEq]

theorem Reachable.mem {s : Symbol} (h : A.Reachable s) : s ∈ A.states := by
  obtain ⟨w, hw, rfl⟩ := reachable_iff.1 h
  exact after_mem A.start_mem hw

-- ============================================ words accepted from states

/-- From the state of the first automaton the same words over its
alphabet are accepted as from the state of the second. -/
def SameFrom (A B : Automaton) (s t : Symbol) : Prop :=
  ∀ w, A.Over w → (A.after s w ∈ A.accepting ↔ B.after t w ∈ B.accepting)

/-- The automata accept the same words over the alphabet of the first. -/
def SameLanguage (A B : Automaton) : Prop := ∀ w, A.Over w → A.accepts w = B.accepts w

theorem sameLanguage_iff (h : A.alphabet ≈ B.alphabet) :
    A.SameLanguage B ↔ A.SameFrom B A.start B.start := by
  refine forall_congr' fun w => imp_congr_right fun hw => ?_
  rw [accepts_eq_ok hw, accepts_eq_ok ((over_congr h).1 hw), Except.ok.injEq, decide_eq_decide]

theorem SameLanguage.symm (ha : A.alphabet ≈ B.alphabet) (h : A.SameLanguage B) :
    B.SameLanguage A := fun w hw => (h w ((over_congr ha).2 hw)).symm

theorem SameLanguage.trans {C : Automaton} (ha : A.alphabet ≈ B.alphabet) (h : A.SameLanguage B)
    (h' : B.SameLanguage C) : A.SameLanguage C := fun w hw =>
  (h w hw).trans (h' w ((over_congr ha).1 hw))

theorem SameFrom.next {s t c : Symbol} (h : A.SameFrom B s t) (hc : c ∈ A.alphabet) :
    A.SameFrom B (A.next s c) (B.next t c) := fun w hw => h (c :: w) (over_cons.2 ⟨hc, hw⟩)

theorem SameFrom.after {s t : Symbol} (h : A.SameFrom B s t) {v : List Symbol} (hv : A.Over v) :
    A.SameFrom B (A.after s v) (B.after t v) := by
  intro w hw
  rw [← after_append, ← after_append]
  exact h (v ++ w) (over_append.2 ⟨hv, hw⟩)

theorem SameFrom.symm (ha : A.alphabet ≈ B.alphabet) {s t : Symbol} (h : A.SameFrom B s t) :
    B.SameFrom A t s := fun w hw => (h w ((over_congr ha).2 hw)).symm

theorem SameFrom.trans {C : Automaton} (ha : A.alphabet ≈ B.alphabet) {s t u : Symbol}
    (h : A.SameFrom B s t) (h' : B.SameFrom C t u) : A.SameFrom C s u := fun w hw =>
  (h w hw).trans (h' w ((over_congr ha).1 hw))

theorem sameFrom_of_alike {s t : Symbol} (h : s ≈ t) : A.SameFrom A s t := fun w _ =>
  SymbolSet.mem_congr (after_congr h w)

-- ========================================================= simulation

/-- A relation of states along which two automata run in step. -/
structure Simulation (A B : Automaton) (rel : Symbol → Symbol → Prop) : Prop where
  alphabet : A.alphabet ≈ B.alphabet
  start : rel A.start B.start
  accepting : ∀ {s t}, rel s t → (s ∈ A.accepting ↔ t ∈ B.accepting)
  next : ∀ {s t c}, rel s t → c ∈ A.alphabet → rel (A.next s c) (B.next t c)

variable {rel : Symbol → Symbol → Prop}

theorem Simulation.after (h : Simulation A B rel) {s t : Symbol} (hst : rel s t) {w : List Symbol}
    (hw : A.Over w) : rel (A.after s w) (B.after t w) := by
  induction w generalizing s t with
  | nil => exact hst
  | cons c w ih =>
      obtain ⟨hc, hw⟩ := over_cons.1 hw
      exact ih (h.next hst hc) hw

theorem Simulation.sameFrom (h : Simulation A B rel) {s t : Symbol} (hst : rel s t) :
    A.SameFrom B s t := fun _ hw => h.accepting (h.after hst hw)

/-- Automata that run in step accept the same words. -/
theorem Simulation.sameLanguage (h : Simulation A B rel) : A.SameLanguage B :=
  (sameLanguage_iff h.alphabet).2 (h.sameFrom h.start)

end Automata.Automaton
