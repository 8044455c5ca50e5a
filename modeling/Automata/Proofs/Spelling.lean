/-
What can be written out.

Reports and drawings spell out states and letters, and a number may have
too many digits for that. Whether it has does not depend on how a symbol
is written (`Symbol.isWritable_congr`), so of an automaton whose states
and letters can be written all else can be, too: its start, its accepting
states and the targets of its table (`Writable`).

A list is written out as soon as each of its symbols can be, and is then
the list of what they are spelled; otherwise it is refused for the digits,
whichever symbol it fails at (`mapM_text_eq_ok`, `mapM_text_eq_error`).
So it does not matter in which order the parts of an automaton are
written. A report is written if the automaton is `Writable` and its states
can be compared, and it says then what is spelled (`Layout.lines_eq_ok`).
-/
import Mathlib.Data.List.ProdSigma
import Automata.Proofs.Results
import Automata.Proofs.Words
import Automata.Report

namespace Automata

variable {s t : Symbol} {u : SymbolSet} {sep : String}

-- ============================================================== symbols

namespace Symbol

theorem text_eq_ok (h : s.isWritable = true) : s.text = .ok s.spelling := by
  unfold text text?
  rw [if_pos h]

theorem text_eq_error (h : s.isWritable = false) : s.text = .error .tooManyDigits := by
  unfold text text?
  rw [h]
  rfl

theorem isWritable_plain (s : Symbol) : s.plain.isWritable = s.isWritable := by
  cases s with
  | bool b => cases b <;> decide +kernel
  | null => rfl
  | int n => rfl
  | str x => rfl

/-- Symbols that are alike have equally many digits. -/
theorem isWritable_congr (h : s ≈ t) : s.isWritable = t.isWritable := by
  rw [← isWritable_plain s, ← isWritable_plain t, alike_def.1 h]

theorem isWritable_ofNat {n : Nat} (h : n < Text.digitLimit) : (ofNat n).isWritable = true :=
  decide_eq_true h

/-- A list of symbols that can be written is spelled out. -/
theorem mapM_text_eq_ok {xs : List Symbol} (h : ∀ x ∈ xs, x.isWritable = true) :
    xs.mapM text = .ok (xs.map spelling) :=
  mapM_eq_ok fun x hx => text_eq_ok (h x hx)

/-- A list in which a symbol cannot be written is refused for that. -/
theorem mapM_text_eq_error {xs : List Symbol} (h : ¬∀ x ∈ xs, x.isWritable = true) :
    xs.mapM text = .error .tooManyDigits := by
  induction xs with
  | nil => exact absurd (fun x hx => absurd hx List.not_mem_nil) h
  | cons x xs ih =>
      rw [List.mapM_cons]
      cases hx : x.isWritable with
      | false =>
          rw [text_eq_error hx]
          rfl
      | true =>
          rw [text_eq_ok hx, ih fun hxs => h (List.forall_mem_cons.2 ⟨hx, hxs⟩)]
          rfl

end Symbol

-- ================================================================= sets

namespace SymbolSet

/-- All members can be written. -/
def Writable (u : SymbolSet) : Prop := ∀ x ∈ u.toList, x.isWritable = true

instance (u : SymbolSet) : Decidable u.Writable := List.decidableBAll _ _

theorem Writable.of_mem (h : u.Writable) (hs : s ∈ u) : s.isWritable = true := by
  obtain ⟨x, hx, hsx⟩ := hs
  rw [Symbol.isWritable_congr hsx]
  exact h x hx

/-- The members as they are spelled, in listing order with a separator
between them. -/
def spelling (separator : String) (u : SymbolSet) : String :=
  separator.intercalate (u.listing.map Symbol.spelling)

theorem join_eq_ok (h : u.Writable) : u.join sep = .ok (u.spelling sep) := by
  unfold join
  rw [Symbol.mapM_text_eq_ok fun x hx => h x (mem_listing.1 hx)]
  rfl

theorem join_eq_error (h : ¬u.Writable) : u.join sep = .error .tooManyDigits := by
  unfold join
  rw [Symbol.mapM_text_eq_error fun hall => h fun x hx => hall x (mem_listing.2 hx)]
  rfl

end SymbolSet

-- ============================================================= automata

namespace Automaton

variable {A : Automaton}

/-- All states and letters can be written. -/
structure Writable (A : Automaton) : Prop where
  states : A.states.Writable
  alphabet : A.alphabet.Writable

instance (A : Automaton) : Decidable A.Writable :=
  decidable_of_iff (A.states.Writable ∧ A.alphabet.Writable)
    ⟨fun h => ⟨h.1, h.2⟩, fun h => ⟨h.states, h.alphabet⟩⟩

theorem Writable.accepting (h : A.Writable) : A.accepting.Writable := fun _ hs =>
  h.states.of_mem (A.accepting_subset (SymbolSet.mem_of_mem_toList hs))

theorem Writable.next (h : A.Writable) (hs : s ∈ A.states) (hc : t ∈ A.alphabet) :
    (A.next s t).isWritable = true :=
  h.states.of_mem (next_mem hs hc)

theorem Writable.letters (h : A.Writable) : ∀ c ∈ A.letters, c.isWritable = true :=
  fun c hc => h.alphabet c (mem_letters.1 hc)

/-- The transitions of a report, one for each state and each letter. -/
theorem transitionsFrom_eq (A : Automaton) : A.transitionsFrom A.states.toList =
    (A.states.toList ×ˢ A.letters).map fun e => ⟨e.1, e.2, A.next e.1 e.2⟩ := by
  show A.states.toList.flatMap _ = List.map _ (A.states.toList.flatMap _)
  rw [List.map_flatMap]
  refine List.flatMap_congr fun s hs => ?_
  rw [List.map_map, ← List.filterMap_eq_map]
  refine List.filterMap_congr fun c hc => ?_
  have hmove := move?_eq_some_next (SymbolSet.mem_of_mem_toList hs)
    (over_letters c hc)
  rw [hmove]
  rfl

end Automaton

-- ============================================================== reports

namespace Layout

variable {A : Automaton} (L : Layout)

/-- The lines before the transitions, as they are spelled. -/
def spelledHeading (A : Automaton) : List String :=
  [ "States: " ++ A.states.spelling L.separator,
    "Alphabet: " ++ A.alphabet.spelling L.separator,
    L.startLabel ++ A.start.spelling,
    L.acceptingLabel ++ A.accepting.spelling L.separator,
    "Transitions:" ]

/-- The line of a transition, as it is spelled. -/
def spelledArc (t : Transition) : String :=
  L.indent ++ t.source.spelling ++ L.tail ++ t.letter.spelling ++ L.head ++ t.target.spelling

/-- All lines as they are spelled. -/
def spelled (A : Automaton) : List String :=
  L.spelledHeading A ++ (A.transitionsFrom A.states.toList).map L.spelledArc

variable {L}

theorem spelled_ne_nil : L.spelled A ≠ [] := List.cons_ne_nil _ _

theorem heading_eq_ok (h : A.Writable) : L.heading A = .ok (L.spelledHeading A) := by
  unfold heading
  rw [SymbolSet.join_eq_ok h.states, SymbolSet.join_eq_ok h.alphabet,
    Symbol.text_eq_ok (h.states.of_mem A.start_mem), SymbolSet.join_eq_ok h.accepting]
  rfl

theorem heading_eq_error (h : ¬A.Writable) : L.heading A = .error .tooManyDigits := by
  unfold heading
  by_cases hstates : A.states.Writable
  · rw [SymbolSet.join_eq_ok hstates, SymbolSet.join_eq_error fun halphabet =>
      h ⟨hstates, halphabet⟩]
    rfl
  · rw [SymbolSet.join_eq_error hstates]
    rfl

theorem mapM_arc_eq_ok (h : A.Writable) : (A.transitionsFrom A.states.toList).mapM L.arc =
    .ok ((A.transitionsFrom A.states.toList).map L.spelledArc) := by
  refine mapM_eq_ok fun t ht => ?_
  rw [Automaton.transitionsFrom_eq] at ht
  obtain ⟨⟨s, c⟩, he, rfl⟩ := List.mem_map.1 ht
  obtain ⟨hs, hc⟩ := List.mem_product.1 he
  have hs := SymbolSet.mem_of_mem_toList hs
  have hc := Automaton.over_letters c hc
  unfold arc
  rw [Symbol.text_eq_ok (h.states.of_mem hs), Symbol.text_eq_ok (h.alphabet.of_mem hc),
    Symbol.text_eq_ok (h.next hs hc)]
  rfl

/-- What can be written and put in order is spelled out. -/
theorem lines_eq_ok (h : A.Writable) (hcomparable : Symbol.Comparable A.states.toList) :
    L.lines A = .ok (L.spelled A) := by
  unfold lines
  rw [heading_eq_ok h, Automaton.transitions_eq_ok hcomparable]
  show (do let arcs ← (A.transitionsFrom A.states.toList).mapM L.arc; _) = _
  rw [mapM_arc_eq_ok h]
  rfl

/-- Too many digits show before all else. -/
theorem lines_eq_error (h : ¬A.Writable) : L.lines A = .error .tooManyDigits := by
  unfold lines
  rw [heading_eq_error h]
  rfl

end Layout

namespace Automaton

variable {A : Automaton} {title r : String} (hcomparable : Symbol.Comparable A.states.toList)
include hcomparable

theorem fileReport_eq_ok (h : A.Writable) :
    A.fileReport = .ok ("\n".intercalate (Layout.file.spelled A) ++ "\n") := by
  unfold fileReport
  rw [Layout.lines_eq_ok h hcomparable]
  rfl

theorem consoleReport_eq_ok (h : A.Writable) (title : String) : A.consoleReport title = .ok
    ("\n".intercalate
      (consoleOpening title ++ Layout.console.spelled A ++ consoleEnding title)) := by
  unfold consoleReport
  rw [Layout.lines_eq_ok h hcomparable]
  rfl

/-- There is a report for a file if all can be written. -/
theorem exists_fileReport_iff : (∃ r, A.fileReport = .ok r) ↔ A.Writable := by
  refine ⟨fun hr => ?_, fun h => ⟨_, fileReport_eq_ok hcomparable h⟩⟩
  by_contra h
  obtain ⟨r, hr⟩ := hr
  unfold fileReport at hr
  rw [Layout.lines_eq_error h] at hr
  cases hr

/-- There is a report for a console if all can be written. -/
theorem exists_consoleReport_iff (title : String) :
    (∃ r, A.consoleReport title = .ok r) ↔ A.Writable := by
  refine ⟨fun hr => ?_, fun h => ⟨_, consoleReport_eq_ok hcomparable h title⟩⟩
  by_contra h
  obtain ⟨r, hr⟩ := hr
  unfold consoleReport at hr
  rw [Layout.lines_eq_error h] at hr
  cases hr

theorem eq_of_fileReport (hr : A.fileReport = .ok r) :
    "\n".intercalate (Layout.file.spelled A) ++ "\n" = r := by
  have h := (exists_fileReport_iff hcomparable).1 ⟨r, hr⟩
  rw [fileReport_eq_ok hcomparable h] at hr
  exact Except.ok.inj hr

theorem eq_of_consoleReport (hr : A.consoleReport title = .ok r) : "\n".intercalate
    (consoleOpening title ++ Layout.console.spelled A ++ consoleEnding title) = r := by
  have h := (exists_consoleReport_iff hcomparable title).1 ⟨r, hr⟩
  rw [consoleReport_eq_ok hcomparable h] at hr
  exact Except.ok.inj hr

end Automaton

end Automata
