/-
Letters have no say by their names: an automaton with its letters renamed
is minimized to the minimal automaton with its letters renamed.

# Renaming

`relabel` gives every letter another name, of any sort and in any order
among the others, and drops what the table holds for symbols that are no
letters. As long as no two letters get one name, the automaton that
results has all the moves of the first, by other letters (`RelabelledTo`).

# Minimization

The order of the letters settles at which place of a signature a letter
stands, and renaming puts the places in another order. That does not
matter, as the states with one signature are those that no letter tells
apart, in whatever order the letters are asked. So a renamed automaton has
the same moves (`RelabelledTo.sameMoves`), and goes through the same
course. Its minimal automaton leads from each number by the new name of a
letter to where the old name led (`Minimizes.relabelledTo`), and, since
neither table holds more than it needs, it is the one that renaming gives
(`minimization_relabel`).
-/
import Automata.Proofs.Distinctions
import Automata.Proofs.Tables

namespace Automata.Automaton

variable {A B C : Automaton} {m n : Minimization} {g : Symbol → Symbol} {s c x t : Symbol}
  {row : Row}

-- ============================================================ renaming

/-- A row with the letters renamed and without entries for other symbols. -/
def relabelRow (A : Automaton) (g : Symbol → Symbol) (row : Row) : Row :=
  .ofList (A.letters.filterMap fun c => (row.get? c).map fun t => (g c, t))

/-- The data of the automaton with its letters renamed. -/
def relabelled (A : Automaton) (g : Symbol → Symbol) : Description where
  states := A.states
  alphabet := .ofList (A.letters.map g)
  start := A.start
  accepting := A.accepting
  delta := A.delta.filterMap fun _ row => some (A.relabelRow g row)

/-- The automaton with its letters renamed. -/
def relabel (A : Automaton) (g : Symbol → Symbol) : Except Fault Automaton :=
  (A.relabelled g).build

theorem mem_alphabet_relabelled : x ∈ (A.relabelled g).alphabet ↔ ∃ c ∈ A.letters, x ≈ g c := by
  unfold relabelled
  exact SymbolSet.mem_ofList_map

theorem get?_relabelled :
    (A.relabelled g).delta.get? s = (A.delta.get? s).map (A.relabelRow g) := by
  unfold relabelled SymbolMap.get?
  rw [SymbolMap.find?_filterMap]
  cases A.delta.find? s <;> rfl

/-- What a renamed row has an entry for is the new name of a letter with
that entry. -/
theorem exists_of_get?_relabelRow (h : (A.relabelRow g row).get? x = some t) :
    ∃ c ∈ A.letters, x ≈ g c ∧ row.get? c = some t := by
  obtain ⟨_, he, hx⟩ := SymbolMap.exists_of_get?_ofList h
  obtain ⟨c, hc, hentry⟩ := List.mem_filterMap.1 he
  obtain ⟨_, ht, hpair⟩ := Option.map_eq_some_iff.1 hentry
  cases hpair
  exact ⟨c, hc, hx, ht⟩

section Injective

variable (hg : ∀ c ∈ A.letters, ∀ d ∈ A.letters, g c ≈ g d → c = d)

include hg

/-- The new name of a letter has the entry of the letter. -/
theorem get?_relabelRow (hc : c ∈ A.letters) : (A.relabelRow g row).get? (g c) = row.get? c := by
  cases ht : row.get? c with
  | none =>
      refine Option.eq_none_iff_forall_ne_some.2 fun t hentry => ?_
      obtain ⟨d, hd, hcd, hvalue⟩ := exists_of_get?_relabelRow hentry
      rw [← hg c hc d hd hcd, ht] at hvalue
      cases hvalue
  | some t =>
      have hlisted : (g c, t) ∈ A.letters.filterMap fun c => (row.get? c).map fun t => (g c, t) :=
        List.mem_filterMap.2 ⟨c, hc, Option.map_eq_some_iff.2 ⟨t, ht, rfl⟩⟩
      refine SymbolMap.get?_ofList_of_mem hlisted (Setoid.refl _) fun e he hce => ?_
      obtain ⟨d, hd, hentry⟩ := List.mem_filterMap.1 he
      obtain ⟨u, hu, rfl⟩ := Option.map_eq_some_iff.1 hentry
      rw [← hg c hc d hd hce, ht] at hu
      exact (Option.some.inj hu).symm

theorem move?_relabelled (hc : c ∈ A.letters) : (A.relabelled g).move? s (g c) = A.move? s c := by
  unfold Description.move?
  rw [get?_relabelled, Option.bind_map]
  refine congrArg (Option.bind _) (funext fun row => ?_)
  exact get?_relabelRow hg hc

/-- With its letters renamed, an automaton is one. -/
theorem exists_relabel : ∃ B, A.relabel g = .ok B ∧ B.toDescription = A.relabelled g := by
  refine Description.exists_build A.start_mem (fun _ => A.accepting_subset) fun s hs => ?_
  obtain ⟨row, hrow, hall⟩ := Description.gaps_eq_nil_iff.1 A.gaps_eq_nil s hs
  refine ⟨A.relabelRow g row, ?_, fun x hx => ?_⟩
  · rw [get?_relabelled, hrow, Option.map_some]
  · obtain ⟨c, hc, hxc⟩ := mem_alphabet_relabelled.1 hx
    rw [SymbolMap.get?_congr hxc, get?_relabelRow hg hc]
    exact hall c (over_letters c hc)

end Injective

-- ========================================================== same moves

/-- The second automaton has the states of the first, and leads from them
by the new names of letters to where the first leads by the old ones. -/
structure RelabelledTo (A : Automaton) (g : Symbol → Symbol) (B : Automaton) : Prop where
  states : A.states ≈ B.states
  alphabet : ∀ x, x ∈ B.alphabet ↔ ∃ c ∈ A.letters, x ≈ g c
  start : A.start ≈ B.start
  accepting : A.accepting ≈ B.accepting
  transition : ∀ s ∈ A.states, ∀ c ∈ A.letters,
    ∃ t u, A.transition s c = .ok t ∧ B.transition s (g c) = .ok u ∧ t ≈ u

theorem relabelledTo_of_relabel (hg : ∀ c ∈ A.letters, ∀ d ∈ A.letters, g c ≈ g d → c = d)
    (hB : B.toDescription = A.relabelled g) : A.RelabelledTo g B where
  states := SymbolSet.alike_of_eq (congrArg Description.states hB).symm
  alphabet := by
    intro x
    rw [hB]
    exact mem_alphabet_relabelled
  start := by
    rw [hB]
    exact Setoid.refl _
  accepting := SymbolSet.alike_of_eq (congrArg Description.accepting hB).symm
  transition := by
    intro s hs c hc
    have hmem := over_letters c hc
    refine ⟨_, A.next s c, transition_eq_ok hs hmem, transition_eq_ok_iff.2 ?_, Setoid.refl _⟩
    rw [hB, move?_relabelled hg hc, move?_eq_some_next hs hmem]

/-- Renaming adds no rows or entries. -/
theorem Exact.relabel (hA : A.Exact) (hB : B.toDescription = A.relabelled g) : B.Exact := by
  have hrows : ∀ {s row}, B.delta.get? s = some row →
      ∃ row', A.delta.get? s = some row' ∧ A.relabelRow g row' = row := by
    intro s row hrow
    rw [hB, get?_relabelled] at hrow
    exact Option.map_eq_some_iff.1 hrow
  constructor
  · intro s row hrow
    obtain ⟨row', hrow', -⟩ := hrows hrow
    rw [hB]
    exact hA.mem_states hrow'
  · intro s row x t hrow ht
    obtain ⟨row', -, rfl⟩ := hrows hrow
    obtain ⟨c, hc, hx, -⟩ := exists_of_get?_relabelRow ht
    rw [hB]
    exact mem_alphabet_relabelled.2 ⟨c, hc, hx⟩

namespace RelabelledTo

theorem name_mem (h : A.RelabelledTo g B) (hc : c ∈ A.letters) : g c ∈ B.alphabet :=
  (h.alphabet _).2 ⟨c, hc, Setoid.refl _⟩

theorem next_alike (h : A.RelabelledTo g B) (hs : s ∈ A.states) (hc : c ∈ A.letters) :
    A.next s c ≈ B.next s (g c) := by
  obtain ⟨t, u, ht, hu, htu⟩ := h.transition s hs c hc
  rwa [next_eq_of_move? (transition_eq_ok_iff.1 ht), next_eq_of_move? (transition_eq_ok_iff.1 hu)]

/-- What a letter does its new name does as well. -/
theorem sameMoves (h : A.RelabelledTo g B) : A.SameMoves B where
  start := h.start
  accepting := fun s _ => SymbolSet.alike_iff.1 h.accepting s
  forth := by
    intro c hc
    obtain ⟨d, hd, hcd⟩ := hc
    refine ⟨g d, h.name_mem (mem_letters.2 hd), fun s hs => ?_⟩
    refine Setoid.trans (next_congr (Setoid.refl s) hcd) ?_
    exact h.next_alike (mem_states_of_mem_reached hs) (mem_letters.2 hd)
  back := by
    intro x hx
    obtain ⟨c, hc, hxc⟩ := (h.alphabet x).1 hx
    refine ⟨c, over_letters c hc, fun s hs => ?_⟩
    refine Setoid.trans (h.next_alike (mem_states_of_mem_reached hs) hc) ?_
    exact next_congr (Setoid.refl s) (Setoid.symm hxc)

/-- Without more rows and entries than needed, there is one automaton with
the new names. -/
theorem alike (h : A.RelabelledTo g B) (h' : A.RelabelledTo g C) (hB : B.Exact) (hC : C.Exact) :
    B ≈ C := by
  refine hB.alike hC (Setoid.trans (Setoid.symm h.states) h'.states) ?_
    (Setoid.trans (Setoid.symm h.start) h'.start)
    (Setoid.trans (Setoid.symm h.accepting) h'.accepting) fun s hs x hx => ?_
  · exact SymbolSet.alike_iff.2 fun x => (h.alphabet x).trans (h'.alphabet x).symm
  · obtain ⟨c, hc, hxc⟩ := (h.alphabet x).1 hx
    have hsA := (SymbolSet.alike_iff.1 h.states s).2 hs
    have hsame := Setoid.trans (Setoid.symm (h.next_alike hsA hc)) (h'.next_alike hsA hc)
    refine Setoid.trans (next_congr (Setoid.refl s) hxc) (Setoid.trans hsame ?_)
    exact next_congr (Setoid.refl s) (Setoid.symm hxc)

end RelabelledTo

-- ======================================================== minimization

namespace Minimizes

theorem letters_eq (hm : Minimizes m A) : m.minimized.letters = A.letters := by
  unfold letters
  rw [hm.alphabet]

/-- The minimal automata differ by the names of letters as the automata
do. -/
theorem relabelledTo (hm : Minimizes m A) (hn : Minimizes n B) (h : A.RelabelledTo g B) :
    m.minimized.RelabelledTo g n.minimized where
  states := hm.minimized_states_alike hn h.sameMoves
  alphabet := by
    intro x
    rw [hn.alphabet, hm.letters_eq, h.alphabet]
  start := hm.minimized_start_alike hn h.sameMoves
  accepting := hm.minimized_accepting_alike hn h.sameMoves
  transition := by
    intro t ht c hc
    rw [hm.letters_eq] at hc
    have hmem := over_letters c hc
    have hname := h.name_mem hc
    have htn := (SymbolSet.alike_iff.1 (hm.minimized_states_alike hn h.sameMoves) t).1 ht
    refine ⟨_, _, transition_eq_ok ht ?_, transition_eq_ok htn ?_, ?_⟩
    · rwa [hm.alphabet]
    · rwa [hn.alphabet]
    · refine hm.minimized_next_alike hn h.sameMoves hmem hname (fun s hs => ?_) ht
      exact h.next_alike (mem_states_of_mem_reached hs) hc

end Minimizes

/-- Let the letters of an automaton without a null state, of which the
reachable states can be compared, be renamed so that no two get one name.
The automaton that results is minimized to the minimal automaton with its
letters renamed, and the partition, the mapping and the numbers of rounds
and of removed states are as before. -/
theorem minimization_relabel (hA : A.Minimizable)
    (hg : ∀ c ∈ A.letters, ∀ d ∈ A.letters, g c ≈ g d → c = d) :
    ∃ B m n M, A.relabel g = .ok B ∧ A.minimization = .ok m ∧ B.minimization = .ok n ∧
      m.minimized.relabel g = .ok M ∧ n.minimized ≈ M ∧
      m.minimized.RelabelledTo g n.minimized ∧ m.SameCourse n := by
  obtain ⟨B, hB, hBd⟩ := exists_relabel hg
  have h := relabelledTo_of_relabel hg hBd
  have hnull : ¬Symbol.null ∈ B.states := by
    rw [← SymbolSet.alike_iff.1 h.states]
    exact hA.null_not_mem
  obtain ⟨m, hmA, hm⟩ := exists_minimization hA
  obtain ⟨n, hnB, hn⟩ := exists_minimization (h.sameMoves.minimizable hA hnull)
  have hmn := hm.relabelledTo hn h
  have hgm : ∀ c ∈ m.minimized.letters, ∀ d ∈ m.minimized.letters, g c ≈ g d → c = d := by
    rwa [hm.letters_eq]
  obtain ⟨M, hM, hMd⟩ := exists_relabel hgm
  refine ⟨B, m, n, M, hB, hmA, hnB, hM, ?_, hmn, hm.sameCourse hn h.sameMoves hmA hnB⟩
  exact hmn.alike (relabelledTo_of_relabel hgm hMd) (hn.numbered hnB).exact
    ((hm.numbered hmA).exact.relabel hMd)

/-- Accepts the words in which a "b" follows the first "a". The table
knows a third symbol, and no word leads to the last state. -/
def bAfterA : Automaton where
  toDescription := Presentation.description
    { states := [.int 0, .int 1, .int 2, .int 3, .str "idle"]
      alphabet := [.str "a", .str "b"]
      start := .int 0
      accepting := [.int 2, .int 3]
      delta :=
        [(.int 0, [(.str "a", .int 1), (.str "b", .int 0), (.str "c", .null)]),
          (.int 1, [(.str "a", .int 1), (.str "b", .int 2)]),
          (.int 2, [(.str "a", .int 3), (.str "b", .int 2)]),
          (.int 3, [(.str "a", .int 2), (.str "b", .int 3)]),
          (.str "idle", [(.str "a", .int 0), (.str "b", .str "idle")])] }
  start_mem := by decide
  strays_isEmpty := by decide
  gaps_eq_nil := by decide

/-- Puts a number for "a" and null for "b", which are listed the other way
round. -/
def numberAndNull (c : Symbol) : Symbol := if c = .str "a" then .int 0 else .null

theorem minimization_relabel_bAfterA :
    bAfterA.Minimizable ∧
      (∀ c ∈ bAfterA.letters, ∀ d ∈ bAfterA.letters, numberAndNull c ≈ numberAndNull d → c = d) ∧
      ∃ B m n M, bAfterA.relabel numberAndNull = .ok B ∧ bAfterA.minimization = .ok m ∧
        B.minimization = .ok n ∧ m.minimized.relabel numberAndNull = .ok M ∧ n.minimized ≈ M ∧
        m.minimized.RelabelledTo numberAndNull n.minimized ∧ m.SameCourse n :=
  have hA : bAfterA.Minimizable := by decide
  have hg : ∀ c ∈ bAfterA.letters, ∀ d ∈ bAfterA.letters,
      numberAndNull c ≈ numberAndNull d → c = d := by decide
  ⟨hA, hg, minimization_relabel hA hg⟩

-- the letters are listed the other way round, and null leads as "b" does
example : (do
    let B ← bAfterA.relabel numberAndNull
    let M ← B.minimize
    return (B.letters, M.move? (.int 1) .null)) =
      .ok ([.null, .int 0], some (.int 2)) := by
  decide +kernel

end Automata.Automaton
