/-
Minimization commutes with complement: of an automaton that accepts
where another does not, the minimal automaton accepts where the minimal
automaton of the other does not.

Accepting states say nothing about where letters lead, so an automaton
and its `complement` reach the same states by the same words, and a word
that tells two states apart in the one tells them apart in the other
(`sameUpTo_complement`). The two reachable parts make the same
distinctions. So refinement takes the same course, although it starts
from the accepting and the other states in opposite order, and a state
has the same number in both minimal automata, where it accepts in just
one. Both are written down in the one way of numbered automata, to which
complementing them leads back (`Numbered.complement`), so they are equal
in all their data (`minimization_complement`).
-/
import Automata.Proofs.Distinctions

namespace Automata.Automaton

variable {A M : Automaton} {m n : Minimization} {s t : Symbol} {w : List Symbol} {k : Nat}

-- ========================================================== complement

/-- The automaton that accepts in those states in which the given one does
not. -/
def complement (A : Automaton) : Automaton where
  toDescription := { A.toDescription with accepting := A.states.sdiff A.accepting }
  start_mem := A.start_mem
  strays_isEmpty := by
    refine Description.strays_isEmpty_iff.2 fun s hs => ?_
    exact (SymbolSet.mem_sdiff.1 hs).1
  gaps_eq_nil := A.gaps_eq_nil

/-- The complement is what construction gives on the other states as the
accepting ones. -/
theorem build_complement (A : Automaton) :
    Description.build { A.toDescription with accepting := A.states.sdiff A.accepting } =
      .ok A.complement :=
  Description.build_eq_ok_iff.2 rfl

theorem mem_accepting_complement :
    s ∈ A.complement.accepting ↔ s ∈ A.states ∧ ¬s ∈ A.accepting := SymbolSet.mem_sdiff

theorem mem_accepting_complement_iff_not (hs : s ∈ A.states) :
    s ∈ A.complement.accepting ↔ ¬s ∈ A.accepting := by
  rw [mem_accepting_complement, and_iff_right hs]

/-- Words lead where they led. -/
theorem after_complement (s : Symbol) (w : List Symbol) :
    A.complement.after s w = A.after s w := rfl

/-- A word is accepted by just one of an automaton and its complement. -/
theorem accepts_complement (hw : A.Over w) :
    ∃ b, A.accepts w = .ok b ∧ A.complement.accepts w = .ok !b := by
  refine ⟨_, accepts_eq_ok hw, ?_⟩
  have hmem := after_mem A.start_mem hw
  rw [accepts_eq_ok (A := A.complement) hw, ← decide_not, Except.ok.injEq, decide_eq_decide]
  exact mem_accepting_complement_iff_not hmem

theorem Minimizable.complement (h : A.Minimizable) : A.complement.Minimizable :=
  minimizable_iff.2 ⟨h.null_not_mem, h.comparable_reached⟩

/-- Words tell the same states apart. -/
theorem sameUpTo_complement (hs : s ∈ A.states) (ht : t ∈ A.states) :
    A.complement.SameUpTo k s t ↔ A.SameUpTo k s t := by
  refine forall_congr' fun w => imp_congr_right fun hw => imp_congr_right fun _ => ?_
  have hw : A.Over w := hw
  rw [after_complement, after_complement, mem_accepting_complement_iff_not (after_mem hs hw),
    mem_accepting_complement_iff_not (after_mem ht hw), not_iff_not]

/-- The complement of a numbered automaton is numbered. -/
theorem Numbered.complement (h : M.Numbered) : M.complement.Numbered where
  description_eq := by
    have haccepting : M.states.sdiff M.accepting = .ofList M.complement.listing.accepting := by
      refine (SymbolSet.ofList_eq fun x => ?_).symm
      unfold SymbolSet.sdiff listing
      rw [SymbolSet.toList_filter, List.mem_filter, h.mem_toList_states_iff, decide_eq_true_eq]
      simp only [List.mem_filterMap, List.mem_range, Option.ite_none_right_eq_some,
        Option.some.injEq]
      constructor
      · intro hx
        obtain ⟨i, hi, hacc, rfl⟩ := hx
        exact ⟨⟨i, hi, rfl⟩, (mem_accepting_complement.1 hacc).2⟩
      · intro hx
        obtain ⟨⟨i, hi, rfl⟩, hrejected⟩ := hx
        exact ⟨i, hi, mem_accepting_complement.2 ⟨h.ofNat_mem hi, hrejected⟩, rfl⟩
    have hsame : ∀ {α} (field : Description → α), field M.toDescription =
        field M.listing.description := fun field => congrArg field h.description_eq
    exact Description.ext (hsame Description.states) (hsame Description.alphabet) rfl haccepting
      (hsame Description.delta)
  exists_start := h.exists_start
  exists_next := h.exists_next

-- ======================================================== minimization

namespace Minimizes

variable (hm : Minimizes m A) (hn : Minimizes n A.complement)

include hm hn

/-- The reachable parts make the same distinctions. -/
theorem sameDistinctions_complement : m.pruned.SameDistinctions n.pruned where
  states := Setoid.trans hm.pruned.states (Setoid.symm hn.pruned.states)
  sameUpTo_iff := by
    intro k s t hs ht
    have hs := hm.pruned.mem_states_iff.1 hs
    have ht := hm.pruned.mem_states_iff.1 ht
    rw [hm.pruned.sameUpTo_iff hs ht, hn.pruned.sameUpTo_iff hs ht]
    exact (sameUpTo_complement (mem_states_of_mem_reached hs) (mem_states_of_mem_reached ht)).symm

/-- The minimal automata differ in which states accept, and in nothing
else. -/
theorem minimized_complement (hA : A.minimization = .ok m)
    (hB : A.complement.minimization = .ok n) : n.minimized = m.minimized.complement := by
  have hsame := (hm.sameDistinctions_complement hn).sameNumbers hm hn
  have hsize := hsame.size_minimized_eq hm hn
  have hstart : m.pruned.start = n.pruned.start := hm.pruned.start.trans hn.pruned.start.symm
  refine (hn.numbered hB).eq_of_same (hm.numbered hA).complement hsize.symm
    (hn.alphabet.trans hm.alphabet.symm)
    (hsame.start_minimized_eq hm hn (hstart ▸ Setoid.refl _)).symm ?_ ?_
  · -- a number accepts in the one as its states do, in the other as they do not
    intro i hi
    obtain ⟨s, hs, rfl⟩ := hm.exists_number_eq (hsize ▸ hi)
    obtain ⟨hleft, hright⟩ := hsame.accepting_number_iff hm hn hs
    have hreach := hm.pruned.mem_states_iff.1 hs
    rw [hright, mem_accepting_complement_iff_not (hm.ofNat_number_mem hs), hleft,
      hm.pruned.accepting hreach, id_eq, hn.pruned.accepting hreach]
    exact mem_accepting_complement_iff_not (mem_states_of_mem_reached hreach)
  · intro i hi c hc
    obtain ⟨s, hs, rfl⟩ := hm.exists_number_eq (hsize ▸ hi)
    have hreach := hm.pruned.mem_states_iff.1 hs
    rw [hn.alphabet] at hc
    have hcm : c ∈ m.pruned.alphabet := by rwa [hm.pruned.alphabet]
    have hcn : c ∈ n.pruned.alphabet := by rwa [hn.pruned.alphabet]
    have hnext : m.pruned.next s c = n.pruned.next s c :=
      (hm.pruned.next hreach c).trans (hn.pruned.next hreach c).symm
    exact (hsame.next_number_eq hm hn hs hcm hcn (hnext ▸ Setoid.refl _)).symm

end Minimizes

/-- The complement of an automaton without a null state, of which the
reachable states can be compared, is minimized to the complement of the
minimal automaton. The partition, the mapping and the numbers of rounds
and of removed states are the same. -/
theorem minimization_complement (h : A.Minimizable) :
    ∃ m n, A.minimization = .ok m ∧ A.complement.minimization = .ok n ∧
      n.minimized = m.minimized.complement ∧ m.SameCourse n := by
  obtain ⟨m, hmA, hm⟩ := exists_minimization h
  obtain ⟨n, hnB, hn⟩ := exists_minimization h.complement
  exact ⟨m, n, hmA, hnB, hm.minimized_complement hn hmA hnB,
    (hm.sameDistinctions_complement hn).sameCourse hm hn hmA hnB⟩

theorem minimization_complement_modFour :
    modFour.Minimizable ∧
      ∃ m n, modFour.minimization = .ok m ∧ modFour.complement.minimization = .ok n ∧
        n.minimized = m.minimized.complement ∧ m.SameCourse n :=
  have h : modFour.Minimizable := by decide
  ⟨h, minimization_complement h⟩

-- the block of even counts comes first in both, and accepts in one
example : (modFour.minimize.map (·.accepting.toList),
    modFour.complement.minimize.map (·.accepting.toList)) = (.ok [.int 0], .ok [.int 1]) := by
  decide +kernel

end Automata.Automaton
