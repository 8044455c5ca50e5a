/-
The minimal automaton as a canonical form: automata have isomorphic
minimal automata just when they accept the same words.

Two minimal automata for one language are matched state by state, each
state with one from which the same words are accepted. In a minimal
automaton there is only one such state (`Minimal.alike_of_sameFrom_both`),
so whatever has to be shown of the matching, that it is onto, that it
keeps the start and where letters lead, is shown by finding two states
from which the same words are accepted.
-/
import Automata.Proofs.Isomorphism.States
import Automata.Proofs.Minimality

namespace Automata.Automaton

variable {A B M N : Automaton} {m : Minimization}

/-- States of a minimal automaton matched with one state are alike. -/
theorem Minimal.alike_of_sameFrom_both (hN : N.Minimal) (ha : M.alphabet ≈ N.alphabet)
    {s t u : Symbol} (ht : t ∈ N.states) (hu : u ∈ N.states) (hst : M.SameFrom N s t)
    (hsu : M.SameFrom N s u) : t ≈ u :=
  hN.alike_of_sameFrom t ht u hu ((hst.symm ha).trans (Setoid.symm ha) hsu)

/-- Minimal automata for one language differ in the names of their states
only. -/
theorem Minimal.exists_renames (hM : M.Minimal) (hN : N.Minimal) (ha : M.alphabet ≈ N.alphabet)
    (hl : M.SameLanguage N) : ∃ f, M.Renames N f := by
  have hstart : M.SameFrom N M.start N.start := (sameLanguage_iff ha).1 hl
  have hback : N.SameLanguage M := (sameLanguage_iff (Setoid.symm ha)).2 (hstart.symm ha)
  obtain ⟨f, hf⟩ := hM.exists_matching ha hl
  obtain ⟨g, hg⟩ := hN.exists_matching (Setoid.symm ha) hback
  refine ⟨f, fun {s} hs => (hf s hs).1, fun {s t} hs ht => ⟨fun hst => ?_, fun hst => ?_⟩,
    fun {t} ht => ?_, ?_, fun {s} hs => ?_, fun {s c} hs hc => ?_⟩
  · refine hM.alike_of_sameFrom s hs t ht ?_
    exact ((hf s hs).2.trans ha (sameFrom_of_alike hst)).trans ha ((hf t ht).2.symm ha)
  · have hsame := (sameFrom_of_alike (A := M) hst).trans (Setoid.refl _) (hf t ht).2
    exact hN.alike_of_sameFrom_both ha (hf s hs).1 (hf t ht).1 (hf s hs).2 hsame
  · obtain ⟨hmem, hsame⟩ := hg t ht
    refine ⟨g t, hmem, ?_⟩
    exact hN.alike_of_sameFrom_both ha (hf _ hmem).1 ht (hf _ hmem).2 (hsame.symm (Setoid.symm ha))
  · exact hN.alike_of_sameFrom_both ha (hf _ M.start_mem).1 N.start_mem (hf _ M.start_mem).2 hstart
  · exact ((hf s hs).2 [] over_nil).symm
  · have hnext := next_mem hs hc
    have hc' := (SymbolSet.alike_iff.1 ha c).1 hc
    exact hN.alike_of_sameFrom_both ha (hf _ hnext).1 (next_mem (hf s hs).1 hc') (hf _ hnext).2
      ((hf s hs).2.next hc)

/-- No new state is null. -/
theorem Minimizes.null_not_mem (h : Minimizes m A) : ¬Symbol.null ∈ m.minimized.states := by
  intro hnull
  obtain ⟨i, -, hi⟩ := h.minimized.mem_states_iff.1 hnull
  cases hi

/-- The minimal automata are isomorphic just when the automata are over
one alphabet and accept the same words. -/
theorem isomorphic_minimize_iff (hA : A.Minimizable) (hB : B.Minimizable) :
    ∃ M N b, A.minimize = .ok M ∧ B.minimize = .ok N ∧ M.isomorphic N = .ok b ∧
      (b = true ↔
        A.alphabet ≈ B.alphabet ∧ ∀ w, A.Over w → A.accepts w = B.accepts w) := by
  obtain ⟨m, hm, hspecA⟩ := exists_minimize hA
  obtain ⟨n, hn, hspecB⟩ := exists_minimize hB
  obtain ⟨b, hb, hiff⟩ := exists_isomorphic hspecA.null_not_mem hspecB.null_not_mem
  refine ⟨m.minimized, n.minimized, b, hm, hn, hb, hiff.trans ?_⟩
  rw [hspecA.alphabet, hspecB.alphabet]
  refine and_congr_right fun ha => ?_
  have hto := hspecA.alphabet_alike
  have hto' := hspecB.alphabet_alike
  have hminimal : m.minimized.alphabet ≈ n.minimized.alphabet :=
    Setoid.trans (Setoid.symm hto) (Setoid.trans ha hto')
  constructor
  · intro h
    obtain ⟨f, hf⟩ := h
    have hforth := hspecA.sameLanguage.trans hto (hf.simulation hminimal).sameLanguage
    exact hforth.trans (Setoid.trans hto hminimal) (hspecB.sameLanguage.symm hto')
  · intro hl
    have hforth := (hspecA.sameLanguage.symm hto).trans (Setoid.symm hto) hl
    refine hspecA.minimal.exists_renames hspecB.minimal hminimal ?_
    exact hforth.trans (Setoid.trans (Setoid.symm hto) ha) hspecB.sameLanguage

theorem isomorphic_minimize_iff_modFour :
    modFour.Minimizable ∧ modTwo.Minimizable ∧
      ∃ M N b, modFour.minimize = .ok M ∧ modTwo.minimize = .ok N ∧ M.isomorphic N = .ok b ∧
        (b = true ↔ modFour.alphabet ≈ modTwo.alphabet ∧
          ∀ w, modFour.Over w → modFour.accepts w = modTwo.accepts w) :=
  have hA : modFour.Minimizable := by decide
  have hB : modTwo.Minimizable := by decide
  ⟨hA, hB, isomorphic_minimize_iff hA hB⟩

end Automata.Automaton
