/-
A round of refinement as an operation on all partitions of the states, and
not only on those that a course of refinement goes through.

A round relates exactly what was related and is led together by every
letter (`Covers.exists_refine`), and what is said of it here is read off
that. Groups of different blocks are not merged even if their members
have equal signatures, so a round only ever splits; it therefore keeps
the number of blocks just when it keeps the partition
(`Covers.size_refine_eq_iff`), and counting blocks is enough to tell when
to stop. And a partition that relates less is not made to relate more by
a round: rounds are monotone (`Finer.refine`).
-/
import Automata.Proofs.Partition.Greatest

namespace Automata.Partition

variable {A : Automaton} {P Q P' Q' : Partition}

/-- A letter leads two states together when it leads them to states that
lie together. -/
theorem together_next_iff {s t c : Symbol} (hs : s ∈ A.states) (ht : t ∈ A.states)
    (hc : c ∈ A.alphabet) : P.Together (A.next s c) (A.next t c) ↔
      ∃ u v, A.transition s c = .ok u ∧ A.transition t c = .ok v ∧ P.Together u v := by
  rw [Automaton.transition_eq_ok hs hc, Automaton.transition_eq_ok ht hc]
  simp only [Except.ok.injEq, exists_and_left, exists_eq_left']

/-- A round keeps the number of blocks just when it keeps the partition. -/
theorem Covers.size_refine_eq_iff (hP : P.Covers A) (hP' : P.refine A = .ok P') :
    P'.size = P.size ↔ P' ≈ P := by
  refine ⟨fun hsize => ?_, size_eq_of_alike⟩
  have hfiner := hP.finer_refine hP'
  have hback := together_of_size_eq hP (hP.refine hP').1 hfiner hsize
  exact alike_iff.2 fun s t => ⟨hfiner s t, hback s t⟩

/-- Of two partitions the finer one is still finer after a round. -/
theorem Finer.refine (h : P.Finer Q) (hP : P.Covers A) (hQ : Q.Covers A)
    (hP' : P.refine A = .ok P') (hQ' : Q.refine A = .ok Q') : P'.Finer Q' := by
  intro s t hst
  obtain ⟨htogether, hnext⟩ := ((hP.refine hP').2 s t).1 hst
  exact ((hQ.refine hQ').2 s t).2 ⟨h s t htogether, fun c hc => h _ _ (hnext c hc)⟩

/-- A round against any partition of the states gives a partition of the
states. Two states lie together in it just when they did before and every
letter leads them to states that did. It has no fewer blocks, and equally
many just when it is the same partition. If the blocks of one partition
lie in blocks of another, then so they do after a round of each. -/
theorem refine_exact (hP : P.Covers A) (hQ : Q.Covers A) :
    ∃ P' Q', P.refine A = .ok P' ∧ Q.refine A = .ok Q' ∧ P'.Covers A ∧
      (∀ s ∈ A.states, ∀ t ∈ A.states, P'.Together s t ↔ P.Together s t ∧ ∀ c ∈ A.alphabet,
        ∃ u v, A.transition s c = .ok u ∧ A.transition t c = .ok v ∧ P.Together u v) ∧
      P.size ≤ P'.size ∧ (P'.size = P.size ↔ P' ≈ P) ∧
      ((∀ b ∈ P.blocks, ∃ c ∈ Q.blocks, ∀ s ∈ b, s ∈ c) →
        ∀ b ∈ P'.blocks, ∃ c ∈ Q'.blocks, ∀ s ∈ b, s ∈ c) := by
  obtain ⟨P', hP', hcovers, htogether⟩ := hP.exists_refine
  obtain ⟨Q', hQ', -⟩ := hQ.exists_refine
  refine ⟨P', Q', hP', hQ', hcovers, fun s hs t ht => ?_, ?_, hP.size_refine_eq_iff hP',
    fun hfiner => ?_⟩
  · rw [htogether]
    refine and_congr_right fun _ => forall_congr' fun c => imp_congr_right fun hc => ?_
    exact together_next_iff hs ht hc
  · exact size_le_of_finer hP hcovers (hP.finer_refine hP')
  · exact finer_iff.1 ((finer_iff.2 hfiner).refine hP hQ hP' hQ')

/-- Pairs of neighbouring counts, and the state 7 in a block of its own. -/
def modFourPairs : Partition where
  blocks := [.ofList [.int 0, .int 1], .ofList [.int 2, .int 3], .ofList [.int 7]]
  index := numbering [.ofList [.int 0, .int 1], .ofList [.int 2, .int 3], .ofList [.int 7]]
  areBlocks := ⟨by decide, by decide, by decide, by decide⟩
  index_eq := rfl

/-- All counts together, and the state 7 in a block of its own. -/
def modFourCounts : Partition where
  blocks := [.ofList [.int 0, .int 1, .int 2, .int 3], .ofList [.int 7]]
  index := numbering [.ofList [.int 0, .int 1, .int 2, .int 3], .ofList [.int 7]]
  areBlocks := ⟨by decide, by decide, by decide, by decide⟩
  index_eq := rfl

/-- The pairs lie in the block of all counts. A round parts each pair, and
keeps the counts together. -/
theorem refine_exact_modFour :
    modFourPairs.Covers Automaton.modFour ∧ modFourCounts.Covers Automaton.modFour ∧
      ∃ P' Q', modFourPairs.refine Automaton.modFour = .ok P' ∧
        modFourCounts.refine Automaton.modFour = .ok Q' ∧ P'.Covers Automaton.modFour ∧
        (∀ s ∈ Automaton.modFour.states, ∀ t ∈ Automaton.modFour.states,
          P'.Together s t ↔ modFourPairs.Together s t ∧ ∀ c ∈ Automaton.modFour.alphabet,
            ∃ u v, Automaton.modFour.transition s c = .ok u ∧
              Automaton.modFour.transition t c = .ok v ∧ modFourPairs.Together u v) ∧
        modFourPairs.size ≤ P'.size ∧ (P'.size = modFourPairs.size ↔ P' ≈ modFourPairs) ∧
        ∀ b ∈ P'.blocks, ∃ c ∈ Q'.blocks, ∀ s ∈ b, s ∈ c := by
  have hP : modFourPairs.Covers Automaton.modFour := by decide +kernel
  have hQ : modFourCounts.Covers Automaton.modFour := by decide +kernel
  have hfiner : ∀ b ∈ modFourPairs.blocks, ∃ c ∈ modFourCounts.blocks, ∀ s ∈ b, s ∈ c := by
    have hmembers : ∀ b ∈ modFourPairs.blocks, ∃ c ∈ modFourCounts.blocks,
        ∀ s ∈ b.toList, s ∈ c := by decide
    intro b hb
    obtain ⟨c, hc, hall⟩ := hmembers b hb
    exact ⟨c, hc, (SymbolSet.forall_mem_iff fun _ _ => SymbolSet.mem_congr).2 hall⟩
  obtain ⟨P', Q', hP', hQ', hcovers, htogether, hle, heq, hmonotone⟩ := refine_exact hP hQ
  exact ⟨hP, hQ, P', Q', hP', hQ', hcovers, htogether, hle, heq, hmonotone hfiner⟩

end Automata.Partition
