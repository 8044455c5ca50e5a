/-
When minimization gives a result: exactly when the states that words lead
to can be compared by size, and the only fault is that they cannot.

Blocks are put in the order of their least members, so a partition of
symbols that cannot all be compared is refused before anything else is
looked at (`ofBlocks_eq_error`). The two blocks of the initial partition
hold all states of the reachable part between them. If those cannot be
compared there is no initial partition, and minimization ends with that
fault; if they can, every stage has a result, as was shown for each of
them. No look-up fails in between, no blocks overlap, and the data of
the reachable part and of the minimal automaton fit together
(`minimization_outcome`).

The states of an automaton that was read are numbers. They can be
compared, so such an automaton can always be minimized.
-/
import Automata.Proofs.Listing.Reading
import Automata.Proofs.Minimality

namespace Automata

variable {A : Automaton} {l : Listing}

/-- Blocks that hold symbols which cannot be compared make no partition. -/
theorem Partition.ofBlocks_eq_error {bs : List SymbolSet} {S : SymbolSet}
    (hS : ¬Symbol.Comparable S.toList) (hcover : ∀ s ∈ S, ∃ b ∈ bs, s ∈ b) :
    ofBlocks bs = .error .incomparable := by
  refine ofBlocks_eq_incomparable fun hall => hS ?_
  have hmember : ∀ s ∈ S, ∃ x ∈ membersOf bs, s ≈ x := by
    intro s hs
    obtain ⟨b, hb, x, hx, hsx⟩ := hcover s hs
    exact ⟨x, List.mem_flatMap.2 ⟨b, hb, hx⟩, hsx⟩
  refine SymbolSet.comparable_toList_iff.2 fun s hs t ht hst => ?_
  obtain ⟨x, hx, hsx⟩ := hmember s hs
  obtain ⟨y, hy, hty⟩ := hmember t ht
  have hne : x ≠ y := by
    intro hxy
    subst hxy
    exact hst (Setoid.trans hsx (Setoid.symm hty))
  rw [Symbol.comparable_congr hsx hty]
  exact hall.comparable_of_ne hx hy hne

namespace Automaton

/-- Where the states cannot be compared there is no initial partition. -/
theorem initialPartition_eq_error (h : ¬Symbol.Comparable A.states.toList) :
    A.initialPartition = .error .incomparable := by
  unfold initialPartition
  refine Partition.ofBlocks_eq_error h fun s hs => ?_
  by_cases hacc : s ∈ A.accepting
  · exact ⟨_, List.mem_cons_self, hacc⟩
  · exact ⟨_, List.mem_cons_of_mem _ List.mem_cons_self, SymbolSet.mem_sdiff.2 ⟨hs, hacc⟩⟩

/-- Any two states that words lead to can be compared by size. -/
def ReachComparable (A : Automaton) : Prop :=
  ∀ s t, A.Reachable s → A.Reachable t → s.comparable t = true

theorem minimization_eq_error (hnull : ¬Symbol.null ∈ A.states) (h : ¬A.ReachComparable) :
    A.minimization = .error .incomparable := by
  obtain ⟨Q, hQ, hpruned⟩ := exists_prune hnull
  have hcomparable : ¬Symbol.Comparable Q.states.toList := by
    rw [SymbolSet.comparable_congr hpruned.states]
    exact fun hreached => h (minimizable_iff.2 ⟨hnull, hreached⟩).comparable
  have hrefinements : Q.refinements = .error .incomparable := by
    unfold refinements
    rw [initialPartition_eq_error hcomparable]
    rfl
  unfold minimization
  rw [hQ]
  show Q.refinements >>= _ = _
  rw [hrefinements]
  rfl

/-- The states of a listing are numbers, so they can be compared. -/
theorem ListedBy.minimizable (h : A.ListedBy l) : A.Minimizable := by
  refine minimizable_of_comparable (SymbolSet.comparable_toList_iff.2 fun s hs t ht _ => ?_) ?_
  · obtain ⟨i, -, hsi⟩ := (h.mem_states_iff s).1 hs
    obtain ⟨j, -, htj⟩ := (h.mem_states_iff t).1 ht
    rw [Symbol.comparable_congr hsi htj]
    rfl
  · intro hnull
    obtain ⟨i, -, hi⟩ := (h.mem_states_iff _).1 hnull
    cases hi

/-- An automaton without a null state is minimized exactly when the states
that words lead to can be compared, and there is no fault but that they
cannot. An automaton that was read is always minimized. -/
theorem minimization_outcome (A : Automaton) :
    (¬Symbol.null ∈ A.states →
      ((∃ m, A.minimization = .ok m) ↔ A.ReachComparable) ∧
        ∀ f, A.minimization = .error f ↔ f = .incomparable ∧ ¬A.ReachComparable) ∧
    ∀ room text, Listing.read room text = .ok A → ∃ m, A.minimization = .ok m := by
  have hsome : A.Minimizable → ∃ m, A.minimization = .ok m := fun h =>
    (exists_minimization h).imp fun _ => And.left
  refine ⟨fun hnull => ?_, fun room text hread => ?_⟩
  · by_cases h : A.ReachComparable
    · obtain ⟨m, hm⟩ := hsome ⟨hnull, h⟩
      refine ⟨iff_of_true ⟨m, hm⟩ h, fun f => ?_⟩
      rw [hm]
      exact iff_of_false (fun hf => nomatch hf) fun hf => hf.2 h
    · have hnone : ¬∃ m, A.minimization = .ok m := by
        intro hm
        obtain ⟨m, hm⟩ := hm
        rw [minimization_eq_error hnull h] at hm
        cases hm
      refine ⟨iff_of_false hnone h, fun f => ?_⟩
      rw [minimization_eq_error hnull h, Except.error.injEq, eq_comm]
      exact (and_iff_left h).symm
  · obtain ⟨l, -, -, -, -, hlisted⟩ := Listing.of_readLines_eq_ok hread
    exact hsome hlisted.minimizable

/-- A letter leads from a number to a text, and leaves it there. -/
def numberAndText : Automaton where
  toDescription := Presentation.description
    { states := [.int 0, .str "end"]
      alphabet := [.str "a"]
      start := .int 0
      accepting := [.str "end"]
      delta := [(.int 0, [(.str "a", .str "end")]), (.str "end", [(.str "a", .str "end")])] }
  start_mem := by decide
  strays_isEmpty := by decide
  gaps_eq_nil := by decide

theorem minimization_outcome_numberAndText :
    (¬Symbol.null ∈ numberAndText.states ∧
      ((∃ m, numberAndText.minimization = .ok m) ↔ numberAndText.ReachComparable) ∧
      ∀ f, numberAndText.minimization = .error f ↔
        f = .incomparable ∧ ¬numberAndText.ReachComparable) ∧
    ∃ A, Listing.read 1 "1\na\n0\n0\n0 a 0\n" = .ok A ∧ ∃ m, A.minimization = .ok m := by
  have hnull : ¬Symbol.null ∈ numberAndText.states := by decide
  refine ⟨⟨hnull, (minimization_outcome numberAndText).1 hnull⟩, ?_⟩
  obtain ⟨A, hA⟩ : ∃ A, Listing.read 1 "1\na\n0\n0\n0 a 0\n" = .ok A :=
    exists_of_isOk (by decide +kernel)
  exact ⟨A, hA, (minimization_outcome A).2 _ _ hA⟩

example : numberAndText.minimization = .error .incomparable := by decide +kernel

end Automaton

end Automata
