/-
Automata whose states are the numbers below their size: how they are
written down, and when two of them are one.

Collapsing the blocks of a partition gives an automaton of this kind,
written down in one way: the states in order, and for each state a row
of the letters of the alphabet and nothing else. Such an automaton is
what its own `listing` gives (`Numbered`), so it is determined by what
can be asked of it: how many states it has, its alphabet, where it
starts, which numbers accept, and where letters lead from them
(`Numbered.eq_of_same`). Automata that agree in this are equal in all
their data, and not only isomorphic.
-/
import Automata.Proofs.Quotient

namespace Automata.Automaton

variable {A M N : Automaton} {P : Partition}

-- ============================================================ listings

/-- What an automaton is made from when its states are the numbers below
its size and its table holds nothing but the letters of the alphabet. -/
def listing (M : Automaton) : Presentation where
  states := (List.range M.size).map .ofNat
  alphabet := M.letters
  start := M.start
  accepting := (List.range M.size).filterMap fun i =>
    if .ofNat i ∈ M.accepting then some (.ofNat i) else none
  delta := (List.range M.size).map fun i =>
    (.ofNat i, M.letters.map fun c => (c, M.next (.ofNat i) c))

/-- The states are the numbers below the size, and the automaton is what
its listing gives. -/
structure Numbered (M : Automaton) : Prop where
  description_eq : M.toDescription = M.listing.description
  exists_start : ∃ i < M.size, M.start = .ofNat i
  exists_next : ∀ i < M.size, ∀ c ∈ M.alphabet, ∃ j < M.size, M.next (.ofNat i) c = .ofNat j

namespace Numbered

theorem toList_states (h : M.Numbered) : M.states.toList = (List.range M.size).map .ofNat := by
  have hincreasing : ((List.range M.size).map Symbol.ofNat).Pairwise (· < ·) := by
    refine List.pairwise_map.2 (List.pairwise_lt_range.imp ?_)
    exact Symbol.ofNat_lt_ofNat_iff.2
  have hstates : M.states = .ofList ((List.range M.size).map .ofNat) :=
    congrArg Description.states h.description_eq
  rw [← SymbolSet.toList_ofList hincreasing, ← hstates]

theorem mem_toList_states_iff (h : M.Numbered) {t : Symbol} :
    t ∈ M.states.toList ↔ ∃ i < M.size, t = .ofNat i := by
  rw [h.toList_states, List.mem_map]
  simp only [List.mem_range, eq_comm]

theorem mem_states_iff (h : M.Numbered) {t : Symbol} :
    t ∈ M.states ↔ ∃ i < M.size, t ≈ .ofNat i := by
  rw [SymbolSet.mem_def]
  simp only [h.mem_toList_states_iff]
  constructor
  · intro ht
    obtain ⟨_, ⟨i, hi, rfl⟩, hti⟩ := ht
    exact ⟨i, hi, hti⟩
  · intro ht
    obtain ⟨i, hi, hti⟩ := ht
    exact ⟨_, ⟨i, hi, rfl⟩, hti⟩

theorem ofNat_mem (h : M.Numbered) {i : Nat} (hi : i < M.size) : .ofNat i ∈ M.states :=
  h.mem_states_iff.2 ⟨i, hi, Setoid.refl _⟩

/-- No number is null. -/
theorem null_not_mem (h : M.Numbered) : ¬Symbol.null ∈ M.states := by
  intro hnull
  obtain ⟨i, -, hi⟩ := h.mem_states_iff.1 hnull
  cases hi

/-- Numbers can be compared by size. -/
theorem comparable_states (h : M.Numbered) : Symbol.Comparable M.states.toList := by
  rw [h.toList_states]
  exact List.pairwise_map.2 (List.pairwise_lt_range.imp fun _ => rfl)

/-- Numbered automata of which the same can be said are equal. -/
theorem eq_of_same (hM : M.Numbered) (hN : N.Numbered) (hsize : M.size = N.size)
    (halphabet : M.alphabet = N.alphabet) (hstart : M.start = N.start)
    (haccepting : ∀ i < M.size, (.ofNat i ∈ M.accepting ↔ .ofNat i ∈ N.accepting))
    (hnext : ∀ i < M.size, ∀ c ∈ M.alphabet, M.next (.ofNat i) c = N.next (.ofNat i) c) :
    M = N := by
  have hletters : M.letters = N.letters := by
    unfold letters
    rw [halphabet]
  have hlisting : M.listing = N.listing := by
    refine Presentation.ext ?_ hletters hstart ?_ ?_
    · exact congrArg (fun n => (List.range n).map Symbol.ofNat) hsize
    · unfold listing
      rw [← hsize]
      refine List.filterMap_congr fun i hi => ?_
      simp only [haccepting i (List.mem_range.1 hi)]
    · unfold listing
      rw [← hsize, ← hletters]
      refine List.map_congr_left fun i hi => ?_
      refine congrArg (Prod.mk _) (List.map_congr_left fun c hc => ?_)
      have hmem := over_letters c hc
      rw [hnext i (List.mem_range.1 hi) c hmem]
  refine eq_of_toDescription_eq ?_
  rw [hM.description_eq, hN.description_eq, hlisting]

end Numbered

-- ========================================================== quotients

/-- The automaton on the blocks of a partition lists what it was made from. -/
theorem QuotientOf.listing_eq (h : M.QuotientOf A P) : M.listing = A.quotient P := by
  have hletters : M.letters = A.letters := by
    unfold letters
    rw [h.alphabet]
  have hplaces : P.representatives.zipIdx.map Prod.snd = List.range M.size := by
    rw [List.zipIdx_map_snd, P.length_representatives, h.size, List.range_eq_range']
  refine Presentation.ext ?_ hletters h.start ?_ ?_
  · exact congrArg (fun n => (List.range n).map Symbol.ofNat) h.size
  · show (List.range M.size).filterMap _ = _
    rw [← hplaces, List.filterMap_map]
    refine List.filterMap_congr fun e he => ?_
    have hacc := h.accepting (List.mem_zipIdx_iff_getElem?.1 he)
    simp only [Function.comp_apply, hacc]
  · show (List.range M.size).map _ = List.map _ (List.zipIdx _)
    rw [← hplaces, List.zipIdx_map, List.map_map, List.map_map]
    refine List.map_congr_left fun e he => ?_
    refine congrArg (Prod.mk _) ?_
    show _ = A.numberedRow P e.1
    unfold numberedRow
    rw [hletters]
    refine List.map_congr_left fun c hc => ?_
    have hmem := over_letters c hc
    rw [h.next (List.mem_zipIdx_iff_getElem?.1 he) hmem]

/-- What a partition of the states is collapsed into is numbered. -/
theorem of_rebuild (hP : P.Covers A) (hM : A.rebuild P = .ok M) :
    M.QuotientOf A P ∧ M.Numbered := by
  obtain ⟨N, hN, hquotient⟩ := exists_rebuild hP
  rw [hM, Except.ok.injEq] at hN
  subst hN
  rw [rebuild_eq_build hP] at hM
  refine ⟨hquotient, ?_, ?_, fun i hi c hc => ?_⟩
  · rw [hquotient.listing_eq]
    exact Description.build_eq_ok_iff.1 hM
  · refine ⟨_, ?_, hquotient.start⟩
    rw [hquotient.size]
    exact hP.number_lt A.start_mem
  · rw [hquotient.size] at hi ⊢
    rw [hquotient.alphabet] at hc
    obtain ⟨r, hr, hmem, -⟩ := hP.exists_representative hi
    exact ⟨_, hP.number_lt (next_mem hmem hc), hquotient.next hr hc⟩

end Automata.Automaton
