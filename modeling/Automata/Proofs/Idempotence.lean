/-
Minimizing again changes nothing: the minimal automaton is its own
minimal automaton, with the same states, and not only up to their names.

Words lead to every state of a minimal automaton, so it is not pruned.
No two of its states accept the same words, so each block of its last
partition holds a single state, and the least members of the blocks are
all the states in order of size. If the states are numbers, the i-th of
them is i (`Numbered.map_plain_representatives`): the block of a state
has the number of the state itself (`Numbered.number_ofNat`), and the
automaton on the blocks is the automaton that was given.
-/
import Automata.Proofs.Mapping

namespace Automata.Automaton

open Automata.Partition

variable {A M : Automaton} {P : Partition} {m r : Minimization}

-- ===================================================== single states

theorem Numbered.minimizable (h : M.Numbered) : M.Minimizable :=
  minimizable_of_comparable h.comparable_states h.null_not_mem

/-- Words lead to all states of a minimal automaton. -/
theorem Minimal.reached_alike (h : M.Minimal) : M.reached ≈ M.states := by
  refine SymbolSet.alike_iff.2 fun s => ⟨mem_states_of_mem_reached, fun hs => ?_⟩
  obtain ⟨w, hw, hws⟩ := h.exists_after s hs
  exact mem_reached_iff.2 ⟨_, reachable_iff.2 ⟨w, hw, rfl⟩, hws⟩

/-- If each block holds a single number, the representatives are the
numbers in order. -/
theorem Numbered.map_plain_representatives (h : M.Numbered) (hP : P.Covers M)
    (hsingle : ∀ s t, P.Together s t → s ≈ t) :
    P.representatives.map Symbol.plain = (List.range M.size).map .ofNat := by
  have hstates := M.states.increasing
  rw [← SymbolSet.toList, h.toList_states] at hstates
  -- both lists increase, so they are one if they have the same elements
  refine SymbolSet.eq_of_increasing P.pairwise_plain_representatives hstates fun x => ?_
  rw [← h.toList_states, h.mem_toList_states_iff, List.mem_map]
  constructor
  · intro hx
    obtain ⟨a, ha, rfl⟩ := hx
    obtain ⟨k, hk⟩ := List.mem_iff_getElem?.1 ha
    obtain ⟨i, hi, hai⟩ := h.mem_states_iff.1 (hP.of_getElem?_representatives hk).1
    exact ⟨i, hi, Symbol.alike_def.1 hai⟩
  · intro hx
    obtain ⟨i, hi, rfl⟩ := hx
    have hmem := h.ofNat_mem hi
    obtain ⟨a, ha, hmem', hnumber⟩ := hP.exists_representative (hP.number_lt hmem)
    refine ⟨a, List.mem_of_getElem? ha, Symbol.alike_def.1 (hsingle a (.ofNat i) ?_)⟩
    exact (hP.together_iff hmem' hmem).2 hnumber

/-- Then there are as many blocks as states, and the block of a number
has this number. -/
theorem Numbered.number_ofNat (h : M.Numbered) (hP : P.Covers M)
    (hsingle : ∀ s t, P.Together s t → s ≈ t) :
    P.size = M.size ∧ ∀ i < M.size, P.number (.ofNat i) = i := by
  have hlist := h.map_plain_representatives hP hsingle
  have hsize := congrArg List.length hlist
  rw [List.length_map, List.length_map, List.length_range, P.length_representatives] at hsize
  refine ⟨hsize, fun i hi => ?_⟩
  obtain ⟨a, ha, -, hnumber⟩ := hP.exists_representative (hsize ▸ hi)
  have hplain := congrArg (·[i]?) hlist
  simp only [List.getElem?_map, ha, List.getElem?_range hi, Option.map_some,
    Option.some.injEq] at hplain
  have halike : a ≈ .ofNat i := hplain
  rw [← number_congr halike, hnumber]

/-- Collapsing single states gives back the automaton. -/
theorem Numbered.eq_of_quotientOf (hM : M.Numbered) {N : Automaton} (hN : N.Numbered)
    (h : N.QuotientOf M P) (hP : P.Covers M) (hstable : P.Stable M) (hpure : P.Pure M)
    (hsingle : ∀ s t, P.Together s t → s ≈ t) : N = M := by
  obtain ⟨hsize, hnumber⟩ := hM.number_ofNat hP hsingle
  have hsize' : N.size = M.size := h.size.trans hsize
  refine hN.eq_of_same hM hsize' h.alphabet ?_ (fun i hi => ?_) fun i hi c hc => ?_
  · obtain ⟨i, hi, hstart⟩ := hM.exists_start
    rw [h.start, hstart, hnumber i hi]
  · rw [hsize'] at hi
    have haccepting := h.accepting_number hP hpure (hM.ofNat_mem hi)
    rwa [hnumber i hi] at haccepting
  · rw [hsize'] at hi
    rw [h.alphabet] at hc
    obtain ⟨j, hj, hnext⟩ := hM.exists_next i hi c hc
    have hquotient := h.next_number hP hstable (hM.ofNat_mem hi) hc
    rwa [hnumber i hi, hnext, hnumber j hj, ← hnext] at hquotient

-- ================================================== minimizing again

/-- A minimal automaton whose states are numbers is minimized to itself,
and each of its states is mapped to itself. -/
theorem Minimal.exists_minimization (hM : M.Minimal) (hN : M.Numbered) :
    ∃ r, M.minimization = .ok r ∧ r.pruned = M ∧ r.minimized = M ∧ r.mapping.keys ≈ M.states ∧
      ∀ s ∈ M.states.toList, r.mapping.get? s = some s := by
  obtain ⟨r, hr, hspec⟩ := Automaton.exists_minimization hN.minimizable
  have hpruned : r.pruned = M := by
    have hprune := (minimization_eq_ok_iff.1 hr).1
    rw [prune_eq_self hN.null_not_mem hM.reached_alike, Except.ok.injEq] at hprune
    exact hprune.symm
  have hcovers := hspec.covers
  have hsingle : ∀ s t, r.partition.Together s t → s ≈ t := by
    intro s t hst
    obtain ⟨hs, ht⟩ := hcovers.mem_of_together hst
    have hsame := (hspec.together_iff s hs t ht).1 hst
    rw [hpruned] at hs ht hsame
    exact hM.alike_of_sameFrom s hs t ht hsame
  have hquotient := hspec.minimized
  have hstable := hspec.stable
  have hpure := hspec.pure
  rw [hpruned] at hcovers hquotient hstable hpure
  refine ⟨r, hr, hpruned, ?_, Setoid.trans hspec.keys_mapping hM.reached_alike, fun s hs => ?_⟩
  · exact hN.eq_of_quotientOf (hspec.numbered hr) hquotient hcovers hstable hpure hsingle
  · obtain ⟨i, hi, rfl⟩ := hN.mem_toList_states_iff.1 hs
    have hmem := hN.ofNat_mem hi
    rw [← hpruned] at hmem
    rw [hspec.get?_mapping_eq_number hmem, (hN.number_ofNat hcovers hsingle).2 i hi]

/-- The minimal automaton is minimized to itself: no state is pruned or
removed, and each is mapped to itself. -/
theorem minimize_minimize (h : A.Minimizable) :
    ∃ M, A.minimize = .ok M ∧ M.minimize = .ok M ∧
      ∃ r, M.minimization = .ok r ∧ r.minimized = M ∧ r.removed = 0 ∧ r.pruned = M ∧
        r.mapping.keys ≈ M.states ∧ ∀ s ∈ M.states.toList, r.mapping.get? s = some s := by
  obtain ⟨m, hm, hspec⟩ := Automaton.exists_minimization h
  obtain ⟨r, hr, hpruned, hminimized, hkeys, hmapping⟩ :=
    hspec.minimal.exists_minimization (hspec.numbered hm)
  have hagain := minimize_eq_ok hr
  rw [hminimized] at hagain
  refine ⟨m.minimized, minimize_eq_ok hm, hagain, r, hr, hminimized, ?_, hpruned, hkeys, hmapping⟩
  unfold Minimization.removed
  rw [hpruned, hminimized]
  omega

theorem minimize_minimize_modFour :
    modFour.Minimizable ∧ ∃ M, modFour.minimize = .ok M ∧ M.minimize = .ok M ∧
      ∃ r, M.minimization = .ok r ∧ r.minimized = M ∧ r.removed = 0 ∧ r.pruned = M ∧
        r.mapping.keys ≈ M.states ∧ ∀ s ∈ M.states.toList, r.mapping.get? s = some s :=
  have h : modFour.Minimizable := by decide
  ⟨h, minimize_minimize h⟩

end Automata.Automaton
