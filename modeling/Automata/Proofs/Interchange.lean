/-
Pruning and merging can be done in either order.

Whether two states are merged is a matter of the words accepted from
them. From a reachable state no word leads out of the reachable part, so
the same words are accepted from it in the whole as in the part, and the
partition of the whole, with all its further blocks and rounds, relates
reachable states as the partition of the part does
(`PrunedFrom.together_iff`).

The automaton that comes of merging first has no two states that accept
the same words, since it is the quotient by all that words do not tell
apart. What pruning leaves of it keeps that, and words lead to all its
states, so it is minimal (`PrunedFrom.minimal`). Minimal automata for one
language differ in the names of their states only; the two ways give
isomorphic automata because both give minimal ones.
-/
import Automata.Proofs.Canonical
import Automata.Proofs.Numbered
import Automata.Proofs.Partition.Greatest
import Automata.Proofs.Pruning
import Automata.Proofs.Rounds

namespace Automata.Automaton

open Automata.Partition

variable {A M Q : Automaton} {P R : Partition} {s t : Symbol}

namespace PrunedFrom

/-- Partitions of the whole and of its reached part that both relate the
states from which the same words are accepted relate reached states alike. -/
theorem together_iff (h : Q.PrunedFrom A)
    (hR : ∀ s ∈ Q.states, ∀ t ∈ Q.states, R.Together s t ↔ Q.SameFrom Q s t)
    (hP : ∀ s ∈ A.states, ∀ t ∈ A.states, P.Together s t ↔ A.SameFrom A s t)
    (hs : s ∈ A.reached) (ht : t ∈ A.reached) : R.Together s t ↔ P.Together s t := by
  rw [hR s (h.mem_states_iff.2 hs) t (h.mem_states_iff.2 ht), h.sameFrom_iff hs ht,
    hP s (mem_states_of_mem_reached hs) t (mem_states_of_mem_reached ht)]

/-- The reached part of an automaton is minimal if no two states of the
whole accept the same words. -/
theorem minimal (h : Q.PrunedFrom M)
    (hapart : ∀ s ∈ M.states, ∀ t ∈ M.states, M.SameFrom M s t → s ≈ t) : Q.Minimal where
  exists_after _ hs := h.exists_after hs
  alike_of_sameFrom := by
    intro s hs t ht hst
    have hs := h.mem_states_iff.1 hs
    have ht := h.mem_states_iff.1 ht
    refine hapart s (mem_states_of_mem_reached hs) t (mem_states_of_mem_reached ht) ?_
    exact (h.sameFrom_iff hs ht).1 hst

end PrunedFrom

/-- Merging first and pruning then gives a minimal automaton for the
language. -/
theorem exists_prune_rebuild (hP : P.Covers A) (hstable : P.Stable A)
    (htogether : ∀ s ∈ A.states, ∀ t ∈ A.states, P.Together s t ↔ A.SameFrom A s t) :
    ∃ M N, A.rebuild P = .ok M ∧ M.prune = .ok N ∧ N.Minimal ∧ N.alphabet = A.alphabet ∧
      ¬Symbol.null ∈ N.states ∧ A.SameLanguage N := by
  obtain ⟨M, hM, hquotient⟩ := exists_rebuild hP
  have hnull := (of_rebuild hP hM).2.null_not_mem
  obtain ⟨N, hN, hpruned⟩ := exists_prune hnull
  have hpure := hP.pure_of_sameFrom fun s hs t ht => (htogether s hs t ht).1
  have hmerged := hquotient.simulation hP hstable hpure
  refine ⟨M, N, hM, hN, ?_, ?_, hpruned.null_not_mem hnull, ?_⟩
  · exact hpruned.minimal fun s hs t ht => hquotient.alike_of_sameFrom hP hstable htogether hs ht
  · rw [hpruned.alphabet, hquotient.alphabet]
  · exact hmerged.sameLanguage.trans hmerged.alphabet hpruned.simulation.sameLanguage

/-- Reachable states lie in one block of the coarsest partition of the
reachable part exactly when they do in that of the whole, and the
reachable part of what the whole is merged into is the minimal automaton
up to the names of states. -/
theorem prune_rebuild_isomorphic (h : Symbol.Comparable A.states.toList)
    (hnull : ¬Symbol.null ∈ A.states) :
    ∃ S Q R P M N L, A.reachable = .ok S ∧ A.prune = .ok Q ∧ Q.coarsestPartition = .ok R ∧
      A.coarsestPartition = .ok P ∧ (∀ s ∈ S, ∀ t ∈ S, R.Together s t ↔ P.Together s t) ∧
      A.rebuild P = .ok M ∧ M.prune = .ok N ∧ A.minimize = .ok L ∧ N.isomorphic L = .ok true := by
  obtain ⟨Q, hQ, hpruned⟩ := exists_prune hnull
  have hcomparable : Symbol.Comparable Q.states.toList :=
    SymbolSet.comparable_of_subset h fun s hs =>
      mem_states_of_mem_reached (hpruned.mem_states_iff.1 hs)
  obtain ⟨R, hR, -, -, hpart⟩ := exists_coarsestPartition hcomparable
  obtain ⟨P, hP, hcovers, hstable, hwhole⟩ := exists_coarsestPartition h
  obtain ⟨M, N, hM, hN, hminimal, halphabet, hnullN, hlanguage⟩ :=
    exists_prune_rebuild hcovers hstable hwhole
  obtain ⟨m, hm, hspec⟩ := exists_minimize (minimizable_of_comparable h hnull)
  obtain ⟨b, hb, hiff⟩ := exists_isomorphic hnullN hspec.null_not_mem
  -- both are minimal automata for the language of the whole
  have hN' : A.alphabet ≈ N.alphabet := SymbolSet.alike_of_eq halphabet.symm
  have hm' := hspec.alphabet_alike
  have ha : N.alphabet ≈ m.minimized.alphabet := Setoid.trans (Setoid.symm hN') hm'
  have hsame : N.SameLanguage m.minimized :=
    (hlanguage.symm hN').trans (Setoid.symm hN') hspec.sameLanguage
  rw [hiff.2 ⟨ha, hminimal.exists_renames hspec.minimal ha hsame⟩] at hb
  refine ⟨A.reached, Q, R, P, M, N, m.minimized, reachable_eq_ok hnull, hQ, hR, hP, ?_, hM, hN,
    hm, hb⟩
  exact fun s hs t ht => hpruned.together_iff hpart hwhole hs ht

/-- Counts letters modulo four and accepts the even counts. No word leads
to the state -2, which makes a block of its own, the first one, and takes
a round to be found. -/
def modFourAhead : Automaton where
  toDescription := Presentation.description
    { states := [.int (-2), .int 0, .int 1, .int 2, .int 3]
      alphabet := [.str "a"]
      start := .int 0
      accepting := [.int 0, .int 2]
      delta :=
        [(.int (-2), [(.str "a", .int 1)]), (.int 0, [(.str "a", .int 1)]),
          (.int 1, [(.str "a", .int 2)]), (.int 2, [(.str "a", .int 3)]),
          (.int 3, [(.str "a", .int 0)])] }
  start_mem := by decide
  strays_isEmpty := by decide
  gaps_eq_nil := by decide

theorem prune_rebuild_isomorphic_modFourAhead :
    Symbol.Comparable modFourAhead.states.toList ∧ ¬Symbol.null ∈ modFourAhead.states ∧
      ∃ S Q R P M N L, modFourAhead.reachable = .ok S ∧ modFourAhead.prune = .ok Q ∧
        Q.coarsestPartition = .ok R ∧ modFourAhead.coarsestPartition = .ok P ∧
        (∀ s ∈ S, ∀ t ∈ S, R.Together s t ↔ P.Together s t) ∧
        modFourAhead.rebuild P = .ok M ∧ M.prune = .ok N ∧ modFourAhead.minimize = .ok L ∧
        N.isomorphic L = .ok true :=
  have h : Symbol.Comparable modFourAhead.states.toList := by decide
  have hnull : ¬Symbol.null ∈ modFourAhead.states := by decide
  ⟨h, hnull, prune_rebuild_isomorphic h hnull⟩

-- merged first, the reachable blocks are the second and the third, not the first and the second
example : (do (← modFourAhead.rebuild (← modFourAhead.coarsestPartition)).prune).map
    (fun N : Automaton => N.states.toList) = .ok [.int 1, .int 2] := by decide +kernel

end Automata.Automaton
