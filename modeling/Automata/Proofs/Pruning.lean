/-
What the search for reachable states finds, and what pruning leaves.

# Three descriptions of one set

The reached states are the start with what edges of the transition graph
lead to from it, and were shown to be the ends of words. Said without
edges and words, they are the least set that holds the start and is closed
under the letters of the alphabet (`isLeast_reached`): the ends of words
lie in every closed set, by induction on the word.

# Pruning

A pruned automaton is the part on the reached states, and to all of
these words lead in it too. So pruning it again finds nothing to remove
(`PrunedFrom.prune_eq_self`), and pruning leaves an automaton as it is
exactly when words lead to all its states (`prune_eq_self_iff`).
-/
import Mathlib.Order.Bounds.Defs
import Automata.Proofs.Partition.Course
import Automata.Proofs.Reachability

namespace Automata.Automaton

variable {A Q : Automaton} {s : Symbol} {w : List Symbol}

-- ======================================================== closed sets

/-- The set holds the start, with each symbol all that letters of the
alphabet lead to from it, and of alike symbols all or none. -/
structure Closed (A : Automaton) (S : Set Symbol) : Prop where
  congr : ∀ s t, s ≈ t → (s ∈ S ↔ t ∈ S)
  start : A.start ∈ S
  transition : ∀ s ∈ S, ∀ c ∈ A.alphabet, ∀ t, A.transition s c = .ok t → t ∈ S

/-- Words do not lead out of a closed set. -/
theorem Closed.after_mem {S : Set Symbol} (h : A.Closed S) (hs : s ∈ S) (hmem : s ∈ A.states)
    (hw : A.Over w) : A.after s w ∈ S := by
  induction w generalizing s with
  | nil => exact hs
  | cons c w ih =>
      obtain ⟨hc, hw⟩ := over_cons.1 hw
      have hnext := h.transition s hs c hc _ (transition_eq_ok hmem hc)
      exact ih hnext (next_mem hmem hc) hw

theorem closed_reached : A.Closed {s | s ∈ A.reached} where
  congr _ _ hst := SymbolSet.mem_congr hst
  start := reached_closed.1
  transition := by
    intro s hs c hc t ht
    rw [← next_eq_of_move? (transition_eq_ok_iff.1 ht)]
    exact reached_closed.2 hs hc

/-- The reached states are the least closed set. -/
theorem isLeast_reached : IsLeast {S | A.Closed S} {s | s ∈ A.reached} := by
  refine ⟨closed_reached, fun S hS s hs => ?_⟩
  obtain ⟨w, hw, hws⟩ := mem_reached_iff_after.1 hs
  exact (hS.congr _ _ hws).1 (hS.after_mem hS.start A.start_mem hw)

-- ============================================================ pruning

theorem reached_alike_iff : A.reached ≈ A.states ↔ ∀ s ∈ A.states, s ∈ A.reached := by
  rw [SymbolSet.alike_iff]
  exact ⟨fun h s => (h s).2, fun h s => ⟨mem_states_of_mem_reached, h s⟩⟩

namespace PrunedFrom

/-- Words lead to all states of the reached part. -/
theorem mem_reached (h : Q.PrunedFrom A) (hs : s ∈ Q.states) : s ∈ Q.reached :=
  mem_reached_iff_after.2 (h.exists_after hs)

theorem null_not_mem (h : Q.PrunedFrom A) (hnull : ¬Symbol.null ∈ A.states) :
    ¬Symbol.null ∈ Q.states := fun hmem =>
  hnull (mem_states_of_mem_reached (h.mem_states_iff.1 hmem))

/-- Pruning the reached part removes nothing. -/
theorem prune_eq_self (h : Q.PrunedFrom A) (hnull : ¬Symbol.null ∈ A.states) :
    Q.prune = .ok Q :=
  Automaton.prune_eq_self (h.null_not_mem hnull) (reached_alike_iff.2 fun _ => h.mem_reached)

/-- Words lead to a state of the reached part as in the whole. -/
theorem run_eq (h : Q.PrunedFrom A) (hw : A.Over w) :
    A.run w = .ok (A.after A.start w) ∧ Q.run w = .ok (A.after A.start w) := by
  obtain ⟨-, hsame⟩ := h.simulation.after h.simulation.start hw
  refine ⟨run_eq_ok hw, ?_⟩
  rw [run_eq_ok ((over_congr h.simulation.alphabet).1 hw), hsame]

end PrunedFrom

/-- Pruning leaves an automaton as it is exactly when words lead to all
its states. -/
theorem prune_eq_self_iff (hQ : A.prune = .ok Q) (h : Q.PrunedFrom A)
    (hnull : ¬Symbol.null ∈ A.states) : Q = A ↔ ∀ s ∈ A.states, s ∈ A.reached := by
  constructor
  · intro hself s hs
    rw [hself] at h
    exact h.mem_states_iff.1 hs
  · intro hall
    have hself := prune_eq_self hnull (reached_alike_iff.2 hall)
    rw [hQ, Except.ok.injEq] at hself
    exact hself

/-- The reachable states are the ends of words, the least set closed under
the letters, and the start with what edges of the transition graph lead to
from it. Pruning gives an automaton on these states, in which words lead
to the same states and are accepted as before. Pruning it again changes
nothing, and pruning changes nothing at all exactly when every state is
reachable. -/
theorem reachable_prune_exact (h : ¬Symbol.null ∈ A.states) :
    ∃ R Q g, A.reachable = .ok R ∧ A.prune = .ok Q ∧ A.graph = .ok g ∧
      (∀ s, s ∈ R ↔ ∃ w t, A.Over w ∧ A.run w = .ok t ∧ t ≈ s) ∧
      IsLeast {S | A.Closed S} {s | s ∈ R} ∧
      (∀ s, s ∈ R ↔ s ≈ A.start ∨ Relation.TransGen g.Leads A.start s) ∧
      Q.states ≈ R ∧ Q.alphabet = A.alphabet ∧
      (∀ w, A.Over w → ∃ s b, A.run w = .ok s ∧ Q.run w = .ok s ∧
        A.accepts w = .ok b ∧ Q.accepts w = .ok b) ∧
      Q.prune = .ok Q ∧ (Q = A ↔ ∀ s ∈ A.states, s ∈ R) := by
  obtain ⟨Q, hQ, hpruned⟩ := exists_prune h
  refine ⟨A.reached, Q, A.diagram, reachable_eq_ok h, hQ, graph_eq_ok h, fun s => ?_,
    isLeast_reached, fun s => mem_reached_iff_leads, hpruned.states, hpruned.alphabet, fun w hw => ?_,
    hpruned.prune_eq_self h, prune_eq_self_iff hQ hpruned h⟩
  · rw [mem_reached_iff_after]
    refine exists_congr fun w => ?_
    constructor
    · intro hw
      exact ⟨_, hw.1, run_eq_ok hw.1, hw.2⟩
    · intro hrun
      obtain ⟨t, hw, ht, hts⟩ := hrun
      rw [run_eq_ok hw, Except.ok.injEq] at ht
      exact ⟨hw, ht ▸ hts⟩
  · obtain ⟨hA, hQ⟩ := hpruned.run_eq hw
    have haccepts := hpruned.simulation.sameLanguage w hw
    exact ⟨_, _, hA, hQ, accepts_eq_ok hw, haccepts ▸ accepts_eq_ok hw⟩

theorem reachable_prune_exact_modFour :
    ¬Symbol.null ∈ modFour.states ∧ ∃ R Q g,
      modFour.reachable = .ok R ∧ modFour.prune = .ok Q ∧ modFour.graph = .ok g ∧
      (∀ s, s ∈ R ↔ ∃ w t, modFour.Over w ∧ modFour.run w = .ok t ∧ t ≈ s) ∧
      IsLeast {S | modFour.Closed S} {s | s ∈ R} ∧
      (∀ s, s ∈ R ↔ s ≈ modFour.start ∨ Relation.TransGen g.Leads modFour.start s) ∧
      Q.states ≈ R ∧ Q.alphabet = modFour.alphabet ∧
      (∀ w, modFour.Over w → ∃ s b, modFour.run w = .ok s ∧ Q.run w = .ok s ∧
        modFour.accepts w = .ok b ∧ Q.accepts w = .ok b) ∧
      Q.prune = .ok Q ∧ (Q = modFour ↔ ∀ s ∈ modFour.states, s ∈ R) :=
  have h : ¬Symbol.null ∈ modFour.states := by decide
  ⟨h, reachable_prune_exact h⟩

-- the state 7 and its row are removed, the letter that is not of the alphabet is kept
example : modFour.prune.map (fun Q => (Q.states.toList, Q.move? (.int 1) (.str "b"))) =
    .ok ([.int 0, .int 1, .int 2, .int 3], some .null) := by decide +kernel

end Automata.Automaton
