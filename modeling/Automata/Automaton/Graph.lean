/-
The transition graph of an automaton: its states, and one edge for each
pair of states that some letter of the alphabet leads across, labelled
with all those letters.

What edges lead to from a node is found by a search that goes wide first.
A node is written as where it is first met: the one that the search starts
with as it was given, any other as the target of the edge that first led
to it.

Main statement: `mem_edges` says which edges there are.
-/
import Automata.Automaton.Basic
import Automata.Traversal

namespace Automata

/-- An edge of a transition graph, with the letters that lead across. -/
structure Edge where
  source : Symbol
  target : Symbol
  letters : SymbolSet
  deriving DecidableEq

/-- A transition graph: the nodes with whether they accept, and the edges. -/
structure Graph where
  nodes : List (Symbol × Bool)
  edges : List Edge
  deriving DecidableEq

namespace Graph

/-- The nodes that edges lead to from a node. -/
def heads (g : Graph) (s : Symbol) : List Symbol :=
  (g.edges.filter fun e => decide (e.source ≈ s)).map Edge.target

/-- A node, and the nodes that edges lead to from it one after another. -/
def reachedFrom (g : Graph) (s : Symbol) : SymbolSet :=
  .ofTree (visited Symbol.order .wide g.heads (1 + g.edges.length * (1 + g.edges.length)) [s])

end Graph

namespace Automaton

/-- The states that the letters of the alphabet lead to, letter by letter. -/
def successors (A : Automaton) (s : Symbol) : List Symbol :=
  A.letters.filterMap (A.move? s)

/-- The letters of the alphabet that lead from one state to another. -/
def between (A : Automaton) (s t : Symbol) : SymbolSet :=
  A.alphabet.filter fun c => (A.move? s c).any fun u => decide (u ≈ t)

/-- The edges that leave a state, by target. -/
def edgesFrom (A : Automaton) (s : Symbol) : List Edge :=
  (SymbolSet.ofList (A.successors s)).listing.map fun t => ⟨s, t, A.between s t⟩

/-- The edges, by source and then by target. -/
def edges (A : Automaton) : List Edge := A.states.listing.flatMap A.edgesFrom

/-- The states, with whether they accept, and the edges. -/
def diagram (A : Automaton) : Graph :=
  ⟨A.states.listing.map fun s => (s, decide (s ∈ A.accepting)), A.edges⟩

/-- The transition graph. Null cannot be a node. -/
def graph (A : Automaton) : Except Fault Graph :=
  if Symbol.null ∈ A.states then .error .nullNode else .ok A.diagram

theorem graph_eq_ok {A : Automaton} (h : ¬Symbol.null ∈ A.states) : A.graph = .ok A.diagram :=
  if_neg h

theorem graph_eq_error {A : Automaton} (h : Symbol.null ∈ A.states) :
    A.graph = .error .nullNode := if_pos h

theorem mem_successors {A : Automaton} {s t : Symbol} :
    t ∈ A.successors s ↔ ∃ c ∈ A.alphabet.toList, A.move? s c = some t := by
  rw [successors, List.mem_filterMap]
  simp

@[simp] theorem mem_between {A : Automaton} {s t c : Symbol} :
    c ∈ A.between s t ↔ c ∈ A.alphabet ∧ ∃ u, A.move? s c = some u ∧ u ≈ t := by
  rw [between, SymbolSet.mem_filter]
  · simp [Option.any_eq_true]
  · intro x y h
    rw [A.move?_congr (Symbol.alike_refl s) h]

/-- There is an edge from each state to each state that some letter leads
to, written as for one such letter, and it bears the letters that do. -/
theorem mem_edges {A : Automaton} {e : Edge} :
    e ∈ A.edges ↔
      e.source ∈ A.states.toList ∧
        e.target ∈ (SymbolSet.ofList (A.successors e.source)).toList ∧
        e.letters = A.between e.source e.target := by
  obtain ⟨s, t, ls⟩ := e
  simp only [edges, edgesFrom, List.mem_flatMap, List.mem_map, SymbolSet.mem_listing, Edge.mk.injEq]
  constructor
  · intro h
    obtain ⟨s', hs, t', ht, rfl, rfl, rfl⟩ := h
    exact ⟨hs, ht, rfl⟩
  · intro h
    obtain ⟨hs, ht, rfl⟩ := h
    exact ⟨s, hs, t, ht, rfl, rfl, rfl⟩

variable {A : Automaton} {s c u : Symbol} {e : Edge}

theorem source_mem_of_mem_edges (he : e ∈ A.edges) : e.source ∈ A.states :=
  SymbolSet.mem_of_mem_toList (mem_edges.1 he).1

theorem letters_of_mem_edges (he : e ∈ A.edges) : e.letters = A.between e.source e.target :=
  (mem_edges.1 he).2.2

/-- Some letter of the alphabet leads across an edge. -/
theorem exists_letter_of_mem_edges (he : e ∈ A.edges) :
    ∃ c ∈ A.alphabet.toList, ∃ u, A.move? e.source c = some u ∧ u ≈ e.target := by
  obtain ⟨u, hu, htu⟩ := SymbolSet.mem_ofList.1 (SymbolSet.mem_of_mem_toList (mem_edges.1 he).2.1)
  obtain ⟨c, hc, hmove⟩ := mem_successors.1 hu
  exact ⟨c, hc, u, hmove, Setoid.symm htu⟩

theorem target_mem_of_mem_edges (he : e ∈ A.edges) : e.target ∈ A.states := by
  obtain ⟨c, hc, u, hmove, hut⟩ := exists_letter_of_mem_edges he
  refine (SymbolSet.mem_congr hut).1 ?_
  exact A.mem_states_of_move? (source_mem_of_mem_edges he) (SymbolSet.mem_of_mem_toList hc) hmove

/-- Where a letter of the alphabet leads from a state, there is an edge. -/
theorem exists_edge_of_move? (hs : s ∈ A.states) (hc : c ∈ A.alphabet)
    (hmove : A.move? s c = some u) : ∃ e ∈ A.edges, e.source ≈ s ∧ e.target ≈ u := by
  obtain ⟨x, hx, hsx⟩ := hs
  obtain ⟨d, hd, hcd⟩ := hc
  rw [A.move?_congr hsx hcd] at hmove
  obtain ⟨v, hv, huv⟩ := SymbolSet.mem_ofList.2 ⟨u, mem_successors.2 ⟨d, hd, hmove⟩, Setoid.refl u⟩
  exact ⟨⟨x, v, A.between x v⟩, mem_edges.2 ⟨hx, hv, rfl⟩, Setoid.symm hsx, Setoid.symm huv⟩

end Automaton

end Automata
