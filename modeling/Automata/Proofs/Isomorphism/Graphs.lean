/-
Isomorphism of automata is isomorphism of their marked transition graphs.

A transition graph merges all letters that lead from one state to another
into one edge. What a match of two such graphs has to keep is which nodes
accept, which one is the start, and the letters of each edge; where each
letter leads is not compared (`MarkedGraph.Matches`). Over one alphabet
this comes to the same as a renaming of states that keeps where letters
lead (`matches_iff`): an edge bears a letter just when the letter leads
across (`hasEdge_iff`), so a match of edges takes the target of a letter
to its target. Nothing here walks from the start, so it makes no
difference whether words lead to a state, whether an edge leads back to
its source, and whether there is an edge at all.

So it does not matter by which search graphs are matched
(`isomorphicBy_eq`), and whatever the search, two automata are isomorphic
just when there is an `Isomorphism` of them; they then accept the same
words (`exists_isomorphic_iff`).
-/
import Automata.Proofs.Isomorphism.States

namespace Automata

-- ======================================================= marked graphs

namespace MarkedGraph

/-- The symbol is a node with these marks. -/
def HasNode (G : MarkedGraph) (s : Symbol) (accepting start : Bool) : Prop :=
  ∃ n ∈ G.nodes, n.name ≈ s ∧ n.accepting = accepting ∧ n.start = start

/-- An edge with these letters leads from the one symbol to the other. -/
def HasEdge (G : MarkedGraph) (s t : Symbol) (letters : SymbolSet) : Prop :=
  ∃ e ∈ G.edges, e.source ≈ s ∧ e.target ≈ t ∧ e.letters ≈ letters

/-- The symbol is a node. -/
def IsNode (G : MarkedGraph) (s : Symbol) : Prop := ∃ accepting start, G.HasNode s accepting start

/-- The function takes the nodes of the one graph to those of the other,
one to one and onto, and keeps marks and edges. -/
structure Matches (G H : MarkedGraph) (f : Symbol → Symbol) : Prop where
  hasNode : ∀ {s accepting start}, G.HasNode s accepting start → H.HasNode (f s) accepting start
  alike_iff : ∀ {s t}, G.IsNode s → G.IsNode t → (f s ≈ f t ↔ s ≈ t)
  exists_alike : ∀ {t}, H.IsNode t → ∃ s, G.IsNode s ∧ f s ≈ t
  hasEdge_iff : ∀ {s t}, G.IsNode s → G.IsNode t → ∀ letters,
    G.HasEdge s t letters ↔ H.HasEdge (f s) (f t) letters

end MarkedGraph

namespace Automaton

variable {A B : Automaton} {f : Symbol → Symbol} {s s' t t' c : Symbol} {letters : SymbolSet}
  {accepting start : Bool}

theorem hasNode_iff : A.markedGraph.HasNode s accepting start ↔
    s ∈ A.states ∧ accepting = decide (s ∈ A.accepting) ∧ start = decide (s ≈ A.start) := by
  unfold MarkedGraph.HasNode
  rw [nodes_markedGraph]
  have hmarks : ∀ {x}, x ≈ s → decide (x ∈ A.accepting) = decide (s ∈ A.accepting) ∧
      decide (x ≈ A.start) = decide (s ≈ A.start) := by
    intro x hx
    refine ⟨decide_eq_decide.2 (SymbolSet.mem_congr hx), decide_eq_decide.2 ?_⟩
    exact ⟨Setoid.trans (Setoid.symm hx), Setoid.trans hx⟩
  constructor
  · intro h
    obtain ⟨_, hn, hs, rfl, rfl⟩ := h
    obtain ⟨x, hx, rfl⟩ := List.mem_map.1 hn
    exact ⟨⟨x, SymbolSet.mem_listing.1 hx, Setoid.symm hs⟩, hmarks hs⟩
  · intro h
    obtain ⟨⟨x, hx, hsx⟩, rfl, rfl⟩ := h
    have hs := Setoid.symm hsx
    exact ⟨_, List.mem_map_of_mem (SymbolSet.mem_listing.2 hx), hs, hmarks hs⟩

theorem isNode_iff : A.markedGraph.IsNode s ↔ s ∈ A.states := by
  constructor
  · intro h
    obtain ⟨_, _, h⟩ := h
    exact (hasNode_iff.1 h).1
  · intro h
    exact ⟨_, _, hasNode_iff.2 ⟨h, rfl, rfl⟩⟩

theorem between_alike (hs : s ≈ s') (ht : t ≈ t') : A.between s t ≈ A.between s' t' := by
  refine SymbolSet.alike_iff.2 fun c => ?_
  rw [mem_between, mem_between, A.move?_congr hs (Setoid.refl c)]
  refine and_congr_right fun _ => exists_congr fun u => and_congr_right fun _ => ?_
  exact ⟨fun h => Setoid.trans h ht, fun h => Setoid.trans h (Setoid.symm ht)⟩

/-- There is an edge where some letter leads across, and it bears the
letters that do. -/
theorem hasEdge_iff (hs : s ∈ A.states) : A.markedGraph.HasEdge s t letters ↔
    (∃ c, c ∈ A.between s t) ∧ A.between s t ≈ letters := by
  constructor
  · intro h
    obtain ⟨e, he, hsource, htarget, hletters⟩ := h
    have halike := between_alike (A := A) hsource htarget
    rw [letters_of_mem_edges he] at hletters
    refine ⟨?_, Setoid.trans (Setoid.symm halike) hletters⟩
    obtain ⟨c, hc, u, hmove, hut⟩ := exists_letter_of_mem_edges he
    refine ⟨c, (SymbolSet.alike_iff.1 halike c).1 ?_⟩
    exact mem_between.2 ⟨SymbolSet.mem_of_mem_toList hc, u, hmove, hut⟩
  · intro h
    obtain ⟨⟨c, hc⟩, hletters⟩ := h
    obtain ⟨hc, u, hmove, hut⟩ := mem_between.1 hc
    obtain ⟨e, he, hsource, htarget⟩ := exists_edge_of_move? hs hc hmove
    have htarget := Setoid.trans htarget hut
    refine ⟨e, he, hsource, htarget, ?_⟩
    rw [letters_of_mem_edges he]
    exact Setoid.trans (between_alike hsource htarget) hletters

-- ======================================================== isomorphisms

/-- The function takes the states of the one automaton to those of the
other, one to one and onto, and keeps the start, acceptance and where
letters of the alphabet lead. -/
structure Isomorphism (A B : Automaton) (f : Symbol → Symbol) : Prop where
  mem : ∀ {s}, s ∈ A.states → f s ∈ B.states
  alike_iff : ∀ {s t}, s ∈ A.states → t ∈ A.states → (f s ≈ f t ↔ s ≈ t)
  exists_alike : ∀ {t}, t ∈ B.states → ∃ s ∈ A.states, f s ≈ t
  start : f A.start ≈ B.start
  accepting : ∀ {s}, s ∈ A.states → (s ∈ A.accepting ↔ f s ∈ B.accepting)
  transition : ∀ {s c}, s ∈ A.states → c ∈ A.alphabet →
    ∃ t u, A.transition s c = .ok t ∧ B.transition (f s) c = .ok u ∧ f t ≈ u

/-- Over one alphabet an isomorphism is a renaming of states. -/
theorem isomorphism_iff (ha : A.alphabet ≈ B.alphabet) : A.Isomorphism B f ↔ A.Renames B f := by
  constructor
  · intro h
    refine ⟨h.mem, h.alike_iff, h.exists_alike, h.start, fun hs => (h.accepting hs).symm, ?_⟩
    intro s c hs hc
    obtain ⟨t, u, ht, hu, htu⟩ := h.transition hs hc
    rwa [next_eq_of_move? (transition_eq_ok_iff.1 ht), next_eq_of_move? (transition_eq_ok_iff.1 hu)]
  · intro h
    refine ⟨h.mem, h.alike_iff, h.exists_alike, h.start, fun hs => (h.accepting hs).symm, ?_⟩
    intro s c hs hc
    have hcB := (SymbolSet.alike_iff.1 ha c).1 hc
    exact ⟨_, _, transition_eq_ok hs hc, transition_eq_ok (h.mem hs) hcB, h.next hs hc⟩

/-- A renaming keeps the letters that lead across. -/
theorem Renames.between_alike (h : A.Renames B f) (ha : A.alphabet ≈ B.alphabet)
    (hs : s ∈ A.states) (ht : t ∈ A.states) : A.between s t ≈ B.between (f s) (f t) := by
  refine SymbolSet.alike_iff.2 fun c => ?_
  rw [mem_between_iff hs, mem_between_iff (h.mem hs), ← SymbolSet.alike_iff.1 ha c]
  refine and_congr_right fun hc => ?_
  rw [← h.alike_iff (next_mem hs hc) ht]
  have hnext := h.next hs hc
  exact ⟨Setoid.trans (Setoid.symm hnext), Setoid.trans hnext⟩

/-- A match of the marked graphs is a renaming of states. -/
theorem matches_iff (ha : A.alphabet ≈ B.alphabet) :
    A.markedGraph.Matches B.markedGraph f ↔ A.Renames B f := by
  constructor
  · intro h
    have hnode : ∀ {s}, s ∈ A.states → f s ∈ B.states ∧
        decide (s ∈ A.accepting) = decide (f s ∈ B.accepting) ∧
        decide (s ≈ A.start) = decide (f s ≈ B.start) := fun hs =>
      hasNode_iff.1 (h.hasNode (hasNode_iff.2 ⟨hs, rfl, rfl⟩))
    refine ⟨fun hs => (hnode hs).1, ?_, ?_, ?_, ?_, ?_⟩
    · intro s t hs ht
      exact h.alike_iff (isNode_iff.2 hs) (isNode_iff.2 ht)
    · intro t ht
      obtain ⟨s, hs, hst⟩ := h.exists_alike (isNode_iff.2 ht)
      exact ⟨s, isNode_iff.1 hs, hst⟩
    · exact (decide_eq_decide.1 (hnode A.start_mem).2.2).1 (Setoid.refl _)
    · intro s hs
      exact (decide_eq_decide.1 (hnode hs).2.1).symm
    · intro s c hs hc
      have ht := next_mem hs hc
      have hacross := (mem_between_iff hs).2 ⟨hc, Setoid.refl (A.next s c)⟩
      -- the edge that bears the letter is matched with one that bears it
      have hedge := (hasEdge_iff hs).2 ⟨⟨c, hacross⟩, Setoid.refl _⟩
      obtain ⟨-, hletters⟩ := (hasEdge_iff (hnode hs).1).1
        ((h.hasEdge_iff (isNode_iff.2 hs) (isNode_iff.2 ht) _).1 hedge)
      have hacross' := (SymbolSet.alike_iff.1 hletters c).2 hacross
      exact Setoid.symm ((mem_between_iff (hnode hs).1).1 hacross').2
  · intro h
    refine ⟨?_, ?_, ?_, ?_⟩
    · intro s accepting start hnode
      obtain ⟨hs, rfl, rfl⟩ := hasNode_iff.1 hnode
      refine hasNode_iff.2
        ⟨h.mem hs, decide_eq_decide.2 (h.accepting hs).symm, decide_eq_decide.2 ?_⟩
      rw [← h.alike_iff hs A.start_mem]
      exact ⟨fun hst => Setoid.trans hst h.start, fun hst => Setoid.trans hst (Setoid.symm h.start)⟩
    · intro s t hs ht
      exact h.alike_iff (isNode_iff.1 hs) (isNode_iff.1 ht)
    · intro t ht
      obtain ⟨s, hs, hst⟩ := h.exists_alike (isNode_iff.1 ht)
      exact ⟨s, isNode_iff.2 hs, hst⟩
    · intro s t hs ht letters
      have hs := isNode_iff.1 hs
      have halike := h.between_alike ha hs (isNode_iff.1 ht)
      rw [hasEdge_iff hs, hasEdge_iff (h.mem hs)]
      refine and_congr (exists_congr fun c => SymbolSet.alike_iff.1 halike c) ?_
      exact ⟨Setoid.trans (Setoid.symm halike), Setoid.trans halike⟩

-- ============================================================ any search

/-- The search finds a match of two graphs just when there is one. -/
def ExactSearch (search : MarkedGraph → MarkedGraph → Bool) : Prop :=
  ∀ G H, search G H = true ↔ ∃ f, G.Matches H f

/-- Whatever the search, the answer is that of `isomorphic`. -/
theorem isomorphicBy_eq {search : MarkedGraph → MarkedGraph → Bool} (h : ExactSearch search)
    (A B : Automaton) : A.isomorphicBy search B = A.isomorphic B := by
  unfold isomorphic
  by_cases hfar : ¬A.alphabet ≈ B.alphabet ∨ A.size ≠ B.size
  · exact (if_pos hfar).trans (if_pos hfar).symm
  · by_cases hnull : Symbol.null ∈ A.states ∨ Symbol.null ∈ B.states
    · rw [isomorphicBy_eq_error hfar hnull, isomorphicBy_eq_error hfar hnull]
    · obtain ⟨hA, hB⟩ := not_or.1 hnull
      rw [isomorphicBy_eq_ok hfar hA hB, isomorphicBy_eq_ok hfar hA hB]
      have ha : A.alphabet ≈ B.alphabet := Decidable.not_not.1 fun ha => hfar (Or.inl ha)
      refine congrArg Except.ok (Bool.eq_iff_iff.2 ?_)
      rw [h, alike_markedGraph_iff ha]
      exact exists_congr fun f => matches_iff ha

/-- Automata without null states are compared, by whatever exact search,
and found to be isomorphic just when they have one alphabet and there is
an isomorphism of them. They then accept the same words. -/
theorem exists_isomorphic_iff (hA : ¬Symbol.null ∈ A.states) (hB : ¬Symbol.null ∈ B.states) :
    ∃ b, A.isomorphic B = .ok b ∧
      (∀ search, ExactSearch search → A.isomorphicBy search B = .ok b) ∧
      (b = true ↔ A.alphabet ≈ B.alphabet ∧ ∃ f, A.Isomorphism B f) ∧
      (b = true → ∀ w, A.Over w → ∃ a, A.accepts w = .ok a ∧ B.accepts w = .ok a) := by
  obtain ⟨b, hb, hiff⟩ := exists_isomorphic hA hB
  refine ⟨b, hb, fun search hsearch => (isomorphicBy_eq hsearch A B).trans hb, ?_, ?_⟩
  · rw [hiff]
    refine and_congr_right fun ha => exists_congr fun f => ?_
    exact (isomorphism_iff ha).symm
  · intro htrue w hw
    obtain ⟨ha, f, hf⟩ := hiff.1 htrue
    refine ⟨_, accepts_eq_ok hw, ?_⟩
    rw [← (hf.simulation ha).sameLanguage w hw, accepts_eq_ok hw]

/-- There is an exact search. -/
theorem exists_exactSearch : ∃ search, ExactSearch search := by
  classical
  exact ⟨fun G H => decide (∃ f, G.Matches H f), fun G H => decide_eq_true_iff⟩

/-- Two letters lead back and forth between 0 and 1. No word leads to the
other states: 2 and 3 lead to themselves and each other, 4 to itself. -/
def islands : Automaton where
  toDescription := Presentation.description
    { states := [.int 0, .int 1, .int 2, .int 3, .int 4]
      alphabet := [.str "a", .str "b"]
      start := .int 0
      accepting := [.int 0, .int 3]
      delta :=
        [(.int 0, [(.str "a", .int 1), (.str "b", .int 1)]),
          (.int 1, [(.str "a", .int 0), (.str "b", .int 0)]),
          (.int 2, [(.str "a", .int 2), (.str "b", .int 3)]),
          (.int 3, [(.str "a", .int 3), (.str "b", .int 2)]),
          (.int 4, [(.str "a", .int 4), (.str "b", .int 4)])] }
  start_mem := by decide
  strays_isEmpty := by decide
  gaps_eq_nil := by decide

/-- The same with other names, one of them a truth value, and with a row
and entries that lead nowhere. -/
def islandsRenamed : Automaton where
  toDescription := Presentation.description
    { states := [.str "u", .str "v", .str "w", .bool true, .int 7]
      alphabet := [.str "b", .str "a"]
      start := .int 1
      accepting := [.str "u", .int 1]
      delta :=
        [(.int 1, [(.str "a", .str "v"), (.str "b", .str "v"), (.str "c", .int 9)]),
          (.str "v", [(.str "a", .bool true), (.str "b", .int 1)]),
          (.str "w", [(.str "a", .str "w"), (.str "b", .str "w")]),
          (.int 7, [(.str "a", .int 7), (.str "b", .str "u")]),
          (.str "u", [(.str "a", .str "u"), (.str "b", .int 7)]), (.int 9, [])] }
  start_mem := by decide
  strays_isEmpty := by decide
  gaps_eq_nil := by decide

theorem exists_isomorphism_islands : ∃ f, islands.Isomorphism islandsRenamed f := by
  have ha : islands.alphabet ≈ islandsRenamed.alphabet := by decide +kernel
  have hshapes : islands.shape.renamedBy islandsRenamed.shape #[0, 3, 1, 2, 4] #[0, 2, 3, 1, 4] =
      true := by decide +kernel
  exact ⟨_, (isomorphism_iff ha).2 (renames_of_shape (Shape.renames_of_renamedBy hshapes) ha)⟩

theorem exists_isomorphic_iff_islands :
    ¬Symbol.null ∈ islands.states ∧ ¬Symbol.null ∈ islandsRenamed.states ∧
      (∃ search, ExactSearch search) ∧ (∃ f, islands.Isomorphism islandsRenamed f) ∧
      ∃ b, islands.isomorphic islandsRenamed = .ok b ∧
        (∀ search, ExactSearch search → islands.isomorphicBy search islandsRenamed = .ok b) ∧
        (b = true ↔ islands.alphabet ≈ islandsRenamed.alphabet ∧
          ∃ f, islands.Isomorphism islandsRenamed f) ∧
        (b = true → ∀ w, islands.Over w →
          ∃ a, islands.accepts w = .ok a ∧ islandsRenamed.accepts w = .ok a) :=
  have hA : ¬Symbol.null ∈ islands.states := by decide
  have hB : ¬Symbol.null ∈ islandsRenamed.states := by decide
  ⟨hA, hB, exists_exactSearch, exists_isomorphism_islands, exists_isomorphic_iff hA hB⟩

end Automaton

end Automata
