/-
Renamings of automata, and that `isomorphic` decides whether there is
one.

A renaming takes states to states, one to one and onto, up to how they
are written, and keeps the start, acceptance and where letters lead
(`Automaton.Renames`). In a shape the places stand for the states: a
renaming of automata gives one of their shapes (`Renames.shape`) and is
given by one (`renames_of_shape`). The shape that is read off the marked
graph of an automaton is the one that its table gives, since an edge bears
just the letters that lead across (`shape_markedGraph`). So what was shown
of the comparison of shapes holds of automata (`exists_isomorphic`).
-/
import Automata.Automaton.Isomorphism
import Automata.Proofs.Isomorphism.Search
import Automata.Proofs.Places
import Automata.Proofs.Words

namespace Automata.Automaton

open SymbolSet

variable {A B : Automaton} {f : Symbol → Symbol} {i : Nat}

-- ============================================================= shapes

/-- The shape of an automaton, as read off its table. -/
def shape (A : Automaton) : Shape where
  start := (A.states.position? A.start).getD 0
  accepting := A.states.members.map fun s => decide (s ∈ A.accepting)
  moves := A.states.members.map fun s =>
    A.alphabet.toList.map fun c => ((A.move? s c).bind A.states.position?).getD 0

@[simp] theorem size_shape (A : Automaton) : A.shape.size = A.size := Array.size_map

theorem start_shape (A : Automaton) : A.shape.start = A.states.place A.start := rfl

theorem accepting_shape (hi : i < A.size) :
    A.shape.accepting[i]? = some (decide (A.states.member i ∈ A.accepting)) := by
  show (A.states.members.map _)[i]? = _
  rw [Array.getElem?_map, members_getElem? hi]
  rfl

theorem targets_shape (hi : i < A.size) : A.shape.targets i =
    A.alphabet.toList.map fun c => A.states.place (A.next (A.states.member i) c) := by
  have hrow : A.shape.moves[i]? = some (A.alphabet.toList.map fun c =>
      ((A.move? (A.states.member i) c).bind A.states.position?).getD 0) := by
    show (A.states.members.map _)[i]? = _
    rw [Array.getElem?_map, members_getElem? hi]
    rfl
  unfold Shape.targets
  rw [hrow, Option.getD_some]
  refine List.map_congr_left fun c hc => ?_
  rw [move?_eq_some_next (member_mem hi) (mem_of_mem_toList hc), Option.bind_some]
  rfl

theorem fits_shape (A : Automaton) : A.shape.Fits where
  start_lt := by
    rw [size_shape]
    exact place_lt A.start_mem
  targets_lt := by
    intro i j hj
    rw [size_shape]
    by_cases hi : i < A.size
    · rw [targets_shape hi] at hj
      obtain ⟨c, hc, rfl⟩ := List.mem_map.1 hj
      exact place_lt (next_mem (member_mem hi) (mem_of_mem_toList hc))
    · have hnone : A.shape.moves[i]? = none := by
        refine Array.getElem?_eq_none (Nat.le_of_not_lt fun hlt => hi ?_)
        rw [← size_shape]
        exact hlt
      unfold Shape.targets at hj
      rw [hnone] at hj
      cases hj

-- ========================================================== renamings

/-- The function takes the states of the one automaton to those of the
other, one to one and onto, and keeps what words see of them. -/
structure Renames (A B : Automaton) (f : Symbol → Symbol) : Prop where
  mem : ∀ {s}, s ∈ A.states → f s ∈ B.states
  alike_iff : ∀ {s t}, s ∈ A.states → t ∈ A.states → (f s ≈ f t ↔ s ≈ t)
  exists_alike : ∀ {t}, t ∈ B.states → ∃ s ∈ A.states, f s ≈ t
  start : f A.start ≈ B.start
  accepting : ∀ {s}, s ∈ A.states → (f s ∈ B.accepting ↔ s ∈ A.accepting)
  next : ∀ {s c}, s ∈ A.states → c ∈ A.alphabet → f (A.next s c) ≈ B.next (f s) c

namespace Renames

theorem size_eq (h : A.Renames B f) : A.size = B.size := by
  refine Nat.le_antisymm ?_ ?_
  · exact size_le_of_injective f (fun _ hs => h.mem hs) fun _ hs _ ht => (h.alike_iff hs ht).1
  · have hback : ∀ t, t ∈ B.states → ∃ s, s ∈ A.states ∧ f s ≈ t := fun _ ht => h.exists_alike ht
    choose! g hg using hback
    refine size_le_of_injective g (fun t ht => (hg t ht).1) fun t ht u hu htu => ?_
    have hfg := (h.alike_iff (hg t ht).1 (hg u hu).1).2 htu
    exact Setoid.trans (Setoid.symm (hg t ht).2) (Setoid.trans hfg (hg u hu).2)

/-- An automaton and a renamed one run in step. -/
theorem simulation (h : A.Renames B f) (ha : A.alphabet ≈ B.alphabet) :
    Simulation A B fun s t => s ∈ A.states ∧ f s ≈ t where
  alphabet := ha
  start := ⟨A.start_mem, h.start⟩
  accepting := by
    intro s t hst
    rw [← h.accepting hst.1]
    exact SymbolSet.mem_congr hst.2
  next := by
    intro s t c hst hc
    have hnext := next_congr (A := B) hst.2 (Setoid.refl c)
    exact ⟨next_mem hst.1 hc, Setoid.trans (h.next hst.1 hc) hnext⟩

end Renames

/-- Over one alphabet, where letters lead is read off in one order. -/
theorem targets_shape_of_alike (ha : A.alphabet ≈ B.alphabet) (hi : i < B.size) :
    B.shape.targets i =
      A.alphabet.toList.map fun c => B.states.place (B.next (B.states.member i) c) := by
  rw [targets_shape hi]
  refine (map_toList_congr ha fun c d hcd => ?_).symm
  exact place_congr (next_congr (Setoid.refl _) hcd)

/-- A renaming of automata renames the places of the states. -/
theorem Renames.shape (h : A.Renames B f) (ha : A.alphabet ≈ B.alphabet) :
    A.shape.Renames B.shape fun i => B.states.place (f (A.states.member i)) := by
  have hcongr : ∀ {s t}, s ∈ A.states → s ≈ t → f s ≈ f t := fun hs hst =>
    (h.alike_iff hs ((SymbolSet.mem_congr hst).1 hs)).2 hst
  have hmember : ∀ {s}, s ∈ A.states →
      B.states.place (f (A.states.member (A.states.place s))) = B.states.place (f s) :=
    fun hs => place_congr (Setoid.symm (hcongr hs (alike_member_place hs)))
  refine ⟨?_, ?_, ?_, ?_, ?_, ?_⟩
  · rw [size_shape, size_shape, h.size_eq]
  · intro i hi
    rw [size_shape] at hi ⊢
    exact place_lt (h.mem (member_mem hi))
  · intro i j hi hj hij
    rw [size_shape] at hi hj
    have halike := (place_eq_iff (h.mem (member_mem hi)) (h.mem (member_mem hj))).1 hij
    have hmembers := (h.alike_iff (member_mem hi) (member_mem hj)).1 halike
    rw [← place_member hi, ← place_member hj, place_congr hmembers]
  · rw [start_shape, start_shape]
    exact (hmember A.start_mem).trans (place_congr h.start)
  · intro i hi
    rw [size_shape] at hi
    have hmem := h.mem (member_mem hi)
    rw [accepting_shape hi, accepting_shape (place_lt hmem), Option.some.injEq, decide_eq_decide,
      ← h.accepting (member_mem hi)]
    exact SymbolSet.mem_congr (alike_member_place hmem)
  · intro i hi
    rw [size_shape] at hi
    have hmem := h.mem (member_mem hi)
    rw [targets_shape_of_alike ha (place_lt hmem), targets_shape hi, List.map_map]
    refine List.map_congr_left fun c hc => ?_
    have hc := mem_of_mem_toList hc
    show _ = B.states.place (f (A.states.member (A.states.place _)))
    rw [hmember (next_mem (member_mem hi) hc), place_congr (h.next (member_mem hi) hc)]
    exact place_congr (next_congr (Setoid.symm (alike_member_place hmem)) (Setoid.refl c))

/-- A renaming of the places of the states renames the states. -/
theorem renames_of_shape {π : Nat → Nat} (h : A.shape.Renames B.shape π)
    (ha : A.alphabet ≈ B.alphabet) :
    A.Renames B fun s => B.states.member (π (A.states.place s)) := by
  have hlt : ∀ {i}, i < A.size → π i < B.size := by
    intro i hi
    rw [← size_shape] at hi ⊢
    exact h.lt hi
  have hplace : ∀ {s}, s ∈ A.states → A.states.place s < A.shape.size := by
    intro s hs
    rw [size_shape]
    exact place_lt hs
  have hmem : ∀ {s}, s ∈ A.states → B.states.member (π (A.states.place s)) ∈ B.states :=
    fun hs => member_mem (hlt (place_lt hs))
  refine ⟨hmem, ?_, ?_, ?_, ?_, ?_⟩
  · intro s t hs ht
    rw [← place_eq_iff (hmem hs) (hmem ht), place_member (hlt (place_lt hs)),
      place_member (hlt (place_lt ht)), ← place_eq_iff hs ht]
    exact ⟨h.injective (hplace hs) (hplace ht), congrArg π⟩
  · intro t ht
    have hj : B.states.place t < B.shape.size := by
      rw [size_shape]
      exact place_lt ht
    obtain ⟨i, hi, hit⟩ := h.exists_eq hj
    rw [size_shape] at hi
    refine ⟨A.states.member i, member_mem hi, ?_⟩
    rw [place_member hi, hit]
    exact Setoid.symm (alike_member_place ht)
  · have hstart := h.start
    rw [start_shape, start_shape] at hstart
    rw [hstart]
    exact Setoid.symm (alike_member_place B.start_mem)
  · intro s hs
    have haccepting := h.accepting (hplace hs)
    rw [accepting_shape (place_lt hs), accepting_shape (hlt (place_lt hs)), Option.some.injEq,
      decide_eq_decide] at haccepting
    rw [← haccepting]
    exact SymbolSet.mem_congr (Setoid.symm (alike_member_place hs))
  · intro s c hs hc
    obtain ⟨d, hd, hcd⟩ := hc
    have hmoves := h.targets (hplace hs)
    rw [targets_shape_of_alike ha (hlt (place_lt hs)), targets_shape (place_lt hs), List.map_map]
      at hmoves
    -- where the letter leads is read off at the place of the state
    have hletter : B.states.place (B.next (B.states.member (π (A.states.place s))) d)
        = π (A.states.place (A.next (A.states.member (A.states.place s)) d)) :=
      List.map_inj_left.1 hmoves d hd
    have hsame : A.states.place (A.next s c)
        = A.states.place (A.next (A.states.member (A.states.place s)) d) :=
      place_congr (next_congr (alike_member_place hs) hcd)
    have hnext := next_mem (hmem hs) ((SymbolSet.alike_iff.1 ha d).1 (mem_of_mem_toList hd))
    rw [hsame, ← hletter]
    exact Setoid.trans (Setoid.symm (alike_member_place hnext))
      (next_congr (Setoid.refl _) (Setoid.symm hcd))

-- ======================================================= marked graphs

variable {s t c : Symbol} {e : Edge}

/-- The transition graph with the start marked, if it can be drawn. -/
def markedGraph (A : Automaton) : MarkedGraph := A.diagram.mark A.start

theorem nodes_markedGraph (A : Automaton) : A.markedGraph.nodes =
    A.states.listing.map fun s => ⟨s, decide (s ∈ A.accepting), decide (s ≈ A.start)⟩ :=
  List.map_map

theorem names_markedGraph (A : Automaton) : A.markedGraph.names = A.states := by
  unfold MarkedGraph.names
  rw [nodes_markedGraph, List.map_map]
  exact (congrArg SymbolSet.ofList (List.map_id _)).trans (ofList_listing A.states)

/-- A letter leads across when it leads to the target. -/
theorem mem_between_iff (hs : s ∈ A.states) :
    c ∈ A.between s t ↔ c ∈ A.alphabet ∧ A.next s c ≈ t := by
  rw [mem_between]
  refine and_congr_right fun hc => ?_
  rw [move?_eq_some_next hs hc]
  simp only [Option.some.injEq, exists_eq_left']

/-- The letters on an edge are those that lead across. -/
theorem mem_letters_of_mem_edges (he : e ∈ A.edges) :
    c ∈ e.letters ↔ c ∈ A.alphabet ∧ A.next e.source c ≈ e.target := by
  rw [letters_of_mem_edges he, mem_between_iff (source_mem_of_mem_edges he)]

/-- Where a letter leads from a state, an edge leads that bears it. -/
theorem exists_edge (hs : s ∈ A.states) (hc : c ∈ A.alphabet) :
    ∃ e ∈ A.edges, e.source ≈ s ∧ e.target ≈ A.next s c ∧ c ∈ e.letters := by
  obtain ⟨e, he, hsource, htarget⟩ := exists_edge_of_move? hs hc (move?_eq_some_next hs hc)
  refine ⟨e, he, hsource, htarget, (mem_letters_of_mem_edges he).2 ⟨hc, ?_⟩⟩
  exact Setoid.trans (next_congr hsource (Setoid.refl c)) (Setoid.symm htarget)

/-- An edge bears each letter as the alphabet has it. -/
theorem mem_toList_letters (he : e ∈ A.edges) :
    c ∈ e.letters.toList ↔ c ∈ A.alphabet.toList ∧ c ∈ e.letters := by
  have hlist : e.letters.toList ⊆ A.alphabet.toList := by
    rw [letters_of_mem_edges he]
    unfold between
    rw [toList_filter]
    exact List.filter_subset_self _
  constructor
  · intro hc
    exact ⟨hlist hc, mem_of_mem_toList hc⟩
  · intro h
    obtain ⟨hc, d, hd, hcd⟩ := h
    rwa [eq_of_alike hc (hlist hd) hcd]

/-- Each letter of the alphabet leads on from the start. -/
theorem letters_markedGraph (A : Automaton) : A.markedGraph.letters = A.alphabet := by
  refine ofList_eq fun c => ?_
  rw [List.mem_flatMap]
  constructor
  · intro h
    obtain ⟨e, he, hc⟩ := h
    exact ((mem_toList_letters he).1 hc).1
  · intro hc
    obtain ⟨e, he, -, -, hletter⟩ := exists_edge A.start_mem (mem_of_mem_toList hc)
    exact ⟨e, he, (mem_toList_letters he).2 ⟨hc, hletter⟩⟩

/-- An edge that bears a letter leads to where the letter leads. -/
theorem exists_target?_markedGraph (hs : s ∈ A.states) (hc : c ∈ A.alphabet) :
    ∃ t, A.markedGraph.target? s c = some t ∧ t ≈ A.next s c := by
  obtain ⟨e, he, hsource, -, hletter⟩ := exists_edge hs hc
  unfold MarkedGraph.target?
  cases hfind : A.markedGraph.edges.find?
      fun e => decide (e.source ≈ s) && decide (c ∈ e.letters) with
  | none =>
    have hnot := List.find?_eq_none.1 hfind e he
    simp [hsource, hletter] at hnot
  | some e' =>
    have he' : e' ∈ A.edges := List.mem_of_find?_eq_some hfind
    have hmatch := List.find?_some hfind
    simp only [Bool.and_eq_true, decide_eq_true_eq] at hmatch
    have hnext := ((mem_letters_of_mem_edges he').1 hmatch.2).2
    refine ⟨e'.target, rfl, Setoid.trans (Setoid.symm hnext) ?_⟩
    exact next_congr hmatch.1 (Setoid.refl c)

theorem accepting_markedGraph (s : Symbol) :
    (A.markedGraph.nodes.any fun n => decide (n.name ≈ s) && n.accepting) =
      decide (s ∈ A.accepting) := by
  rw [nodes_markedGraph, Bool.eq_iff_iff, decide_eq_true_iff]
  simp only [List.any_map, List.any_eq_true, Function.comp_apply, Bool.and_eq_true,
    decide_eq_true_eq, mem_listing]
  constructor
  · intro h
    obtain ⟨x, -, hxs, hx⟩ := h
    exact (SymbolSet.mem_congr hxs).1 hx
  · intro hs
    obtain ⟨x, hx, hsx⟩ := A.accepting_subset hs
    exact ⟨x, hx, Setoid.symm hsx, (SymbolSet.mem_congr hsx).1 hs⟩

theorem start_markedGraph :
    ((A.markedGraph.nodes.find? MarkedNode.start).bind fun n => A.states.position? n.name) =
      A.states.position? A.start := by
  rw [nodes_markedGraph, List.find?_map]
  cases hfind : A.states.listing.find? (MarkedNode.start ∘ fun s =>
      ⟨s, decide (s ∈ A.accepting), decide (s ≈ A.start)⟩) with
  | none =>
    obtain ⟨x, hx, hstart⟩ := A.start_mem
    exact absurd (decide_eq_true (Setoid.symm hstart))
      (List.find?_eq_none.1 hfind x (mem_listing.2 hx))
  | some x =>
    have hx := List.find?_some hfind
    exact position?_congr (of_decide_eq_true hx)

/-- What is read off the marked graph is what can be read off the table. -/
theorem shape_markedGraph (A : Automaton) : A.markedGraph.shape = A.shape := by
  have hmoves : ∀ s ∈ A.states.members, (A.alphabet.toList.map fun c =>
      ((A.markedGraph.target? s c).bind A.states.position?).getD 0) =
        A.alphabet.toList.map fun c => ((A.move? s c).bind A.states.position?).getD 0 := by
    intro s hs
    refine List.map_congr_left fun c hc => ?_
    have hmem := mem_of_mem_toList (Array.mem_toList_iff.2 hs)
    have hletter := mem_of_mem_toList hc
    obtain ⟨t, ht, hts⟩ := exists_target?_markedGraph hmem hletter
    rw [ht, move?_eq_some_next hmem hletter]
    exact place_congr hts
  unfold MarkedGraph.shape shape
  simp only [names_markedGraph, letters_markedGraph, start_markedGraph, accepting_markedGraph,
    Array.map_congr_left hmoves]

theorem marked_eq (h : ¬Symbol.null ∈ A.states) : A.marked = .ok A.markedGraph := by
  unfold marked
  rw [graph_eq_ok h]
  rfl

theorem marked_eq_error (h : Symbol.null ∈ A.states) : A.marked = .error .nullNode := by
  unfold marked
  rw [graph_eq_error h]
  rfl

-- ========================================================= isomorphism

section Search

variable {search : MarkedGraph → MarkedGraph → Bool}
  (hnear : ¬(¬A.alphabet ≈ B.alphabet ∨ A.size ≠ B.size))
include hnear

theorem isomorphicBy_eq_ok (hA : ¬Symbol.null ∈ A.states) (hB : ¬Symbol.null ∈ B.states) :
    A.isomorphicBy search B = .ok (search A.markedGraph B.markedGraph) := by
  unfold isomorphicBy
  rw [if_neg hnear, marked_eq hA, marked_eq hB]
  rfl

theorem isomorphicBy_eq_error (h : Symbol.null ∈ A.states ∨ Symbol.null ∈ B.states) :
    A.isomorphicBy search B = .error .nullNode := by
  unfold isomorphicBy
  rw [if_neg hnear]
  by_cases hA : Symbol.null ∈ A.states
  · rw [marked_eq_error hA]
    rfl
  · rw [marked_eq hA, marked_eq_error (h.resolve_left hA)]
    rfl

end Search

/-- Over one alphabet graphs are found to match just when there is a renaming
of states. -/
theorem alike_markedGraph_iff (ha : A.alphabet ≈ B.alphabet) :
    A.markedGraph.alike B.markedGraph = true ↔ ∃ f, A.Renames B f := by
  have hfits : Comparison.Fits { left := A.shape, right := B.shape } :=
    ⟨fits_shape A, fits_shape B, rfl, rfl⟩
  unfold MarkedGraph.alike
  rw [shape_markedGraph, shape_markedGraph, Comparison.alike_iff hfits]
  constructor
  · intro h
    obtain ⟨π, hπ⟩ := h
    exact ⟨_, renames_of_shape hπ ha⟩
  · intro h
    obtain ⟨f, hf⟩ := h
    exact ⟨_, hf.shape ha⟩

/-- Automata without null states are compared, and found to be isomorphic
just when they have one alphabet and a renaming of states. -/
theorem exists_isomorphic (hA : ¬Symbol.null ∈ A.states) (hB : ¬Symbol.null ∈ B.states) :
    ∃ b, A.isomorphic B = .ok b ∧ (b = true ↔ A.alphabet ≈ B.alphabet ∧ ∃ f, A.Renames B f) := by
  by_cases hfar : ¬A.alphabet ≈ B.alphabet ∨ A.size ≠ B.size
  · refine ⟨false, if_pos hfar, iff_of_false Bool.false_ne_true fun h => ?_⟩
    obtain ⟨ha, f, hf⟩ := h
    rcases hfar with hfar | hfar
    · exact hfar ha
    · exact hfar hf.size_eq
  · have ha : A.alphabet ≈ B.alphabet := Decidable.not_not.1 fun h => hfar (Or.inl h)
    refine ⟨_, isomorphicBy_eq_ok hfar hA hB, ?_⟩
    rw [alike_markedGraph_iff ha, and_iff_right ha]

end Automata.Automaton
