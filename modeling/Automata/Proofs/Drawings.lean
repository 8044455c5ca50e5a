/-
The transition graph of an automaton and its drawing show where letters
lead, and show the same.

The two are made apart. For the graph each state is looked at by itself,
and its letters are grouped by where they lead. For the drawing there is
one walk over states and letters, and letters are collected under the two
states that they lead across. The walk meets each letter once at each
state, and at one state its letters stand in listing order
(`letters_walk`), so what is collected under two states are the letters
on the edge of the graph between them, and no edge is drawn but for those
(`perm_arcs`). Targets are written by the table, and alike ones may be
written in several ways; the graph takes one of them, the drawing looks
up how the state is written.

The labels in the graph of the edges that leave a state are parts of the
alphabet (`parts_labelsFrom`): every letter leads somewhere, and to one
state only.

A drawing has texts where the graph has states and letters, and a number
of too many digits has none. There is a drawing exactly if none of them
is such a number (`Symbol.Writable`); the graph asks for nothing of the
kind.
-/
import Automata.Dot.Drawing
import Automata.Proofs.Isomorphism.Graphs
import Automata.Proofs.Pruning
import Automata.Proofs.Reports

namespace Automata

-- ============================================================ writing

namespace SymbolSet

variable {s : SymbolSet} {x y : Symbol}

theorem find?_eq_written (h : x ∈ s) : s.find? x = some (s.written x) := by
  obtain ⟨y, hy⟩ := Option.isSome_iff_exists.1 (mem_iff_isSome_find?.1 h)
  unfold written
  rw [hy, Option.getD_some]

theorem written_mem (h : x ∈ s) : s.written x ∈ s.toList :=
  (find?_eq_some_iff.1 (find?_eq_written h)).1

theorem written_alike (h : x ∈ s) : s.written x ≈ x :=
  Setoid.symm (find?_eq_some_iff.1 (find?_eq_written h)).2

theorem written_eq_iff (hx : x ∈ s) (hy : y ∈ s) : s.written x = s.written y ↔ x ≈ y := by
  constructor
  · intro h
    have halike := written_alike hx
    rw [h] at halike
    exact Setoid.trans (Setoid.symm halike) (written_alike hy)
  · intro h
    refine eq_of_alike (written_mem hx) (written_mem hy) ?_
    exact Setoid.trans (written_alike hx) (Setoid.trans h (Setoid.symm (written_alike hy)))

end SymbolSet

-- ============================================================== graphs

/-- The letter leads from the one symbol to the other. -/
def Automaton.LeadsAcross (A : Automaton) (s t c : Symbol) : Prop :=
  ∃ u, A.transition s c = .ok u ∧ u ≈ t

/-- The labels of the edges that leave a symbol. -/
def Graph.labelsFrom (g : Graph) (s : Symbol) : List SymbolSet :=
  (g.edges.filter fun e => decide (e.source ≈ s)).map Edge.letters

/-- The nodes are the states, with whether they accept. An edge leads from
one symbol to another just where some letter of the alphabet leads across
from a state, there is one such edge only, and it bears the letters that
do. Those on the edges that leave a state are parts of the alphabet. -/
structure Graph.Shows (g : Graph) (A : Automaton) : Prop where
  nodes : (g.nodes.map Prod.fst).Perm A.states.toList
  accepting : ∀ n ∈ g.nodes, n.2 = true ↔ n.1 ∈ A.accepting
  leads_iff : ∀ s t, g.Leads s t ↔ s ∈ A.states ∧ ∃ c ∈ A.alphabet, A.LeadsAcross s t c
  single : g.edges.Pairwise fun e e' => ¬(e.source ≈ e'.source ∧ e.target ≈ e'.target)
  mem_letters : ∀ e ∈ g.edges, ∀ c,
    c ∈ e.letters ↔ c ∈ A.alphabet ∧ A.LeadsAcross e.source e.target c
  parts : ∀ s ∈ A.states, SymbolSet.Parts (g.labelsFrom s) A.alphabet

namespace Automaton

variable {A : Automaton} {g : Graph} {s t c : Symbol} {e : Edge}

theorem leadsAcross_iff (hs : s ∈ A.states) (hc : c ∈ A.alphabet) :
    A.LeadsAcross s t c ↔ A.next s c ≈ t := by
  unfold LeadsAcross
  rw [transition_eq_ok hs hc]
  simp only [Except.ok.injEq, exists_eq_left']

/-- No two edges join the same states. -/
theorem pairwise_edges :
    A.edges.Pairwise fun e e' => ¬(e.source ≈ e'.source ∧ e.target ≈ e'.target) := by
  refine List.pairwise_flatMap.2 ⟨fun s _ => ?_, ?_⟩
  · refine List.pairwise_map.2 ((SymbolSet.distinct_listing _).imp fun {t t'} ht => ?_)
    exact fun h => ht h.2
  · refine A.states.distinct_listing.imp fun {s s'} hs e he e' he' => ?_
    obtain ⟨t, -, rfl⟩ := List.mem_map.1 he
    obtain ⟨t', -, rfl⟩ := List.mem_map.1 he'
    exact fun h => hs h.1

/-- Each letter is on one of the edges that leave a state. -/
theorem parts_labelsFrom (hg : g.edges = A.edges) (hs : s ∈ A.states) :
    SymbolSet.Parts (g.labelsFrom s) A.alphabet := by
  have hmem : ∀ {l}, l ∈ g.labelsFrom s ↔ ∃ e ∈ A.edges, e.source ≈ s ∧ e.letters = l := by
    intro l
    unfold Graph.labelsFrom
    simp only [hg, List.mem_map, List.mem_filter, decide_eq_true_eq, and_assoc]
  refine ⟨fun l hl => ?_, ?_, fun c => ⟨fun h => ?_, fun hc => ?_⟩⟩
  · obtain ⟨e, he, -, rfl⟩ := hmem.1 hl
    obtain ⟨c, hc, u, hmove, hut⟩ := exists_letter_of_mem_edges he
    rw [← next_eq_of_move? hmove] at hut
    exact ⟨c, (mem_letters_of_mem_edges he).2 ⟨SymbolSet.mem_of_mem_toList hc, hut⟩⟩
  · unfold Graph.labelsFrom
    rw [hg, List.pairwise_map]
    refine (pairwise_edges.filter _).imp_of_mem fun {e e'} he he' hne c hc hc' => hne ?_
    obtain ⟨he, hs⟩ := List.mem_filter.1 he
    obtain ⟨he', hs'⟩ := List.mem_filter.1 he'
    have hsource := Setoid.trans (of_decide_eq_true hs) (Setoid.symm (of_decide_eq_true hs'))
    -- a letter leads from one state to one only
    refine ⟨hsource, ?_⟩
    calc e.target ≈ A.next e.source c := Setoid.symm ((mem_letters_of_mem_edges he).1 hc).2
      _ ≈ A.next e'.source c := next_congr hsource (Setoid.refl c)
      _ ≈ e'.target := ((mem_letters_of_mem_edges he').1 hc').2
  · obtain ⟨l, hl, hc⟩ := h
    obtain ⟨e, he, -, rfl⟩ := hmem.1 hl
    exact ((mem_letters_of_mem_edges he).1 hc).1
  · obtain ⟨e, he, hsource, -, hc⟩ := exists_edge hs hc
    exact ⟨_, hmem.2 ⟨e, he, hsource, rfl⟩, hc⟩

/-- The transition graph of an automaton without a null state. -/
theorem exists_graph (h : ¬Symbol.null ∈ A.states) :
    ∃ g, A.graph = .ok g ∧ g.edges = A.edges ∧ g.Shows A := by
  refine ⟨_, if_neg h, rfl, ?_, ?_, fun s t => ?_, pairwise_edges, fun e he c => ?_, fun s hs => ?_⟩
  · show (List.map Prod.fst (A.states.listing.map _)).Perm _
    rw [List.map_map]
    exact (List.map_id _).symm ▸ A.states.perm_listing
  · intro n hn
    obtain ⟨s, -, rfl⟩ := List.mem_map.1 hn
    exact decide_eq_true_iff
  · refine leads_iff.trans ?_
    refine and_congr_right fun hs => exists_congr fun c => and_congr_right fun hc => ?_
    exact (leadsAcross_iff hs hc).symm
  · have he : e ∈ A.edges := he
    rw [mem_letters_of_mem_edges he]
    exact and_congr_right fun hc => (leadsAcross_iff (source_mem_of_mem_edges he) hc).symm
  · exact parts_labelsFrom rfl hs

end Automaton

-- ============================================================ drawings

namespace Dot

/-- What an edge of a drawing joins: the point that marks the start, and states. -/
inductive End where
  | marker
  | state (s : Symbol)
  deriving DecidableEq

/-- An edge of a drawing; that from the marker has no label. -/
structure DrawnEdge where
  source : End
  target : End
  label : Option String
  deriving DecidableEq

/-- The name of the node that an edge ends in. -/
def End.name : End → List Char
  | marker => startMarker
  | state s => nodeName s

/-- The statement of an edge. -/
def DrawnEdge.statement (e : DrawnEdge) : String :=
  Dot.statement (arrow e.source.name e.target.name) <|
    match e.label with
    | none => [("color", foreground.toList)]
    | some text =>
      [ ("label", attributeValue text.toList),
        ("color", foreground.toList),
        ("fontcolor", foreground.toList) ]

/-- An edge between states. -/
def Arc.drawn (a : Arc) : DrawnEdge := ⟨.state a.source, .state a.target, some a.label⟩

/-- The edges of a drawing. -/
def Drawing.edges (d : Drawing) : List DrawnEdge :=
  ⟨.marker, .state d.start, none⟩ :: d.arcs.map Arc.drawn

/-- The lines of the source that come before the edges: the attributes of
the graph and the nodes. -/
def Drawing.opening (d : Drawing) (background : String) : List String :=
  [ "digraph G \x7b",
    "rankdir=LR;",
    "bgcolor=" ++ .ofList (attributeValue background.toList) ++ ";" ] ++
  (d.states.map fun (s, accepting) => nodeStatement s accepting) ++
  [ statement startMarker
      [("shape", "point".toList), ("label", attributeValue []), ("color", foreground.toList)] ]

/-- The source has a statement for each edge, and no others behind the nodes. -/
theorem Drawing.lines_eq (d : Drawing) (background : String) :
    d.lines background = d.opening background ++ d.edges.map DrawnEdge.statement ++ ["\x7d"] := by
  unfold lines opening edges
  rw [List.map_cons, List.map_map]
  simp only [List.append_assoc, List.cons_append, List.nil_append]
  rfl

theorem Drawing.length_edges (d : Drawing) : d.edges.length = d.edgeCount := by
  unfold edges edgeCount
  rw [List.length_cons, List.length_map]

theorem nodup_arcsOf (ts : List Transition) : (arcsOf ts).Nodup := by
  refine List.Nodup.of_map (fun a => (a.source, a.target)) ?_
  unfold arcsOf
  rw [List.map_map]
  exact (List.map_id _).symm ▸ nodup_distinct _

end Dot

/-- Of the pairs of elements of two lists, those that have a certain first
element. -/
theorem filter_product_eq {α β : Type} {xs : List α} {ys : List β} {x : α} {p : α × β → Bool}
    (hxs : xs.Nodup) (hx : x ∈ xs) (hp : ∀ e, p e = true → e.1 = x) :
    (xs ×ˢ ys).filter p = (ys.filter fun y => p (x, y)).map (Prod.mk x) := by
  induction xs with
  | nil => exact absurd hx List.not_mem_nil
  | cons a xs ih =>
      obtain ⟨ha, hxs⟩ := List.nodup_cons.1 hxs
      rw [List.product_cons, List.filter_append, List.filter_map]
      rcases List.mem_cons.1 hx with rfl | hx
      · have hnone : (xs ×ˢ ys).filter p = [] := by
          refine List.filter_eq_nil_iff.2 fun e he hpe => ha ?_
          rw [← hp e hpe]
          exact (List.mem_product.1 he).1
        rw [hnone, List.append_nil]
        rfl
      · have hnone : ys.filter (p ∘ Prod.mk a) = [] := by
          refine List.filter_eq_nil_iff.2 fun y _ hpy => ha ?_
          have hax : a = x := hp (a, y) hpy
          rwa [hax]
        rw [hnone, ih hxs hx]
        rfl

namespace Automaton

variable {A : Automaton} {s t c : Symbol} {e : Edge}

/-- The transitions that a drawing collects, with targets as they are
written among the states. -/
def walk (A : Automaton) : List Transition :=
  (A.transitionsFrom A.states.toList).map fun t => { t with target := A.states.written t.target }

theorem walk_eq (A : Automaton) : A.walk = (A.states.toList ×ˢ A.letters).map fun e =>
    ⟨e.1, e.2, A.states.written (A.next e.1 e.2)⟩ := by
  unfold walk
  rw [transitionsFrom_eq, List.map_map]
  rfl

/-- What is drawn if the states can be compared and all can be written. -/
def drawn (A : Automaton) : Dot.Drawing where
  states := A.states.toList.map fun s => (s, decide (s ∈ A.accepting))
  start := A.states.written A.start
  arcs := Dot.arcsOf A.walk

section Comparable

variable {d : Dot.Drawing} (hcomparable : Symbol.Comparable A.states.toList)
include hcomparable

theorem drawing_eq_ok (h : A.Writable) : A.drawing = .ok A.drawn := by
  have hall : ∀ x ∈ A.states.toList ++ A.letters, x.isWritable = true :=
    List.forall_mem_append.2 ⟨h.states, h.letters⟩
  unfold drawing
  rw [SymbolSet.sizeOrder_eq_ok hcomparable]
  show (do let _ ← (A.states.toList ++ A.letters).mapM Symbol.text; _) = _
  rw [Symbol.mapM_text_eq_ok hall]
  rfl

/-- What cannot be written is not drawn. -/
theorem drawing_eq_error (h : ¬A.Writable) : A.drawing = .error .tooManyDigits := by
  have hall : ¬∀ x ∈ A.states.toList ++ A.letters, x.isWritable = true := by
    intro hall
    obtain ⟨hstates, hletters⟩ := List.forall_mem_append.1 hall
    exact h ⟨hstates, fun c hc => hletters c (mem_letters.2 hc)⟩
  unfold drawing
  rw [SymbolSet.sizeOrder_eq_ok hcomparable]
  show (do let _ ← (A.states.toList ++ A.letters).mapM Symbol.text; _) = _
  rw [Symbol.mapM_text_eq_error hall]
  rfl

theorem drawing_eq_ok_iff : A.drawing = .ok d ↔ A.Writable ∧ A.drawn = d := by
  by_cases h : A.Writable
  · rw [drawing_eq_ok hcomparable h, Except.ok.injEq]
    exact (and_iff_right h).symm
  · rw [drawing_eq_error hcomparable h]
    exact iff_of_false (fun hd => nomatch hd) fun hd => h hd.1

theorem exists_drawing_iff : (∃ d, A.drawing = .ok d) ↔ A.Writable := by
  simp only [drawing_eq_ok_iff hcomparable, exists_and_left, exists_eq', and_true]

end Comparable

/-- Under two states are collected, in listing order, the letters that
lead across. -/
theorem letters_walk (hs : s ∈ A.states.toList) (ht : t ∈ A.states) :
    (A.walk.filter fun u => decide (u.source = s ∧ u.target = A.states.written t)).map
      Transition.letter = A.letters.filter fun c => decide (c ∈ A.between s t) := by
  rw [walk_eq, List.filter_map, filter_product_eq A.states.nodup_toList hs, List.map_map,
    List.map_map]
  · show List.map id _ = _
    rw [List.map_id]
    refine List.filter_congr fun c hc => decide_eq_decide.2 ?_
    have hs := SymbolSet.mem_of_mem_toList hs
    have hc := over_letters c hc
    rw [mem_between_iff hs, SymbolSet.written_eq_iff (next_mem hs hc) ht]
    exact ⟨fun h => ⟨hc, h.2⟩, fun h => ⟨rfl, h.2⟩⟩
  · intro e he
    exact (of_decide_eq_true he).1

/-- An edge of the graph as it is drawn. -/
def arcOf (A : Automaton) (e : Edge) : Dot.Arc :=
  ⟨e.source, A.states.written e.target, A.letters.filter fun c => decide (c ∈ e.letters)⟩

theorem letters_arcOf (he : e ∈ A.edges) :
    (A.arcOf e).letters = (A.walk.filter fun u =>
      decide (u.source = (A.arcOf e).source ∧ u.target = (A.arcOf e).target)).map
        Transition.letter := by
  unfold arcOf
  rw [letters_walk (mem_edges.1 he).1 (target_mem_of_mem_edges he), letters_of_mem_edges he]

/-- Just the edges of the graph are drawn. -/
theorem mem_arcsOf_walk {a : Dot.Arc} :
    a ∈ Dot.arcsOf A.walk ↔ ∃ e ∈ A.edges, A.arcOf e = a := by
  rw [Dot.mem_arcsOf]
  constructor
  · intro h
    obtain ⟨⟨u, hu, hsource, htarget⟩, hletters⟩ := h
    rw [walk_eq] at hu
    obtain ⟨⟨s, c⟩, hmem, rfl⟩ := List.mem_map.1 hu
    obtain ⟨hs, hc⟩ := List.mem_product.1 hmem
    have hs' := SymbolSet.mem_of_mem_toList hs
    have hc := over_letters c hc
    -- the edge may write the target otherwise than the transition
    obtain ⟨e, he, hes, het, -⟩ := exists_edge hs' hc
    have hsource : (A.arcOf e).source = a.source :=
      (SymbolSet.eq_of_alike (mem_edges.1 he).1 hs hes).trans hsource
    have htarget : (A.arcOf e).target = a.target :=
      ((SymbolSet.written_eq_iff (target_mem_of_mem_edges he) (next_mem hs' hc)).2 het).trans
        htarget
    rw [← hsource, ← htarget, ← letters_arcOf he] at hletters
    refine ⟨e, he, ?_⟩
    show Dot.Arc.mk _ _ _ = Dot.Arc.mk a.source a.target a.letters
    rw [Dot.Arc.mk.injEq]
    exact ⟨hsource, htarget, hletters.symm⟩
  · intro h
    obtain ⟨e, he, rfl⟩ := h
    obtain ⟨c, hc, u, hmove, hut⟩ := exists_letter_of_mem_edges he
    have hu := (SymbolSet.mem_congr hut).2 (target_mem_of_mem_edges he)
    refine ⟨⟨⟨e.source, c, A.states.written u⟩, ?_, rfl, ?_⟩, letters_arcOf he⟩
    · rw [walk_eq, ← next_eq_of_move? hmove]
      refine List.mem_map.2 ⟨(e.source, c), List.mem_product.2 ?_, rfl⟩
      exact ⟨(mem_edges.1 he).1, mem_letters.2 hc⟩
    · exact (SymbolSet.written_eq_iff hu (target_mem_of_mem_edges he)).2 hut

/-- The edges of the graph are drawn, each once. -/
theorem perm_arcs : (Dot.arcsOf A.walk).Perm (A.edges.map A.arcOf) := by
  have hnodup : (A.edges.map A.arcOf).Nodup := by
    refine List.pairwise_map.2 (pairwise_edges.imp_of_mem fun {e e'} he he' hne heq => hne ?_)
    obtain ⟨hsource, htarget, -⟩ := Dot.Arc.mk.inj heq
    refine ⟨hsource ▸ Setoid.refl _, ?_⟩
    exact (SymbolSet.written_eq_iff (target_mem_of_mem_edges he)
      (target_mem_of_mem_edges he')).1 htarget
  refine (List.perm_ext_iff_of_nodup (Dot.nodup_arcsOf _) hnodup).2 fun a => ?_
  rw [mem_arcsOf_walk, List.mem_map]

end Automaton

namespace Dot

/-- The drawn edge joins the states that the edge of the graph does, and
bears its letters in listing order, with commas between them. -/
structure DrawnEdge.Draws (l : DrawnEdge) (A : Automaton) (e : Edge) : Prop where
  source : ∃ s ∈ A.states.toList, s ≈ e.source ∧ l.source = .state s
  target : ∃ t ∈ A.states.toList, t ≈ e.target ∧ l.target = .state t
  label : l.label = some (",".intercalate
    ((A.letters.filter fun c => decide (c ∈ e.letters)).map Symbol.spelling))

/-- The drawing has one edge from the marker to the start, and one for each
edge of the graph; these are the edges in its source. -/
structure Drawing.Draws (d : Drawing) (A : Automaton) (g : Graph) : Prop where
  edges : ∃ start ∈ A.states.toList, start ≈ A.start ∧ ∃ ls,
    List.Forall₂ (fun e l => l.Draws A e) g.edges ls ∧
      d.edges.Perm (⟨.marker, .state start, none⟩ :: ls)
  edgeCount : d.edgeCount = g.edges.length + 1
  lines : ∀ background, d.lines background =
    d.opening background ++ d.edges.map DrawnEdge.statement ++ ["\x7d"]

end Dot

namespace Automaton

variable {A : Automaton} {g : Graph} {e : Edge}

theorem draws_arcOf (he : e ∈ A.edges) : (A.arcOf e).drawn.Draws A e where
  source := ⟨e.source, (mem_edges.1 he).1, Setoid.refl _, rfl⟩
  target :=
    have ht := target_mem_of_mem_edges he
    ⟨_, SymbolSet.written_mem ht, SymbolSet.written_alike ht, rfl⟩
  label := rfl

theorem draws_drawn (hg : g.edges = A.edges) : A.drawn.Draws A g := by
  have hperm := (perm_arcs (A := A)).map Dot.Arc.drawn
  rw [List.map_map] at hperm
  have hedges := hperm.cons ⟨.marker, .state (A.states.written A.start), none⟩
  refine ⟨⟨_, SymbolSet.written_mem A.start_mem, SymbolSet.written_alike A.start_mem, _, ?_, hedges⟩,
    ?_, fun _ => Dot.Drawing.lines_eq _ _⟩
  · rw [hg, List.forall₂_map_right_iff, List.forall₂_same]
    exact fun e he => draws_arcOf he
  · rw [← Dot.Drawing.length_edges, hg]
    exact hedges.length_eq.trans (by rw [List.length_cons, List.length_map])

/-- For an automaton without a null state whose states can be compared
there is a transition graph, and unless a number has too many digits there
is a drawing. The graph shows the states and where letters lead, with the
letters of each edge, and the drawing has its edges, with the same
letters, beside the one to the start. -/
theorem graph_drawing_faithful (hnull : ¬Symbol.null ∈ A.states)
    (hcomparable : Symbol.Comparable A.states.toList) :
    ∃ g, A.graph = .ok g ∧ g.Shows A ∧
      (A.Writable → ∃ d, A.drawing = .ok d ∧ d.Draws A g) ∧
      (¬A.Writable → A.drawing = .error .tooManyDigits) := by
  obtain ⟨g, hgraph, hedges, hshows⟩ := exists_graph hnull
  exact ⟨g, hgraph, hshows, fun h => ⟨_, drawing_eq_ok hcomparable h, draws_drawn hedges⟩,
    drawing_eq_error hcomparable⟩

/-- Has letters of all kinds, one of which leads back to its state. Targets
are written as truth values too, and the table has a row of a symbol that
is no state and an entry for one that is no letter. -/
def mixedLetters : Automaton where
  toDescription := Presentation.description
    { states := [.int 2, .int 1, .int 0]
      alphabet := [.str "a", .int 7, .bool true, .null]
      start := .bool false
      accepting := [.int 2]
      delta :=
        [(.int 0, [(.str "a", .bool true), (.int 7, .int 1), (.int 1, .int 2), (.null, .int 0),
            (.str "z", .str "out")]),
          (.int 1, [(.str "a", .int 0), (.int 7, .bool false), (.int 1, .int 2), (.null, .int 2)]),
          (.int 2, [(.str "a", .int 2), (.int 7, .int 2), (.int 1, .int 2), (.null, .int 2)]),
          (.str "out", [(.str "a", .int 0)])] }
  start_mem := by decide
  strays_isEmpty := by decide
  gaps_eq_nil := by decide

theorem graph_drawing_faithful_mixedLetters :
    ¬Symbol.null ∈ mixedLetters.states ∧ Symbol.Comparable mixedLetters.states.toList ∧
      mixedLetters.Writable ∧
      ∃ g d, mixedLetters.graph = .ok g ∧ g.Shows mixedLetters ∧ mixedLetters.drawing = .ok d ∧
        d.Draws mixedLetters g := by
  have hnull : ¬Symbol.null ∈ mixedLetters.states := by decide
  have hcomparable : Symbol.Comparable mixedLetters.states.toList := by decide
  have hwritable : mixedLetters.Writable := by decide +kernel
  obtain ⟨g, hgraph, hshows, hdrawn, -⟩ := graph_drawing_faithful hnull hcomparable
  obtain ⟨d, hdrawing, hdraws⟩ := hdrawn hwritable
  exact ⟨hnull, hcomparable, hwritable, g, d, hgraph, hshows, hdrawing, hdraws⟩

example : mixedLetters.drawing.toOption.map (fun d => d.arcs.map Dot.Arc.label) =
    some ["None", "True", "7,a", "None,True", "7,a", "None,True,7,a"] := by
  decide +kernel

/-- One state, which is the least number with too many digits, and no letter. -/
def hugeNumber : Automaton where
  toDescription := Presentation.description
    { states := [.int Text.digitLimit]
      alphabet := []
      start := .int Text.digitLimit
      accepting := []
      delta := [(.int Text.digitLimit, [])] }
  start_mem := by decide +kernel
  strays_isEmpty := by decide +kernel
  gaps_eq_nil := by decide +kernel

/-- Two states that differ behind a colon only. -/
def colonTexts : Automaton where
  toDescription := Presentation.description
    { states := [.str "a:0", .str "a:1"]
      alphabet := [.str "x"]
      start := .str "a:0"
      accepting := [.str "a:1"]
      delta :=
        [(.str "a:0", [(.str "x", .str "a:1")]), (.str "a:1", [(.str "x", .str "a:0")])] }
  start_mem := by decide
  strays_isEmpty := by decide
  gaps_eq_nil := by decide

/-- A number with too many digits is not drawn. States that differ behind a
colon only are drawn, but as nodes of one name, which is then the name at
both ends of an edge between them. -/
theorem not_drawn_hugeNumber_colonTexts :
    (¬Symbol.null ∈ hugeNumber.states ∧ Symbol.Comparable hugeNumber.states.toList ∧
      ¬∃ d, hugeNumber.drawing = .ok d) ∧
    ¬Symbol.null ∈ colonTexts.states ∧ Symbol.Comparable colonTexts.states.toList ∧
      ∃ d, colonTexts.drawing = .ok d ∧
        ∃ e ∈ d.edges, e.source ≠ e.target ∧ e.source.name = e.target.name := by
  have hhuge : Symbol.Comparable hugeNumber.states.toList := by decide +kernel
  have hcolon : Symbol.Comparable colonTexts.states.toList := by decide
  refine ⟨⟨by decide +kernel, hhuge, fun h => ?_⟩, by decide, hcolon, colonTexts.drawn,
    drawing_eq_ok hcolon (by decide), ⟨.state (.str "a:0"), .state (.str "a:1"), some "x"⟩, ?_⟩
  · exact absurd ((exists_drawing_iff hhuge).1 h) (by decide +kernel)
  · exact ⟨by decide +kernel, by decide, by decide⟩

end Automaton

end Automata
