/-
Whether the nodes in the source of a drawing are told apart there.

Each state has a statement for its node, and the statements of edges name
the nodes that they join. The nodes of a drawing are named if all of these
can be read, as names of the states that are different for different
states (`Drawing.Named`). The reading is exact: a statement is read as the
name where it was written, and what was written behind it is left.

What an edge joins shows in its statement only, so all is settled for each
node by itself, and by which nodes meet edges: the start does, and if
there are letters, so do all states (`exists_edge_of_drawing_iff`). Hence
there are names just under the conditions on texts that `Nameable` lists.
All numbers that have a text meet these, as do all texts without colons,
quotes, backslashes and line breaks (`nameable_of_plain`). They can fail:
what comes behind a colon is no part of a name.
-/
import Automata.Proofs.Dot.Names
import Automata.Proofs.Drawings

namespace Automata

namespace Dot

variable {rest : List Char} {mark : String}

-- ============================================================ drawings

/-- The text opens with a subject, which has a mark behind it, and so it is
read: as a name with the mark behind it, and the same is left. -/
def Opens (text subject : List Char) (mark : String) (name rest : List Char) : Prop :=
  text = subject ++ ' ' :: (mark.toList ++ rest) ∧ readNode? mark text = some (name, rest)

/-- The name that is read for the node, where those of states are given. -/
def End.named (name : Symbol → List Char) : End → List Char
  | marker => startMarker
  | state s => name s

/-- The nodes of a drawing, in the order of their statements. -/
def Drawing.ends (d : Drawing) : List End := d.states.map (fun s => End.state s.1) ++ [.marker]

/-- With these names for the states, each state has a statement of its own
that is read as one on the node of its name, the ends of edges are read as
the names of what they join, and different nodes have different names. -/
structure Drawing.Named (d : Drawing) (name : Symbol → List Char) : Prop where
  nodes : ∀ background, List.Forall₂
    (fun e line => ∃ rest, Opens line.toList (identifier e.name) "[" (e.named name) rest)
    d.ends ((d.opening background).drop 3)
  edges : ∀ e ∈ d.edges, ∃ rest more,
    Opens e.statement.toList (edgeEnd e.source.name) "->" (e.source.named name) (' ' :: rest) ∧
      Opens rest (edgeEnd e.target.name) "[" (e.target.named name) more
  apart : (d.ends.map (End.named name)).Nodup

/-- The node is read as its name. -/
def End.Reads (name : Symbol → List Char) : End → Prop
  | marker => True
  | state s => Legible (nodeName s) ∧ shown (nodeName s) = name s

/-- No colon ends the name of the node. -/
def End.Joinable : End → Prop
  | marker => True
  | state s => ¬EndsInColon s.spelling.toList

variable {name : Symbol → List Char} {e : End} {text : List Char} {d : Drawing}

theorem readNode?_startMarker (hmark : mark ∈ marks) (rest : List Char) :
    readNode? mark (startMarker ++ ' ' :: (mark.toList ++ rest)) = some (startMarker, rest) := by
  have hspace := forall_head?_isBareRest (c := ' ') (by decide) (mark.toList ++ rest)
  have hword : startMarker = 'i' :: "nit".toList := rfl
  have hnit : ∀ d ∈ "nit".toList, isBareRest d = true := List.all_eq_true.1 (by decide)
  have hread : readValue? (skipBlanks ('i' :: "nit".toList ++ ' ' :: (mark.toList ++ rest))) =
      some (.text ('i' :: "nit".toList), ' ' :: (mark.toList ++ rest)) :=
    readValue?_bare (by decide) hnit (by decide) hspace
  rw [hword, readNode?_eq hread, skipMark?_mark hmark]
  rfl

theorem opens_identifier_iff (hmark : mark ∈ marks) :
    Opens text (identifier e.name) mark (e.named name) rest ↔
      e.Reads name ∧ text = identifier e.name ++ ' ' :: (mark.toList ++ rest) := by
  refine Iff.trans (and_congr_right fun htext => ?_) and_comm
  subst htext
  cases e with
  | marker => exact iff_of_true (readNode?_startMarker hmark rest) trivial
  | state s => exact readNode?_identifier_iff hmark (isName_nodeName s)

theorem opens_edgeEnd_iff (hmark : mark ∈ marks) :
    Opens text (edgeEnd e.name) mark (e.named name) rest ↔
      (e.Joinable ∧ e.Reads name) ∧ text = edgeEnd e.name ++ ' ' :: (mark.toList ++ rest) := by
  refine Iff.trans (and_congr_right fun htext => ?_) and_comm
  subst htext
  cases e with
  | marker => exact iff_of_true (readNode?_startMarker hmark rest) ⟨trivial, trivial⟩
  | state s => exact readNode?_edgeEnd_iff hmark s

/-- Behind the first three lines of the source there is for each node a
statement that has its identifier as the subject. -/
theorem forall₂_opening (d : Drawing) (background : String) : List.Forall₂
    (fun e line => ∃ rest, line.toList = identifier e.name ++ ' ' :: ("[".toList ++ rest)) d.ends
    ((d.opening background).drop 3) := by
  have hlines : (d.opening background).drop 3 =
      d.states.map (fun s => nodeStatement s.1 s.2) ++ [statement startMarker
        [("shape", "point".toList), ("label", attributeValue []), ("color", foreground.toList)]] :=
    rfl
  rw [hlines]
  refine List.rel_append ?_ (List.Forall₂.cons ⟨_, toList_statement _ _⟩ List.Forall₂.nil)
  rw [List.forall₂_map_left_iff, List.forall₂_map_right_iff, List.forall₂_same]
  exact fun s _ => ⟨_, toList_statement _ _⟩

theorem nodes_iff (d : Drawing) (background : String) : List.Forall₂
    (fun e (line : String) => ∃ rest, Opens line.toList (identifier e.name) "[" (e.named name) rest)
    d.ends ((d.opening background).drop 3) ↔ ∀ e ∈ d.ends, e.Reads name := by
  have hbracket : "[" ∈ marks := by decide
  simp only [opens_identifier_iff hbracket, exists_and_left]
  rw [List.forall₂_and_left]
  exact and_iff_left (forall₂_opening d background)

theorem edge_iff (l : DrawnEdge) : (∃ rest more,
    Opens l.statement.toList (edgeEnd l.source.name) "->" (l.source.named name) (' ' :: rest) ∧
      Opens rest (edgeEnd l.target.name) "[" (l.target.named name) more) ↔
    (l.source.Joinable ∧ l.source.Reads name) ∧ l.target.Joinable ∧ l.target.Reads name := by
  have hbracket : "[" ∈ marks := by decide
  have harrow : "->" ∈ marks := by decide
  obtain ⟨attributes, hstatement⟩ : ∃ attributes,
      l.statement = statement (arrow l.source.name l.target.name) attributes := ⟨_, rfl⟩
  simp only [opens_edgeEnd_iff hbracket, opens_edgeEnd_iff harrow]
  constructor
  · rintro ⟨rest, more, ⟨hsource, -⟩, htarget, -⟩
    exact ⟨hsource, htarget⟩
  · rintro ⟨hsource, htarget⟩
    rw [hstatement, toList_statement_arrow]
    exact ⟨_, _, ⟨hsource, rfl⟩, htarget, rfl⟩

theorem Drawing.named_iff (d : Drawing) (name : Symbol → List Char) : d.Named name ↔
    (∀ e ∈ d.ends, e.Reads name) ∧ (∀ l ∈ d.edges, (l.source.Joinable ∧ l.source.Reads name) ∧
      l.target.Joinable ∧ l.target.Reads name) ∧ (d.ends.map (End.named name)).Nodup := by
  constructor
  · intro h
    exact ⟨(nodes_iff d "").1 (h.nodes ""), fun l hl => (edge_iff l).1 (h.edges l hl), h.apart⟩
  · rintro ⟨hreads, hedges, hapart⟩
    exact ⟨fun background => (nodes_iff d background).2 hreads,
      fun l hl => (edge_iff l).2 (hedges l hl), hapart⟩

/-- The characters that are not kept in all names, or that names are cut at. -/
def specials : List Char := [':', Text.doubleQuote, '\\', '\n', '\r']

/-- The text has none of these. -/
def Plain (s : List Char) : Prop := ∀ c ∈ specials, c ∉ s

instance (s : List Char) : Decidable (Plain s) := List.decidableBAll _ _

/-- The node of a state with such a text has a name that is read as it is. -/
theorem legible_of_plain {s : Symbol} (h : Plain s.spelling.toList) :
    Legible (nodeName s) ∧ shown (nodeName s) = 'q' :: s.spelling.toList := by
  have hname : nodeName s = 'q' :: s.spelling.toList := by
    rw [nodeName_eq, stem_of_not_mem (h ':' (by decide))]
  have hmem : ∀ c ∈ [Text.doubleQuote, '\\', '\n', '\r'], c ∉ nodeName s := by
    intro c hc
    rw [hname]
    refine List.not_mem_cons_of_ne_of_not_mem ?_ (h c (List.mem_cons_of_mem _ hc))
    rintro rfl
    exact absurd hc (by decide)
  refine ⟨⟨fun hcut => hmem _ (by decide) hcut.1, fun hback => ?_⟩, ?_⟩
  · exact hmem '\\' (by decide) (List.mem_of_getLast? hback)
  · rw [← hname, shown]
    split
    · rcases withoutFinalNewline_cases (nodeName s) with ⟨hn, -⟩ | hn
      · exact hn
      · exact absurd (hn ▸ List.mem_append_right _ List.mem_cons_self) (hmem '\n' (by decide))
    · exact spelled_eq (hmem '\n' (by decide)) (hmem '\r' (by decide))

end Dot

namespace Symbol

variable {s t : Symbol}

theorem plain_spelling (h : s.IsNumber) : Dot.Plain s.spelling.toList := by
  have hsign : Dot.specials.all (fun c => !(c.isDigit || c == '-')) = true := by decide
  have hword : Dot.specials.all (fun c => !"TrueFalse".toList.contains c) = true := by decide
  intro c hc hmem
  rw [isNumber_iff] at h
  cases s with
  | null => cases h
  | str _ => cases h
  | int n =>
      have hnone := List.all_eq_true.1 hsign c hc
      rcases (spelling_int n).2 c hmem with hdigit | rfl
      · rw [hdigit] at hnone
        cases hnone
      · exact absurd hnone (by decide)
  | bool b =>
      have hnone := List.all_eq_true.1 hword c hc
      rw [List.contains_iff_mem.2 ((mem_spelling_bool b).2 c hmem)] at hnone
      cases hnone

end Symbol

namespace Automaton

open Dot (EndsInColon Legible End nodeName shown)

variable {A : Automaton} {d : Dot.Drawing} {s : Symbol} {e : End}

/-- The conditions on the texts of states under which the nodes of their
drawing have names: those that are written can be read, a colon at the end
meets no edge, and what is read is different for different states. -/
structure Nameable (A : Automaton) : Prop where
  legible : ∀ s ∈ A.states.toList, Legible (nodeName s)
  joinable : ∀ s ∈ A.states.toList, EndsInColon s.spelling.toList →
    A.alphabet.isEmpty = true ∧ ¬s ≈ A.start
  apart : (A.states.toList.map fun s => shown (nodeName s)).Nodup

theorem nameable_iff : A.Nameable ↔ (∀ s ∈ A.states.toList, Legible (nodeName s)) ∧
    (∀ s ∈ A.states.toList, EndsInColon s.spelling.toList →
      A.alphabet.isEmpty = true ∧ ¬s ≈ A.start) ∧
    (A.states.toList.map fun s => shown (nodeName s)).Nodup :=
  ⟨fun h => ⟨h.legible, h.joinable, h.apart⟩, fun h => ⟨h.1, h.2.1, h.2.2⟩⟩

instance (A : Automaton) : Decidable A.Nameable := decidable_of_iff _ nameable_iff.symm

section Drawn

variable (hcomparable : Symbol.Comparable A.states.toList) (hd : A.drawing = .ok d)
include hcomparable hd

theorem ends_of_drawing : d.ends = A.states.toList.map .state ++ [.marker] := by
  obtain ⟨-, rfl⟩ := (drawing_eq_ok_iff hcomparable).1 hd
  unfold Dot.Drawing.ends drawn
  rw [List.map_map]
  rfl

/-- Edges join the marker, the start, and all states if there are letters. -/
theorem exists_edge_of_drawing_iff : (∃ l ∈ d.edges, l.source = e ∨ l.target = e) ↔ e = .marker ∨
    ∃ s ∈ A.states.toList, e = .state s ∧ (A.alphabet.isEmpty = false ∨ s ≈ A.start) := by
  obtain ⟨-, rfl⟩ := (drawing_eq_ok_iff hcomparable).1 hd
  constructor
  · rintro ⟨l, hl, hends⟩
    rcases List.mem_cons.1 hl with rfl | hl
    · rcases hends with rfl | rfl
      · exact Or.inl rfl
      · exact Or.inr ⟨_, SymbolSet.written_mem A.start_mem, rfl,
          Or.inr (SymbolSet.written_alike A.start_mem)⟩
    · obtain ⟨a, ha, rfl⟩ := List.mem_map.1 hl
      obtain ⟨e', he, rfl⟩ := mem_arcsOf_walk.1 ha
      obtain ⟨c, hc, -⟩ := exists_letter_of_mem_edges he
      have hempty := Partition.isEmpty_eq_false_of_mem (SymbolSet.mem_of_mem_toList hc)
      rcases hends with rfl | rfl
      · exact Or.inr ⟨_, (mem_edges.1 he).1, rfl, Or.inl hempty⟩
      · exact Or.inr ⟨_, SymbolSet.written_mem (target_mem_of_mem_edges he), rfl, Or.inl hempty⟩
  · rintro (rfl | ⟨s, hs, rfl, hempty | hstart⟩)
    · exact ⟨_, List.mem_cons_self, Or.inl rfl⟩
    · have hne : ¬∀ c, ¬c ∈ A.alphabet := SymbolSet.isEmpty_iff.not.1 (by simp [hempty])
      obtain ⟨c, hc⟩ := not_forall_not.1 hne
      obtain ⟨e, he, hsource, -⟩ := exists_edge (SymbolSet.mem_of_mem_toList hs) hc
      have hsame : e.source = s := SymbolSet.eq_of_alike (mem_edges.1 he).1 hs hsource
      refine ⟨(A.arcOf e).drawn, List.mem_cons_of_mem _ (List.mem_map_of_mem ?_), Or.inl ?_⟩
      · exact mem_arcsOf_walk.2 ⟨e, he, rfl⟩
      · exact congrArg End.state hsame
    · refine ⟨_, List.mem_cons_self, Or.inr (congrArg End.state ?_)⟩
      refine SymbolSet.eq_of_alike (SymbolSet.written_mem A.start_mem) hs ?_
      exact Setoid.trans (SymbolSet.written_alike A.start_mem) (Setoid.symm hstart)

/-- What holds of all that edges join. -/
theorem forall_edges_iff (P : End → Prop) : (∀ l ∈ d.edges, P l.source ∧ P l.target) ↔
    P .marker ∧ ∀ s ∈ A.states.toList, A.alphabet.isEmpty = false ∨ s ≈ A.start → P (.state s) := by
  have hjoined : ∀ e, (∃ l ∈ d.edges, l.source = e ∨ l.target = e) ↔ _ :=
    fun e => exists_edge_of_drawing_iff hcomparable hd
  constructor
  · intro h
    have hends : ∀ e, (∃ l ∈ d.edges, l.source = e ∨ l.target = e) → P e := by
      rintro e ⟨l, hl, rfl | rfl⟩
      · exact (h l hl).1
      · exact (h l hl).2
    exact ⟨hends _ ((hjoined _).2 (Or.inl rfl)),
      fun s hs hmet => hends _ ((hjoined _).2 (Or.inr ⟨s, hs, rfl, hmet⟩))⟩
  · rintro ⟨hmarker, hstates⟩
    have hends : ∀ e, (∃ l ∈ d.edges, l.source = e ∨ l.target = e) → P e := by
      intro e he
      rcases (hjoined e).1 he with rfl | ⟨s, hs, rfl, hmet⟩
      · exact hmarker
      · exact hstates s hs hmet
    exact fun l hl => ⟨hends _ ⟨l, hl, Or.inl rfl⟩, hends _ ⟨l, hl, Or.inr rfl⟩⟩

/-- Names of states that are read begin like all of them, and the marker's does not. -/
theorem nodup_named_iff {name : Symbol → List Char}
    (hname : ∀ s ∈ A.states.toList, shown (nodeName s) = name s) :
    (d.ends.map (End.named name)).Nodup ↔ (A.states.toList.map name).Nodup := by
  have hmarker : Dot.startMarker ∉ A.states.toList.map name := by
    intro hmem
    obtain ⟨s, hs, heq⟩ := List.mem_map.1 hmem
    have hq := Dot.head?_shown (Dot.isName_nodeName s)
    rw [hname s hs, heq] at hq
    exact absurd hq (by decide)
  have hmap : d.ends.map (End.named name) = A.states.toList.map name ++ [Dot.startMarker] := by
    rw [ends_of_drawing hcomparable hd, List.map_append, List.map_map]
    rfl
  rw [hmap, ← List.concat_eq_append, List.nodup_concat]
  exact and_iff_right hmarker

theorem named_of_drawing_iff (name : Symbol → List Char) : d.Named name ↔
    (∀ s ∈ A.states.toList, Legible (nodeName s) ∧ shown (nodeName s) = name s) ∧
    (∀ s ∈ A.states.toList, EndsInColon s.spelling.toList →
      A.alphabet.isEmpty = true ∧ ¬s ≈ A.start) ∧
    (A.states.toList.map name).Nodup := by
  have hreads : (∀ e ∈ d.ends, e.Reads name) ↔
      ∀ s ∈ A.states.toList, Legible (nodeName s) ∧ shown (nodeName s) = name s := by
    rw [ends_of_drawing hcomparable hd, List.forall_mem_append, List.forall_mem_map]
    exact and_iff_left fun e he => List.mem_singleton.1 he ▸ trivial
  rw [d.named_iff, hreads, forall_edges_iff hcomparable hd fun e => e.Joinable ∧ e.Reads name]
  refine and_congr_right fun hread => and_congr ?_ ?_
  · constructor
    · intro h s hs hcolon
      have hmet : ¬(A.alphabet.isEmpty = false ∨ s ≈ A.start) :=
        fun hmet => (h.2 s hs hmet).1 hcolon
      rwa [not_or, Bool.not_eq_false] at hmet
    · intro h
      refine ⟨⟨trivial, trivial⟩, fun s hs hmet => ⟨fun hcolon => ?_, hread s hs⟩⟩
      obtain ⟨hempty, hstart⟩ := h s hs hcolon
      rcases hmet with hmet | hmet
      · rw [hempty] at hmet
        cases hmet
      · exact hstart hmet
  · exact nodup_named_iff hcomparable hd fun s hs => (hread s hs).2

theorem exists_named_iff : (∃ name, d.Named name) ↔ A.Nameable := by
  rw [nameable_iff]
  constructor
  · rintro ⟨name, hname⟩
    obtain ⟨hread, hjoinable, hapart⟩ := (named_of_drawing_iff hcomparable hd name).1 hname
    refine ⟨fun s hs => (hread s hs).1, hjoinable, ?_⟩
    rwa [List.map_congr_left fun s hs => (hread s hs).2]
  · rintro ⟨hlegible, hjoinable, hapart⟩
    refine ⟨fun s => shown (nodeName s), (named_of_drawing_iff hcomparable hd _).2 ?_⟩
    exact ⟨fun s hs => ⟨hlegible s hs, rfl⟩, hjoinable, hapart⟩

end Drawn

/-- Numbers and plain texts make names that are read as they are. -/
theorem nameable_of_plain (hcomparable : Symbol.Comparable A.states.toList)
    (h : ∀ s ∈ A.states.toList, s.IsNumber ∨ Dot.Plain s.spelling.toList) :
    A.Nameable := by
  have hplain : ∀ s ∈ A.states.toList, Dot.Plain s.spelling.toList :=
    fun s hs => (h s hs).elim Symbol.plain_spelling id
  refine ⟨fun s hs => (Dot.legible_of_plain (hplain s hs)).1, fun s hs hcolon => ?_, ?_⟩
  · exact absurd (List.mem_of_getLast? hcolon.1) ((hplain s hs) ':' (by decide))
  · rw [List.map_congr_left fun s hs => (Dot.legible_of_plain (hplain s hs)).2]
    refine A.states.nodup_toList.map_on fun s hs t ht heq => ?_
    by_contra hne
    have hcomp := hcomparable.comparable_of_ne hs ht hne
    exact hne (Symbol.eq_of_spelling_eq hcomp (String.toList_inj.1 (List.cons.inj heq).2))

/-- An automaton whose states can be compared has a drawing if no number
has too many digits. The drawing has a statement for each state and each
edge. The statements can be read, with names that tell the states apart,
just if the texts of the states meet the conditions on names, as numbers
do and texts without colons, quotes, backslashes and line breaks. -/
theorem drawing_named_iff (hcomparable : Symbol.Comparable A.states.toList) :
    ((∃ d, A.drawing = .ok d) ↔ A.Writable) ∧
    (∀ d, A.drawing = .ok d → d.states.map Prod.fst = A.states.toList ∧
      (∀ background, d.lines background =
        d.opening background ++ d.edges.map Dot.DrawnEdge.statement ++ ["\x7d"]) ∧
      ((∃ name, d.Named name) ↔ A.Nameable)) ∧
    (A.Writable → (∀ s ∈ A.states.toList, s.IsNumber ∨ Dot.Plain s.spelling.toList) →
      ∃ d name, A.drawing = .ok d ∧ d.Named name) := by
  refine ⟨exists_drawing_iff hcomparable, fun d hd => ?_, fun hwritable hplain => ?_⟩
  · refine ⟨?_, fun _ => Dot.Drawing.lines_eq _ _, exists_named_iff hcomparable hd⟩
    obtain ⟨-, rfl⟩ := (drawing_eq_ok_iff hcomparable).1 hd
    unfold drawn
    rw [List.map_map]
    exact List.map_id _
  · have hd := drawing_eq_ok hcomparable hwritable
    have hnameable := nameable_of_plain hcomparable hplain
    obtain ⟨name, hname⟩ := (exists_named_iff hcomparable hd).2 hnameable
    exact ⟨_, name, hd, hname⟩

/-- All texts but one are changed in the source: one is empty, others have
colons, signs, quotes and line breaks. -/
def changedTexts : Automaton where
  toDescription := Presentation.description
    { states := [.str "", .str "a:0", .str "b:0", .str "-1", .str "c\n",
        .str (.ofList ['d', ' ', Text.doubleQuote, '\n'])]
      alphabet := [.str "x"]
      start := .str ""
      accepting := [.str "-1"]
      delta :=
        [(.str "", [(.str "x", .str "a:0")]), (.str "a:0", [(.str "x", .str "b:0")]),
          (.str "b:0", [(.str "x", .str "-1")]), (.str "-1", [(.str "x", .str "c\n")]),
          (.str "c\n", [(.str "x", .str (.ofList ['d', ' ', Text.doubleQuote, '\n']))]),
          (.str (.ofList ['d', ' ', Text.doubleQuote, '\n']), [(.str "x", .str "")])] }
  start_mem := by decide
  strays_isEmpty := by decide
  gaps_eq_nil := by decide

theorem drawing_named_iff_changedTexts :
    Symbol.Comparable changedTexts.states.toList ∧
      ∃ d name, changedTexts.drawing = .ok d ∧ d.states.map Prod.fst = changedTexts.states.toList ∧
        d.Named name := by
  have hcomparable : Symbol.Comparable changedTexts.states.toList := by decide
  have hnameable : changedTexts.Nameable := by decide +kernel
  obtain ⟨hdrawn, hdrawing, -⟩ := drawing_named_iff hcomparable
  obtain ⟨d, hd⟩ := hdrawn.2 (by decide +kernel)
  obtain ⟨hstates, -, hnamed⟩ := hdrawing d hd
  obtain ⟨name, hname⟩ := hnamed.2 hnameable
  exact ⟨hcomparable, d, name, hd, hstates, hname⟩

/-- The two are drawn as one node, and so their names cannot differ. -/
theorem not_named_colonTexts :
    Symbol.Comparable colonTexts.states.toList ∧ nodeName (.str "a:0") = nodeName (.str "a:1") ∧
      ∃ d, colonTexts.drawing = .ok d ∧ ¬∃ name, d.Named name := by
  have hcomparable : Symbol.Comparable colonTexts.states.toList := by decide
  have hnameable : ¬colonTexts.Nameable := by decide +kernel
  have hdrawing := drawing_eq_ok hcomparable (by decide)
  have hnone := (exists_named_iff hcomparable hdrawing).not.2 hnameable
  exact ⟨hcomparable, by decide, _, hdrawing, hnone⟩

end Automaton

end Automata
