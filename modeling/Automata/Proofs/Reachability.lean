/-
The states that the transition graph leads to: they are the ends of
words, and the automaton without the others runs in step with the whole.

# Searches

A search takes up a node and what follows it, what follows that, and so
on. It finds what follows in any number of steps, and nothing else, if it
may take up enough nodes; that it goes wide or deep first makes no
difference (`mem_visited_iff`). In a graph it finds a node and what edges
lead to from it (`Graph.mem_reachedFrom_iff`).

# Words

The reached states are the start and what edges of the transition graph
lead to from it (`mem_reached_iff_leads`). The start has to be named
beside the walks, which take at least one edge. An edge bears all letters
that lead across, so the reached states are closed under the letters
(`reached_closed`), and a walk along edges spells a word: they are the
ends of words (`mem_reached_iff_after`). What is said of pruned and of
minimal automata is said of words, and comes from the graph this way.

# Pruning

`prune` gives the automaton itself where nothing is to be removed and
its restriction otherwise. `PrunedFrom` says what both have in common,
and is all that is used of a pruned automaton afterwards.
-/
import Mathlib.Logic.Relation
import Automata.Automaton.Reachability
import Automata.Proofs.Restriction

namespace Automata

-- ============================================================ searches

/-- The second symbol is taken up after the first. -/
def Follows (next : Symbol → List Symbol) (s t : Symbol) : Prop := t ∈ next s

section Search

variable {course : Course} {next : Symbol → List Symbol} {n width : Nat} {nodes : List Symbol}
  {x s : Symbol}

/-- A search finds what follows the node that it starts with, in any number
of steps, and nothing else. -/
theorem mem_visited_iff (hcongr : ∀ s t, s ≈ t → next s = next t)
    (hwidth : ∀ s, (next s).length ≤ width)
    (hnodes : ∀ t, Relation.ReflTransGen (Follows next) x t → ∃ k ∈ nodes, k ≈ t)
    (hn : 1 + width * nodes.length ≤ n) :
    s ∈ SymbolSet.ofTree (visited Symbol.order course next n [x]) ↔
      ∃ t, Relation.ReflTransGen (Follows next) x t ∧ t ≈ s := by
  have hstep : ∀ t, Relation.ReflTransGen (Follows next) x t →
      ∀ u ∈ next t, Relation.ReflTransGen (Follows next) x u := fun t ht u hu => ht.tail hu
  have hpending : ∀ t ∈ [x], Relation.ReflTransGen (Follows next) x t :=
    List.forall_mem_singleton.2 .refl
  rw [SymbolSet.mem_ofTree]
  constructor
  · intro hs
    rcases mem_explore hstep hpending hs with hs | ⟨t, ht, hts⟩
    · exact absurd hs (by simp)
    · exact ⟨t, ht, Symbol.order_eq_iff.1 hts⟩
  · intro hs
    obtain ⟨t, ht, hts⟩ := hs
    have hbound : ∀ t, Relation.ReflTransGen (Follows next) x t →
        ∃ k ∈ nodes, Symbol.order k t = .eq := by
      intro t ht
      obtain ⟨k, hk, hkt⟩ := hnodes t ht
      exact ⟨k, hk, Symbol.order_eq_iff.2 hkt⟩
    have henough : allowance nodes (∅ : Std.TreeSet Symbol Symbol.order) width [x] ≤ n :=
      Nat.le_trans (allowance_singleton_le _ _ _) hn
    have hnone : (explore course next (fun _ => false) n
        (∅ : Std.TreeSet Symbol Symbol.order) [x]).1 = none := by
      refine Option.eq_none_iff_forall_ne_some.2 fun y hy => ?_
      exact absurd (stop_of_explore hstep hpending hy).1 (by simp)
    obtain ⟨hx, hclosed⟩ := explore_closed hstep hbound hwidth hpending henough hnone
    -- what is visited is closed under what follows, so nothing that follows is missed
    have hall : ∀ t, Relation.ReflTransGen (Follows next) x t →
        t ∈ visited Symbol.order course next n [x] := by
      intro t ht
      induction ht with
      | refl => exact hx x List.mem_cons_self
      | tail _ hu ih =>
        rcases hclosed _ ih with h' | ⟨y, -, hy, -, hnext⟩
        · exact absurd h' (by simp)
        · refine hnext _ ?_
          rw [hcongr _ _ (Symbol.order_eq_iff.1 hy)]
          exact hu
    exact (Std.TreeSet.mem_congr (Symbol.order_eq_iff.2 hts)).1 (hall t ht)

end Search

namespace Graph

variable {g : Graph} {s t u x : Symbol}

/-- An edge of the graph leads from the one symbol to the other. -/
def Leads (g : Graph) (s t : Symbol) : Prop := ∃ e ∈ g.edges, e.source ≈ s ∧ e.target ≈ t

theorem Leads.congr (h : g.Leads s t) {s' t' : Symbol} (hs : s ≈ s') (ht : t ≈ t') :
    g.Leads s' t' := by
  obtain ⟨e, he, hsource, htarget⟩ := h
  exact ⟨e, he, Setoid.trans hsource hs, Setoid.trans htarget ht⟩

theorem mem_heads : t ∈ g.heads s ↔ ∃ e ∈ g.edges, e.source ≈ s ∧ e.target = t := by
  unfold heads
  simp only [List.mem_map, List.mem_filter, decide_eq_true_eq, and_assoc]

theorem heads_congr (h : s ≈ t) : g.heads s = g.heads t := by
  unfold heads
  refine congrArg _ (List.filter_congr fun e _ => decide_eq_decide.2 ?_)
  exact ⟨fun he => Setoid.trans he h, fun he => Setoid.trans he (Setoid.symm h)⟩

theorem leads_of_follows (h : Follows g.heads s t) : g.Leads s t := by
  obtain ⟨e, he, hs, rfl⟩ := mem_heads.1 h
  exact ⟨e, he, hs, Setoid.refl _⟩

theorem Leads.exists_follows (h : g.Leads s t) : ∃ u, Follows g.heads s u ∧ u ≈ t := by
  obtain ⟨e, he, hs, ht⟩ := h
  exact ⟨e.target, mem_heads.2 ⟨e, he, hs, rfl⟩, ht⟩

theorem transGen_congr (h : Relation.TransGen g.Leads s t) (ht : t ≈ u) :
    Relation.TransGen g.Leads s u := by
  cases h with
  | single h => exact .single (h.congr (Setoid.refl _) ht)
  | tail h h' => exact h.tail (h'.congr (Setoid.refl _) ht)

/-- What is found from a node is the node and what edges lead to from it. -/
theorem mem_reachedFrom_iff :
    s ∈ g.reachedFrom x ↔ s ≈ x ∨ Relation.TransGen g.Leads x s := by
  have hnodes : ∀ t, Relation.ReflTransGen (Follows g.heads) x t →
      ∃ k ∈ x :: g.edges.map Edge.target, k ≈ t := by
    intro t ht
    refine ⟨t, ?_, Setoid.refl t⟩
    rcases Relation.ReflTransGen.cases_tail ht with rfl | ⟨u, -, hu⟩
    · exact List.mem_cons_self
    · obtain ⟨e, he, -, rfl⟩ := mem_heads.1 hu
      exact List.mem_cons_of_mem _ (List.mem_map_of_mem he)
  have hwidth : ∀ s, (g.heads s).length ≤ g.edges.length := by
    intro s
    unfold heads
    rw [List.length_map]
    exact List.length_filter_le _ _
  have hsize : (x :: g.edges.map Edge.target).length = 1 + g.edges.length := by
    rw [List.length_cons, List.length_map, Nat.add_comm]
  have hn : 1 + g.edges.length * (x :: g.edges.map Edge.target).length ≤
      1 + g.edges.length * (1 + g.edges.length) := by
    simp only [hsize, Nat.le_refl]
  refine (mem_visited_iff (fun _ _ => heads_congr) hwidth hnodes hn).trans ?_
  constructor
  · intro h
    obtain ⟨t, ht, hts⟩ := h
    rcases Relation.reflTransGen_iff_eq_or_transGen.1 ht with rfl | ht
    · exact Or.inl (Setoid.symm hts)
    · have hleads : Relation.TransGen g.Leads x t :=
        Relation.TransGen.mono (fun _ _ h => leads_of_follows h) _ _ ht
      exact Or.inr (transGen_congr hleads hts)
  · intro h
    rcases h with h | h
    · exact ⟨x, .refl, Setoid.symm h⟩
    · induction h with
      | single h =>
        obtain ⟨u, hu, hus⟩ := h.exists_follows
        exact ⟨u, .single hu, hus⟩
      | tail _ h ih =>
        obtain ⟨t, ht, hts⟩ := ih
        obtain ⟨u, hu, hus⟩ := (h.congr (Setoid.symm hts) (Setoid.refl _)).exists_follows
        exact ⟨u, ht.tail hu, hus⟩

end Graph

namespace Automaton

variable {A Q : Automaton} {s t c : Symbol}

-- ====================================================== reached states

/-- Edges lead from states to where letters lead. -/
theorem leads_iff : A.diagram.Leads s t ↔ s ∈ A.states ∧ ∃ c ∈ A.alphabet, A.next s c ≈ t := by
  constructor
  · intro h
    obtain ⟨e, he, hs, ht⟩ := h
    obtain ⟨c, hc, u, hmove, hu⟩ := exists_letter_of_mem_edges he
    have hnext : A.next e.source c = u := next_eq_of_move? hmove
    refine ⟨(SymbolSet.mem_congr hs).1 (source_mem_of_mem_edges he), c,
      SymbolSet.mem_of_mem_toList hc, ?_⟩
    refine Setoid.trans (next_congr (Setoid.symm hs) (Setoid.refl c)) ?_
    rw [hnext]
    exact Setoid.trans hu ht
  · intro h
    obtain ⟨hs, c, hc, ht⟩ := h
    obtain ⟨e, he, hsource, htarget⟩ := exists_edge_of_move? hs hc (move?_eq_some_next hs hc)
    exact ⟨e, he, hsource, Setoid.trans htarget ht⟩

/-- The reached states are the start and what edges lead to from it. -/
theorem mem_reached_iff_leads :
    s ∈ A.reached ↔ s ≈ A.start ∨ Relation.TransGen A.diagram.Leads A.start s :=
  Graph.mem_reachedFrom_iff

/-- Edges do not lead out of the reached states. -/
theorem mem_reached_of_leads (hs : s ∈ A.reached) (h : A.diagram.Leads s t) : t ∈ A.reached := by
  rw [mem_reached_iff_leads]
  rcases mem_reached_iff_leads.1 hs with hs | hs
  · exact Or.inr (.single (h.congr hs (Setoid.refl t)))
  · exact Or.inr (hs.tail h)

theorem mem_states_of_mem_reached (h : s ∈ A.reached) : s ∈ A.states := by
  have htarget : ∀ {s t}, A.diagram.Leads s t → t ∈ A.states := by
    intro s t hst
    obtain ⟨hs, c, hc, ht⟩ := leads_iff.1 hst
    exact (SymbolSet.mem_congr ht).1 (next_mem hs hc)
  rcases mem_reached_iff_leads.1 h with h | h
  · exact (SymbolSet.mem_congr h).2 A.start_mem
  · cases h with
    | single h => exact htarget h
    | tail _ h => exact htarget h

/-- The reached states hold the start, and with a state all that letters
lead to. -/
theorem reached_closed :
    A.start ∈ A.reached ∧
      ∀ {s c}, s ∈ A.reached → c ∈ A.alphabet → A.next s c ∈ A.reached := by
  refine ⟨mem_reached_iff_leads.2 (Or.inl (Setoid.refl _)), fun {s c} hs hc => ?_⟩
  refine mem_reached_of_leads hs (leads_iff.2 ⟨mem_states_of_mem_reached hs, c, hc, ?_⟩)
  exact Setoid.refl _

theorem after_mem_reached {w : List Symbol} (hs : s ∈ A.reached) (hw : A.Over w) :
    A.after s w ∈ A.reached := by
  induction w generalizing s with
  | nil => exact hs
  | cons c w ih =>
      obtain ⟨hc, hw⟩ := over_cons.1 hw
      exact ih (reached_closed.2 hs hc) hw

/-- A walk along edges spells a word. -/
theorem exists_after_of_leads (h : Relation.TransGen A.diagram.Leads A.start s) :
    ∃ w, A.Over w ∧ A.after A.start w ≈ s := by
  have hstep : ∀ {w s t}, A.Over w → A.after A.start w ≈ s → A.diagram.Leads s t →
      ∃ v, A.Over v ∧ A.after A.start v ≈ t := by
    intro w s t hw hws hst
    obtain ⟨-, c, hc, ht⟩ := leads_iff.1 hst
    refine ⟨w ++ [c], over_append.2 ⟨hw, over_cons.2 ⟨hc, over_nil⟩⟩, ?_⟩
    rw [after_append]
    exact Setoid.trans (next_congr hws (Setoid.refl c)) ht
  induction h with
  | single h => exact hstep over_nil (Setoid.refl _) h
  | tail _ h ih =>
    obtain ⟨w, hw, hws⟩ := ih
    exact hstep hw hws h

/-- The reached states are the ends of words. -/
theorem mem_reached_iff_after :
    s ∈ A.reached ↔ ∃ w, A.Over w ∧ A.after A.start w ≈ s := by
  constructor
  · intro h
    rcases mem_reached_iff_leads.1 h with h | h
    · exact ⟨[], over_nil, Setoid.symm h⟩
    · exact exists_after_of_leads h
  · intro h
    obtain ⟨w, hw, hws⟩ := h
    exact (SymbolSet.mem_congr hws).1 (after_mem_reached reached_closed.1 hw)

theorem mem_reached_iff : s ∈ A.reached ↔ ∃ t, A.Reachable t ∧ t ≈ s := by
  simp only [mem_reached_iff_after, reachable_iff]
  constructor
  · intro h
    obtain ⟨w, hw, hws⟩ := h
    exact ⟨_, ⟨w, hw, rfl⟩, hws⟩
  · intro h
    obtain ⟨_, ⟨w, hw, rfl⟩, hws⟩ := h
    exact ⟨w, hw, hws⟩

/-- What minimization asks of an automaton: no state is null, and the
states that words lead to can be compared by size. -/
structure Minimizable (A : Automaton) : Prop where
  null_not_mem : ¬Symbol.null ∈ A.states
  comparable : ∀ s t, A.Reachable s → A.Reachable t → s.comparable t = true

theorem Minimizable.comparable_reached (h : A.Minimizable) :
    Symbol.Comparable A.reached.toList := by
  refine SymbolSet.comparable_toList_iff.2 fun x hx y hy _ => ?_
  obtain ⟨s, hs, hsx⟩ := mem_reached_iff.1 hx
  obtain ⟨t, ht, hty⟩ := mem_reached_iff.1 hy
  rw [← Symbol.comparable_congr hsx hty]
  exact h.comparable s t hs ht

/-- Whether an automaton can be minimized shows in its search. -/
theorem minimizable_iff :
    A.Minimizable ↔ ¬Symbol.null ∈ A.states ∧ Symbol.Comparable A.reached.toList := by
  constructor
  · intro h
    exact ⟨h.null_not_mem, h.comparable_reached⟩
  · intro h
    refine ⟨h.1, fun s t hs ht => ?_⟩
    obtain ⟨x, hx, hsx⟩ := mem_reached_iff.2 ⟨s, hs, Setoid.refl s⟩
    obtain ⟨y, hy, hty⟩ := mem_reached_iff.2 ⟨t, ht, Setoid.refl t⟩
    rw [Symbol.comparable_congr hsx hty]
    by_cases hxy : x = y
    · subst hxy
      refine Symbol.comparable_self fun hnull => h.1 ?_
      rw [← hnull]
      exact mem_states_of_mem_reached (SymbolSet.mem_of_mem_toList hx)
    · exact h.2.comparable_of_ne hx hy hxy

/-- It is enough that all states can be compared. -/
theorem minimizable_of_comparable (h : Symbol.Comparable A.states.toList)
    (hnull : ¬Symbol.null ∈ A.states) : A.Minimizable := by
  refine minimizable_iff.2 ⟨hnull, ?_⟩
  exact SymbolSet.comparable_of_subset h fun _ => mem_states_of_mem_reached

instance (A : Automaton) : Decidable A.Minimizable := decidable_of_iff _ minimizable_iff.symm

-- ============================================================ pruning

/-- The automaton is the part of another on its reached states. -/
structure PrunedFrom (Q A : Automaton) : Prop where
  states : Q.states ≈ A.reached
  alphabet : Q.alphabet = A.alphabet
  start : Q.start = A.start
  accepting : ∀ {s}, s ∈ A.reached → (s ∈ Q.accepting ↔ s ∈ A.accepting)
  move? : ∀ {s}, s ∈ A.reached → ∀ c, Q.move? s c = A.move? s c

theorem reachable_eq_ok (h : ¬Symbol.null ∈ A.states) : A.reachable = .ok A.reached := by
  unfold reachable
  rw [graph_eq_ok h]
  rfl

/-- An automaton to all whose states words lead is left as it is. -/
theorem prune_eq_self (h : ¬Symbol.null ∈ A.states) (hall : A.reached ≈ A.states) :
    A.prune = .ok A := by
  unfold prune
  rw [reachable_eq_ok h]
  exact if_pos hall

/-- The part on the states that words lead to, in whatever way these are
written. -/
theorem exists_prunedFrom {S : SymbolSet} (hS : S ≈ A.reached) :
    ∃ Q, (if S ≈ A.states then .ok A else A.restrict S) = .ok Q ∧ Q.PrunedFrom A := by
  have hmem := SymbolSet.alike_iff.1 hS
  by_cases hall : S ≈ A.states
  · refine ⟨A, if_pos hall, Setoid.trans (Setoid.symm hall) hS, rfl, rfl, fun _ => Iff.rfl,
      fun _ _ => rfl⟩
  · have hreach : ∀ {s}, s ∈ S → s ∈ A.reached := fun hs => (hmem _).1 hs
    have hstate : ∀ {s}, s ∈ S → s ∈ A.states := fun hs => mem_states_of_mem_reached (hreach hs)
    obtain ⟨Q, hQ, hpart⟩ := exists_restrict (fun s hs => A.exists_row (hstate hs))
      ((hmem _).2 reached_closed.1) fun s hs c hc =>
        ⟨_, (hmem _).2 (reached_closed.2 (hreach hs) hc), move?_eq_some_next (hstate hs) hc⟩
    refine ⟨Q, (if_neg hall).trans hQ, hpart.states ▸ hS, hpart.alphabet, hpart.start, ?_, ?_⟩
    · intro s hs
      rw [hpart.accepting, SymbolSet.mem_inter, and_iff_left ((hmem s).2 hs)]
    · intro s hs c
      exact hpart.move? ((hmem s).2 hs) c

theorem exists_prune (h : ¬Symbol.null ∈ A.states) :
    ∃ Q, A.prune = .ok Q ∧ Q.PrunedFrom A := by
  unfold prune
  rw [reachable_eq_ok h]
  exact exists_prunedFrom (Setoid.refl _)

namespace PrunedFrom

theorem mem_states_iff (h : Q.PrunedFrom A) {s : Symbol} : s ∈ Q.states ↔ s ∈ A.reached :=
  SymbolSet.alike_iff.1 h.states s

theorem next (h : Q.PrunedFrom A) {s : Symbol} (hs : s ∈ A.reached) (c : Symbol) :
    Q.next s c = A.next s c := by
  unfold Automaton.next
  rw [h.move? hs]

/-- The whole and its reached part run through the same states. -/
theorem simulation (h : Q.PrunedFrom A) : Simulation A Q fun s t => s ∈ A.reached ∧ t = s where
  alphabet := SymbolSet.alike_of_eq h.alphabet.symm
  start := ⟨reached_closed.1, h.start⟩
  accepting := by
    intro s t hst
    rw [hst.2, h.accepting hst.1]
  next := by
    intro s t c hst hc
    rw [hst.2]
    exact ⟨reached_closed.2 hst.1 hc, h.next hst.1 c⟩

/-- Words lead to every state of the reached part. -/
theorem exists_after (h : Q.PrunedFrom A) {s : Symbol} (hs : s ∈ Q.states) :
    ∃ w, Q.Over w ∧ Q.after Q.start w ≈ s := by
  obtain ⟨w, hw, hts⟩ := mem_reached_iff_after.1 (h.mem_states_iff.1 hs)
  obtain ⟨-, hsame⟩ := h.simulation.after h.simulation.start hw
  refine ⟨w, (over_congr h.simulation.alphabet).1 hw, ?_⟩
  rw [hsame]
  exact hts

end PrunedFrom

end Automaton

end Automata
