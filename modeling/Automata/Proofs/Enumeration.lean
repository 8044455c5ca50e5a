/-
The order in which sets are gone through leaves no trace in the results.

A set has no order of its own, and may be gone through in another order
whenever it is. An `Enumeration` gives the order for each occasion on
which minimization goes through a set: the states and the letters, to draw
the transition graph, the states of a block that is split or of which the
least is found, and the letters of a new row. The operations are repeated
with the order as a parameter; with the listing order they are those that
are run (`minimizationIn_listing`).

# Where the order gets lost

The least member that is found is one in any order, so no more than one
order of blocks comes from it (`ofBlocksIn_eq`). Going through a block in
another order rearranges its groups, and the groups of all blocks with
them, but no group holds other states (`perm_gather`). As a partition is
put in the order of least members, the same blocks make the same
partition, with the same numbers (`ofBlocks_eq_of_perm`), and the
signatures of the next round are the same again. So each round gives one
partition in whatever order (`Covers.refineIn_eq`), and the course is one,
by induction on the rounds (`refinementsIn_eq`). The edges that are drawn
lead the same way (`leads_diagramIn_eq`), so the same states are reached,
perhaps written in another way, and the entries of a row make one row.

# Presentations

An automaton may itself be presented in any order and with repetitions.
What is presented is then alike, and agrees on everything that words lead
to. So both ways to change the order change no result
(`results_eq_of_relists`).
-/
import Automata.Proofs.Agreement
import Automata.Proofs.Pruning
import Automata.Proofs.Relisting

namespace Automata

-- ======================================================= enumerations

/-- What the members of a set are gone through for. -/
inductive Occasion where
  /-- The states, to draw the edges that leave them. -/
  | draw
  /-- The letters, to draw the edges that leave a state. -/
  | leave (state : Symbol)
  /-- The states of a block, to find the least. -/
  | least
  /-- The states of a block, to split it in a round against a partition. -/
  | round (partition : Partition)
  /-- The letters, to make the row of the block that a state stands for. -/
  | row (representative : Symbol)

/-- The order in which the members of each set are gone through on each
occasion. -/
structure Enumeration where
  members : Occasion → SymbolSet → List Symbol
  perm : ∀ o S, (members o S).Perm S.toList

/-- Goes through every set in listing order. -/
def Enumeration.listing : Enumeration where
  members _ S := S.listing
  perm _ S := S.perm_listing

/-- Goes through every set from the largest member down. -/
def Enumeration.falling : Enumeration where
  members _ S := S.toList.reverse
  perm _ S := List.reverse_perm S.toList

/-- The first of the smallest among a symbol and more. -/
def Symbol.smallest (m : Symbol) : List Symbol → Symbol
  | [] => m
  | x :: xs => smallest (if x < m then x else m) xs

theorem Symbol.smallest_spec (m : Symbol) (xs : List Symbol) :
    smallest m xs ∈ m :: xs ∧ ∀ x ∈ m :: xs, ¬x < smallest m xs := by
  induction xs generalizing m with
  | nil => exact ⟨List.mem_cons_self, List.forall_mem_singleton.2 (lt_irrefl m)⟩
  | cons x xs ih =>
      obtain ⟨hmem, hleast⟩ := ih (if x < m then x else m)
      obtain ⟨hkept, hrest⟩ := List.forall_mem_cons.1 hleast
      -- what is kept is one of the two, and neither is smaller
      have hone : (if x < m then x else m) ∈ [m, x] := by split <;> simp
      have hm : ¬m < if x < m then x else m := by
        split
        · exact lt_asymm ‹_›
        · exact lt_irrefl m
      have hx : ¬x < if x < m then x else m := by
        split
        · exact lt_irrefl x
        · assumption
      refine ⟨?_, List.forall_mem_cons.2 ⟨not_lt_trans hkept hm,
        List.forall_mem_cons.2 ⟨not_lt_trans hkept hx, hrest⟩⟩⟩
      rcases List.mem_cons.1 hmem with hmem | hmem
      · rw [smallest, hmem]
        exact List.mem_append_left xs hone
      · exact List.mem_cons_of_mem m (List.mem_cons_of_mem x hmem)

namespace Enumeration

/-- The least member of a set that is found. -/
def least? (e : Enumeration) (S : SymbolSet) : Option Symbol :=
  match e.members .least S with
  | [] => none
  | x :: xs => some (x.smallest xs)

theorem least?_eq (e : Enumeration) : e.least? = SymbolSet.least? := by
  funext S
  have hperm := e.perm .least S
  unfold least?
  cases hxs : e.members .least S with
  | nil =>
      rw [hxs] at hperm
      refine (SymbolSet.least?_eq_none_iff.2 (SymbolSet.isEmpty_iff.2 fun x hx => ?_)).symm
      obtain ⟨y, hy, -⟩ := hx
      exact List.not_mem_nil (hperm.mem_iff.2 hy)
  | cons x xs =>
      rw [hxs] at hperm
      obtain ⟨hmem, hleast⟩ := x.smallest_spec xs
      refine (SymbolSet.least?_eq_some_iff.2 ⟨hperm.mem_iff.1 hmem, fun y hy => ?_⟩).symm
      obtain ⟨z, hz, hyz⟩ := hy
      rw [Symbol.lt_congr hyz (Setoid.refl _)]
      exact hleast z (hperm.mem_iff.2 hz)

/-- Whether the least member that is found in the first set is smaller. -/
def leads (e : Enumeration) (b c : SymbolSet) : Bool := Symbol.precedes (e.least? b) (e.least? c)

theorem leads_eq (e : Enumeration) : e.leads = SymbolSet.leads := by
  funext b c
  unfold leads SymbolSet.leads
  rw [e.least?_eq]

end Enumeration

namespace Partition

/-- The partition into the given blocks, put in the order of the least
members that are found. -/
def ofBlocksIn (e : Enumeration) (bs : List SymbolSet) : Except Fault Partition :=
  if hs : Sortable (bs.filter fun b => !b.isEmpty) then
    let ordered := sortBy e.leads (bs.filter fun b => !b.isEmpty)
    let index := numbering ordered
    if hsize : index.size = memberCount ordered then
      have hordered : AreBlocks ordered := by
        have hn : ∀ b ∈ bs.filter fun b => !b.isEmpty, b.isEmpty = false :=
          fun _ hb => by simpa using (List.mem_filter.1 hb).2
        have hdistinct : Symbol.Distinct (membersOf (sortBy e.leads _)) :=
          size_numbering_iff.1 hsize
        show AreBlocks (sortBy e.leads _)
        rw [e.leads_eq] at hdistinct ⊢
        exact areBlocks_sortBy hn hs hdistinct
      .ok ⟨ordered, index, hordered, rfl⟩
    else .error .overlap
  else .error .incomparable

theorem ofBlocksIn_eq (e : Enumeration) (bs : List SymbolSet) : ofBlocksIn e bs = ofBlocks bs := by
  unfold ofBlocksIn ofBlocks
  simp only [e.leads_eq]

/-- The least member that is found in each block. -/
def representativesIn (e : Enumeration) (P : Partition) : List Symbol :=
  P.blocks.filterMap e.least?

theorem representativesIn_eq (e : Enumeration) (P : Partition) :
    P.representativesIn e = P.representatives := by
  unfold representativesIn representatives
  rw [e.least?_eq]

/-- The groups of states in a set with equal signatures, in the order of
their first members. -/
def splitIn (e : Enumeration) (P : Partition) (A : Automaton) (states : SymbolSet)
    (letters : List Symbol) : Except Fault (List SymbolSet) := do
  let marked ← (e.members (.round P) states).mapM fun s => return (s, ← P.signature A s letters)
  return gather marked

/-- The partition after one round against this one. -/
def refineIn (e : Enumeration) (P : Partition) (A : Automaton) : Except Fault Partition := do
  let groups ← P.blocks.mapM fun b => P.splitIn e A b A.letters
  ofBlocksIn e groups.flatten

theorem refineIn_listing (P : Partition) (A : Automaton) :
    P.refineIn .listing A = P.refine A := by
  unfold refineIn refine
  simp only [ofBlocksIn_eq]
  rfl

end Partition

namespace Automaton

/-- The states that the letters of the alphabet lead to, letter by letter. -/
def successorsIn (A : Automaton) (e : Enumeration) (s : Symbol) : List Symbol :=
  (e.members (.leave s) A.alphabet).filterMap (A.move? s)

/-- The transition graph; the target of an edge is written as for the first
letter that leads across. -/
def diagramIn (A : Automaton) (e : Enumeration) : Graph where
  nodes := A.states.listing.map fun s => (s, decide (s ∈ A.accepting))
  edges := (e.members .draw A.states).flatMap fun s =>
    (SymbolSet.ofList (A.successorsIn e s)).listing.map fun t => ⟨s, t, A.between s t⟩

/-- The automaton without its unreachable states. -/
def pruneIn (A : Automaton) (e : Enumeration) : Except Fault Automaton :=
  if Symbol.null ∈ A.states then .error .nullNode
  else
    let states := (A.diagramIn e).reachedFrom A.start
    if states ≈ A.states then .ok A else A.restrict states

/-- The course of refinement from a partition, of at most the given number
of rounds. -/
def refineFromIn (A : Automaton) (e : Enumeration) : Nat → Partition → Except Fault Refinement
  | 0, P => .ok ⟨[], P⟩
  | n + 1, P => do
    let Q ← P.refineIn e A
    if Q.size = P.size then return ⟨[], P⟩
    else
      let r ← refineFromIn A e n Q
      return ⟨P :: r.earlier, r.last⟩

/-- The accepting and the other states. -/
def initialPartitionIn (A : Automaton) (e : Enumeration) : Except Fault Partition :=
  Partition.ofBlocksIn e [A.accepting, A.states.sdiff A.accepting]

/-- The course of refinement of an automaton. -/
def refinementsIn (A : Automaton) (e : Enumeration) : Except Fault Refinement := do
  A.refineFromIn e A.size (← A.initialPartitionIn e)

/-- The row of a block. -/
def quotientRowIn (A : Automaton) (e : Enumeration) (P : Partition) (rep : Symbol) :
    Except Fault (List (Symbol × Symbol)) := do
  let row ← A.delta.fetch rep
  (e.members (.row rep) A.alphabet).mapM fun c => do
    let j ← P.blockOf (← row.fetch c)
    return (c, .ofNat j)

/-- The automaton with each block of a partition collapsed into a state. -/
def rebuildIn (A : Automaton) (e : Enumeration) (P : Partition) : Except Fault Automaton := do
  let rows ← (P.representativesIn e).mapM (A.quotientRowIn e P)
  let start ← P.blockOf A.start
  Presentation.build
    { states := (List.range P.size).map .ofNat
      alphabet := A.letters
      start := .ofNat start
      accepting := (P.representativesIn e).zipIdx.filterMap fun (rep, i) =>
        if rep ∈ A.accepting then some (.ofNat i) else none
      delta := rows.zipIdx.map fun (row, i) => (.ofNat i, row) }

/-- Prunes, refines and rebuilds. -/
def minimizationIn (A : Automaton) (e : Enumeration) : Except Fault Minimization := do
  let pruned ← A.pruneIn e
  let refinement ← pruned.refinementsIn e
  let minimized ← pruned.rebuildIn e refinement.last
  return ⟨pruned, refinement, minimized⟩

theorem initialPartitionIn_eq (A : Automaton) (e : Enumeration) :
    A.initialPartitionIn e = A.initialPartition :=
  Partition.ofBlocksIn_eq e _

theorem refineFromIn_listing (A : Automaton) (k : Nat) (P : Partition) :
    A.refineFromIn .listing k P = A.refineFrom k P := by
  induction k generalizing P with
  | zero => rfl
  | succ k ih =>
      unfold refineFromIn refineFrom
      simp only [ih, Partition.refineIn_listing]

theorem refinementsIn_listing (A : Automaton) : A.refinementsIn .listing = A.refinements := by
  unfold refinementsIn refinements
  simp only [initialPartitionIn_eq, refineFromIn_listing]

theorem pruneIn_listing (A : Automaton) : A.pruneIn .listing = A.prune := by
  unfold pruneIn prune reachable graph
  split <;> rfl

theorem rebuildIn_listing (A : Automaton) (P : Partition) :
    A.rebuildIn .listing P = A.rebuild P := by
  unfold rebuildIn rebuild
  simp only [Partition.representativesIn_eq]
  rfl

/-- What is run goes through sets in listing order. -/
theorem minimizationIn_listing (A : Automaton) : A.minimizationIn .listing = A.minimization := by
  unfold minimizationIn minimization
  simp only [pruneIn_listing, refinementsIn_listing, rebuildIn_listing]

end Automaton

-- ============================================================== lists

section Lists

variable {α : Type} {xs ys : List α}

theorem find?_eq_of_perm (h : xs.Perm ys) {p : α → Bool}
    (hp : ∀ x ∈ xs, ∀ y ∈ xs, p x = true → p y = true → x = y) : xs.find? p = ys.find? p := by
  cases hx : xs.find? p with
  | none =>
      refine (List.find?_eq_none.2 fun y hy => ?_).symm
      exact List.find?_eq_none.1 hx y (h.mem_iff.2 hy)
  | some x =>
      cases hy : ys.find? p with
      | none =>
          have hmem := h.mem_iff.1 (List.mem_of_find?_eq_some hx)
          exact absurd (List.find?_some hx) (List.find?_eq_none.1 hy x hmem)
      | some y =>
          refine congrArg some (hp x (List.mem_of_find?_eq_some hx) y ?_ (List.find?_some hx)
            (List.find?_some hy))
          exact h.mem_iff.2 (List.mem_of_find?_eq_some hy)

/-- Entries for keys of which no two are alike make one map in any order. -/
theorem SymbolMap.ofList_eq_of_perm {es fs : List (Symbol × α)} (h : es.Perm fs)
    (hd : Symbol.Distinct (es.map Prod.fst)) : SymbolMap.ofList es = .ofList fs := by
  have hlookup : ∀ k : Symbol, (es.reverse.find? fun e => decide (k ≈ e.1)) =
      fs.reverse.find? fun e => decide (k ≈ e.1) := by
    intro k
    refine find?_eq_of_perm ((List.reverse_perm es).trans (h.trans (List.reverse_perm fs).symm)) ?_
    intro e he f hf hke hkf
    have hef : e.1 ≈ f.1 :=
      Setoid.trans (Setoid.symm (of_decide_eq_true hke)) (of_decide_eq_true hkf)
    exact hd.eq_of_alike (List.mem_reverse.1 he) (List.mem_reverse.1 hf) hef
  have hkeys : SymbolSet.ofList (es.map Prod.fst) = .ofList (fs.map Prod.fst) := by
    refine SymbolSet.eq_of_find?_eq fun k => ?_
    rw [SymbolSet.find?_ofList, SymbolSet.find?_ofList]
    refine find?_eq_of_perm (h.map Prod.fst) fun x hx y hy hkx hky => ?_
    obtain ⟨e, he, rfl⟩ := List.mem_map.1 hx
    obtain ⟨f, hf, rfl⟩ := List.mem_map.1 hy
    have hef : e.1 ≈ f.1 :=
      Setoid.trans (Setoid.symm (of_decide_eq_true hkx)) (of_decide_eq_true hky)
    rw [hd.eq_of_alike he hf hef]
  have hvalues : ∀ k : Symbol, (lastValues es)[k]? = (lastValues fs)[k]? := by
    intro k
    unfold lastValues
    rw [getElem?_foldl_insert, getElem?_foldl_insert, hlookup]
  unfold ofList
  simp only [hkeys, hvalues]

end Lists

-- ============================================================== rounds

namespace Partition

variable {A : Automaton} {P : Partition} {e : Enumeration} {S : SymbolSet} {letters : List Symbol}

/-- Each group holds the members with one mark, in whatever order they are
marked. -/
theorem gather_eq {μ : Type} [DecidableEq μ] {xs : List Symbol} (h : xs.Perm S.toList)
    (f : Symbol → μ) : gather (xs.map fun s => (s, f s)) =
      (distinct (xs.map f)).map fun m => S.filter fun s => decide (f s = m) := by
  unfold gather
  rw [List.map_map]
  refine List.map_congr_left fun m _ => SymbolSet.ofList_eq fun s => ?_
  simp only [List.mem_map, List.mem_filter, decide_eq_true_eq, SymbolSet.toList_filter]
  constructor
  · intro hs
    obtain ⟨_, ⟨⟨t, ht, rfl⟩, hm⟩, rfl⟩ := hs
    exact ⟨h.mem_iff.1 ht, hm⟩
  · intro hs
    obtain ⟨hs, hm⟩ := hs
    exact ⟨_, ⟨⟨s, h.mem_iff.2 hs, rfl⟩, hm⟩, rfl⟩

/-- Another order of the members rearranges the groups. -/
theorem perm_gather {μ : Type} [DecidableEq μ] {xs ys : List Symbol} (hx : xs.Perm S.toList)
    (hy : ys.Perm S.toList) (f : Symbol → μ) :
    (gather (xs.map fun s => (s, f s))).Perm (gather (ys.map fun s => (s, f s))) := by
  rw [gather_eq hx, gather_eq hy]
  exact (perm_distinct ((hx.trans hy.symm).map f)).map _

/-- The groups that a split of a set by letters gives. -/
def groupsIn (e : Enumeration) (P : Partition) (A : Automaton) (letters : List Symbol)
    (S : SymbolSet) : List SymbolSet :=
  gather ((e.members (.round P) S).map fun s => (s, P.marks A letters s))

theorem perm_groupsIn : (P.groups A letters S).Perm (P.groupsIn e A letters S) :=
  perm_gather S.perm_listing (e.perm _ S) _

theorem Covers.splitIn_eq_ok (hP : P.Covers A) (hS : ∀ s ∈ S, s ∈ A.states) (hl : A.Over letters) :
    P.splitIn e A S letters = .ok (P.groupsIn e A letters S) := by
  have hmarked : ((e.members (.round P) S).mapM fun s => return (s, ← P.signature A s letters))
      = (.ok ((e.members (.round P) S).map fun s => (s, P.marks A letters s)) :
        Except Fault _) := by
    refine mapM_eq_ok fun s hs => ?_
    have hmem := hS s (SymbolSet.mem_of_mem_toList ((e.perm _ S).mem_iff.1 hs))
    rw [hP.signature_eq_ok hmem hl]
    rfl
  unfold splitIn
  rw [hmarked]
  rfl

-- the groups do come in another order: 0 and 1 come first in listing order
example : (do
    let P ← Automaton.threeOrMore.initialPartition
    let groups ← P.splitIn .falling .threeOrMore (.ofList [.int 0, .int 1, .int 2]) [.str "a"]
    return groups.map SymbolSet.toList) = .ok [[.int 2], [.int 0, .int 1]] := by
  decide +kernel

/-- Disjoint blocks of comparable symbols make one partition in any order. -/
theorem ofBlocks_eq_of_perm {bs cs : List SymbolSet} (h : bs.Perm cs)
    (hS : Symbol.Comparable S.toList) (hsub : ∀ b ∈ bs, ∀ s ∈ b, s ∈ S)
    (hdisjoint : bs.Pairwise SymbolSet.Disjoint) : ofBlocks cs = ofBlocks bs := by
  have hsymm : ∀ {b c : SymbolSet}, b.Disjoint c → c.Disjoint b :=
    fun hbc s hc hb => hbc s hb hc
  obtain ⟨P, hP, hblocksP⟩ := exists_ofBlocks hS hsub hdisjoint
  obtain ⟨Q, hQ, hblocksQ⟩ := exists_ofBlocks hS (fun c hc => hsub c (h.mem_iff.2 hc))
    ((h.pairwise_iff hsymm).1 hdisjoint)
  have hPQ : P = Q := by
    refine eq_of_mem_blocks_iff fun b => ?_
    rw [hblocksP, hblocksQ, h.mem_iff]
  rw [hP, hQ, hPQ]

/-- In whatever order the members of blocks are gone through, a round gives
the same partition. -/
theorem Covers.refineIn_eq (hP : P.Covers A) : P.refineIn e A = P.refine A := by
  have hsplit : (P.blocks.mapM fun b => P.split A b A.letters)
      = .ok (P.blocks.map (P.groups A A.letters)) :=
    mapM_eq_ok fun b hb => hP.split_eq_ok (fun _ => hP.mem_states_of_mem hb) Automaton.over_letters
  have hsplitIn : (P.blocks.mapM fun b => P.splitIn e A b A.letters)
      = .ok (P.blocks.map (P.groupsIn e A A.letters)) :=
    mapM_eq_ok fun b hb => hP.splitIn_eq_ok (fun _ => hP.mem_states_of_mem hb) Automaton.over_letters
  have hperm : (P.regrouped A).Perm (P.blocks.flatMap (P.groupsIn e A A.letters)) :=
    List.Perm.flatMap_left _ fun b _ => perm_groupsIn
  unfold refineIn Partition.refine
  simp only [ofBlocksIn_eq]
  rw [hsplit, hsplitIn]
  exact ofBlocks_eq_of_perm hperm hP.comparable_states hP.mem_states_of_mem_regrouped
    pairwise_regrouped

end Partition

namespace Automaton

open Automata.Partition

variable {A B : Automaton} {P : Partition} {e : Enumeration} {m n : Minimization} {s c : Symbol}

theorem refineFromIn_eq {k : Nat} (hP : P.Covers A) :
    A.refineFromIn e k P = A.refineFrom k P := by
  induction k generalizing P with
  | zero => rfl
  | succ k ih =>
      obtain ⟨Q, hQ, hcovers, -⟩ := hP.exists_refine
      unfold refineFromIn refineFrom
      rw [hP.refineIn_eq, hQ]
      show (if Q.size = P.size then _ else _) = if Q.size = P.size then _ else _
      rw [ih hcovers]

/-- In whatever order sets are gone through, the course of refinement is
the same. -/
theorem refinementsIn_eq (h : Symbol.Comparable A.states.toList) :
    A.refinementsIn e = A.refinements := by
  obtain ⟨P, hP, hcovers, -⟩ := exists_initialPartition h
  unfold refinementsIn refinements
  rw [initialPartitionIn_eq, hP]
  exact refineFromIn_eq hcovers

-- ================================================== search and rebuilding

theorem perm_successorsIn (s : Symbol) : (A.successorsIn e s).Perm (A.successors s) :=
  ((e.perm _ A.alphabet).trans A.alphabet.perm_listing.symm).filterMap _

/-- However a graph is drawn state by state and letter by letter, its edges
lead from the states to where letters lead. -/
theorem leads_iff_exists_successor {nodes : List (Symbol × Bool)} {xs : List Symbol}
    {next : Symbol → List Symbol} {t : Symbol} :
    (Graph.mk nodes (xs.flatMap fun s =>
      (SymbolSet.ofList (next s)).listing.map fun t => ⟨s, t, A.between s t⟩)).Leads s t ↔
        ∃ x ∈ xs, x ≈ s ∧ ∃ u ∈ next x, u ≈ t := by
  unfold Graph.Leads
  simp only [List.mem_flatMap, List.mem_map, SymbolSet.mem_listing]
  constructor
  · rintro ⟨_, ⟨x, hx, v, hv, rfl⟩, hxs, hvt⟩
    obtain ⟨u, hu, hvu⟩ := SymbolSet.mem_ofList.1 (SymbolSet.mem_of_mem_toList hv)
    exact ⟨x, hx, hxs, u, hu, Setoid.trans (Setoid.symm hvu) hvt⟩
  · rintro ⟨x, hx, hxs, u, hu, hut⟩
    obtain ⟨v, hv, huv⟩ := SymbolSet.mem_ofList.2 ⟨u, hu, Setoid.refl u⟩
    exact ⟨_, ⟨x, hx, v, hv, rfl⟩, hxs, Setoid.trans (Setoid.symm huv) hut⟩

theorem leads_diagramIn_eq : (A.diagramIn e).Leads = A.diagram.Leads := by
  funext s t
  refine propext (leads_iff_exists_successor.trans (Iff.trans ?_ leads_iff_exists_successor.symm))
  have hstates := (e.perm .draw A.states).trans A.states.perm_listing.symm
  simp only [hstates.mem_iff, (perm_successorsIn _).mem_iff]

/-- In whatever order the graph is drawn, the same states are reached. -/
theorem reachedFrom_diagramIn_alike : (A.diagramIn e).reachedFrom A.start ≈ A.reached := by
  refine SymbolSet.alike_iff.2 fun s => ?_
  rw [Graph.mem_reachedFrom_iff, leads_diagramIn_eq, mem_reached_iff_leads]

theorem exists_pruneIn (h : ¬Symbol.null ∈ A.states) :
    ∃ Q, A.pruneIn e = .ok Q ∧ Q.PrunedFrom A := by
  unfold pruneIn
  rw [if_neg h]
  exact exists_prunedFrom reachedFrom_diagramIn_alike

/-- The row of a representative. -/
def numberedRowIn (A : Automaton) (e : Enumeration) (P : Partition) (r : Symbol) :
    List (Symbol × Symbol) :=
  (e.members (.row r) A.alphabet).map fun c => (c, .ofNat (P.number (A.next r c)))

theorem quotientRowIn_eq_ok (hP : P.Covers A) {r : Symbol} (hr : r ∈ A.states) :
    A.quotientRowIn e P r = .ok (A.numberedRowIn e P r) := by
  obtain ⟨row, hrow, hentry⟩ := exists_fetch hr
  unfold quotientRowIn numberedRowIn
  rw [hrow]
  refine mapM_eq_ok fun c hc => ?_
  have hmem := SymbolSet.mem_of_mem_toList ((e.perm _ A.alphabet).mem_iff.1 hc)
  rw [hentry c hmem]
  show (do
    let j ← P.blockOf (A.next r c)
    return (c, Symbol.ofNat j)) = _
  rw [hP.blockOf_eq_ok (next_mem hr hmem)]
  rfl

/-- The entries of a row make one row in any order. -/
theorem ofList_numberedRowIn (r : Symbol) :
    SymbolMap.ofList (A.numberedRowIn e P r) = .ofList (A.numberedRow P r) := by
  have hperm := (e.perm (.row r) A.alphabet).trans A.alphabet.perm_listing.symm
  refine SymbolMap.ofList_eq_of_perm (hperm.map _) ?_
  unfold numberedRowIn
  rw [List.map_map]
  show Symbol.Distinct (List.map id _)
  rw [List.map_id]
  refine ((e.perm _ A.alphabet).pairwise_iff fun {x y} h h' => h (Setoid.symm h')).2 ?_
  exact A.alphabet.distinct_toList

/-- In whatever order letters are gone through, the same automaton is
rebuilt. -/
theorem rebuildIn_eq (hP : P.Covers A) : A.rebuildIn e P = A.rebuild P := by
  have hrows : P.representatives.mapM (A.quotientRowIn e P)
      = .ok (P.representatives.map (A.numberedRowIn e P)) := by
    refine mapM_eq_ok fun r hr => ?_
    obtain ⟨i, hi⟩ := List.mem_iff_getElem?.1 hr
    exact quotientRowIn_eq_ok hP (hP.of_getElem?_representatives hi).1
  rw [rebuild_eq_build hP]
  unfold rebuildIn
  rw [representativesIn_eq, hrows, hP.blockOf_eq_ok A.start_mem]
  refine congrArg Description.build (Description.ext rfl rfl rfl rfl ?_)
  unfold Presentation.description quotient
  refine congrArg SymbolMap.ofList ?_
  simp only [List.zipIdx_map, List.map_map]
  refine List.map_congr_left fun p _ => ?_
  exact congrArg (Prod.mk _) (ofList_numberedRowIn p.1)

-- ======================================================= alike automata

theorem map_move?_eq (h : A ≈ B) (s c : Symbol) :
    (A.move? s c).map Symbol.plain = (B.move? s c).map Symbol.plain := by
  obtain ⟨-, -, -, -, hdelta⟩ := Description.alike_iff.1 h
  have hrow := hdelta s
  unfold Description.move?
  cases hA : A.delta.get? s with
  | none =>
      rw [hA, Option.map_none] at hrow
      rw [Option.map_eq_none_iff.1 hrow.symm]
  | some row =>
      rw [hA, Option.map_some] at hrow
      obtain ⟨row', hB, hplain⟩ := Option.map_eq_some_iff.1 hrow.symm
      rw [hB]
      exact SymbolMap.plain_eq_iff.1 hplain.symm c

theorem next_alike_of_alike (h : A ≈ B) (s c : Symbol) : A.next s c ≈ B.next s c := by
  have hmove := map_move?_eq h s c
  show ((A.move? s c).getD s).plain = ((B.move? s c).getD s).plain
  rw [← Option.getD_map Symbol.plain, ← Option.getD_map Symbol.plain, hmove]

/-- Alike automata run through alike states. -/
theorem simulation_of_alike (h : A ≈ B) : Simulation A B fun s t => s ≈ t := by
  obtain ⟨-, halphabet, hstart, haccepting, -⟩ := Description.alike_iff.1 h
  refine ⟨halphabet, hstart, fun {s t} hst => ?_, fun {s t c} hst _ => ?_⟩
  · rw [SymbolSet.mem_congr hst]
    exact SymbolSet.alike_iff.1 haccepting t
  · exact Setoid.trans (next_alike_of_alike h s c) (next_congr hst (Setoid.refl c))

theorem sameDistinctions_of_alike (h : A ≈ B) : A.SameDistinctions B where
  states := (Description.alike_iff.1 h).1
  sameUpTo_iff := by
    intro k s t _ _
    have hsame : ∀ x, A.SameFrom B x x := fun x => (simulation_of_alike h).sameFrom (Setoid.refl x)
    refine forall_congr' fun w => ?_
    rw [← over_congr (simulation_of_alike h).alphabet]
    refine imp_congr_right fun hw => imp_congr_right fun _ => ?_
    rw [hsame s w hw, hsame t w hw]

theorem sameReached_of_alike (h : A ≈ B) : A.SameReached B := by
  have hsim := simulation_of_alike h
  have hstates := SymbolSet.alike_iff.1 (Description.alike_iff.1 h).1
  refine ⟨hsim.start, hsim.alphabet, fun s _ => hsim.accepting (Setoid.refl s), fun s hs c hc => ?_⟩
  have hcB := (SymbolSet.alike_iff.1 hsim.alphabet c).1 hc
  exact ⟨_, _, transition_eq_ok hs.mem hc, transition_eq_ok ((hstates s).1 hs.mem) hcB,
    next_alike_of_alike h s c⟩

/-- The reachable parts of automata that agree on them agree. -/
theorem SameReached.pruned (h : A.SameReached B) {Q R : Automaton} (hQ : Q.PrunedFrom A)
    (hR : R.PrunedFrom B) : Q.SameReached R := by
  have hreach : ∀ {s}, Q.Reachable s → s ∈ A.reached ∧ s ∈ B.reached := by
    intro s hs
    have hA := hQ.mem_states_iff.1 hs.mem
    exact ⟨hA, h.mem_reached_iff.1 hA⟩
  have halphabet : Q.alphabet ≈ R.alphabet := by
    rw [hQ.alphabet, hR.alphabet]
    exact h.alphabet
  refine ⟨?_, halphabet, fun s hs => ?_, fun s hs c hc => ?_⟩
  · rw [hQ.start, hR.start]
    exact h.start
  · obtain ⟨hA, hB⟩ := hreach hs
    rw [hQ.accepting hA, hR.accepting hB]
    exact h.accepting_iff hA
  · obtain ⟨hA, hB⟩ := hreach hs
    have hcR := (SymbolSet.alike_iff.1 halphabet c).1 hc
    refine ⟨_, _, transition_eq_ok hs.mem hc, transition_eq_ok (hR.mem_states_iff.2 hB) hcR, ?_⟩
    rw [hQ.next hA, hR.next hB]
    rw [hQ.alphabet] at hc
    exact h.next_alike hA hc

-- ============================================================== results

/-- A minimization that goes through sets in some order is one of a part
on the reachable states. -/
theorem exists_minimizationIn (h : A.Minimizable) : ∃ Q m, Q.PrunedFrom A ∧
    A.minimizationIn e = .ok m ∧ Q.minimization = .ok m ∧ Minimizes m Q := by
  obtain ⟨Q, hQ, hpruned⟩ := exists_pruneIn (e := e) h.null_not_mem
  have hnull := hpruned.null_not_mem h.null_not_mem
  have hcomparable := (SymbolSet.comparable_congr hpruned.states).2 h.comparable_reached
  obtain ⟨m, hm, hspec⟩ := exists_minimization (minimizable_of_comparable hcomparable hnull)
  obtain ⟨hprune, hrefine, hrebuild⟩ := minimization_eq_ok_iff.1 hm
  rw [hpruned.prune_eq_self h.null_not_mem, Except.ok.injEq] at hprune
  rw [← hprune] at hrefine hrebuild
  have hcovers : m.partition.Covers Q := by
    rw [hprune]
    exact hspec.covers
  refine ⟨Q, m, hpruned, ?_, hm, hspec⟩
  unfold minimizationIn
  refine bind_eq_ok_iff.2 ⟨Q, hQ, bind_eq_ok_iff.2 ⟨m.refinement, ?_, bind_eq_ok_iff.2
    ⟨m.minimized, ?_, ?_⟩⟩⟩
  · rw [refinementsIn_eq hcomparable, hrefine]
  · exact (rebuildIn_eq hcovers).trans hrebuild
  · rw [hprune]
    rfl

end Automaton

/-- The results are the same up to how symbols are written. -/
structure Minimization.Agrees (m n : Minimization) : Prop where
  course : m.SameCourse n
  minimized : m.minimized ≈ n.minimized

namespace Automaton

open Automata.Partition

variable {A B : Automaton} {e f : Enumeration} {p q : Presentation}

/-- Automata that agree on their reachable parts are minimized to the same
results, in whatever orders sets are gone through. -/
theorem SameReached.exists_minimizationIn (h : A.SameReached B) (hA : A.Minimizable)
    (hB : ¬Symbol.null ∈ B.states) :
    ∃ m n, A.minimizationIn e = .ok m ∧ B.minimizationIn f = .ok n ∧ m.Agrees n := by
  obtain ⟨Q, m, hQ, hmA, hmQ, hm⟩ := Automaton.exists_minimizationIn (e := e) hA
  obtain ⟨R, n, hR, hnB, hnR, hn⟩ := Automaton.exists_minimizationIn (e := f) (h.minimizable hA hB)
  have hQR := h.pruned hQ hR
  refine ⟨m, n, hmA, hnB, ?_, hm.minimized_alike hn hQR hmQ hnR⟩
  exact hm.sameCourse hn hQR.sameMoves hmQ hnR

/-- Let a presentation of an automaton without a null state, of which the
states can be compared, be given in another order and with repetitions.
It presents an automaton as well. The courses of refinement of the two go
through equal partitions, and they are minimized to the same results; and
so it is when sets are gone through in any other orders. -/
theorem results_eq_of_relists (h : p.Relists q) (hA : p.build = .ok A)
    (hnull : ¬Symbol.null ∈ A.states) (hcomparable : Symbol.Comparable A.states.toList) :
    ∃ B, q.build = .ok B ∧
      (∃ r r', A.refinements = .ok r ∧ B.refinements = .ok r' ∧
        List.Forall₂ (· ≈ ·) r.partitions r'.partitions ∧
        ∀ e, A.refinementsIn e = .ok r ∧ B.refinementsIn e = .ok r') ∧
      (∃ m n, A.minimization = .ok m ∧ B.minimization = .ok n ∧ m.Agrees n) ∧
      ∀ e f, ∃ m n, A.minimizationIn e = .ok m ∧ B.minimizationIn f = .ok n ∧ m.Agrees n := by
  obtain ⟨B, hB, hAB⟩ := h.exists_build hA
  have hstates : A.states ≈ B.states := (Description.alike_iff.1 hAB).1
  have hcomparableB := (SymbolSet.comparable_congr hstates).1 hcomparable
  have hnullB : ¬Symbol.null ∈ B.states := by
    rwa [← SymbolSet.alike_iff.1 hstates]
  have hall : ∀ e f, ∃ m n, A.minimizationIn e = .ok m ∧ B.minimizationIn f = .ok n ∧
      m.Agrees n := fun e f =>
    (sameReached_of_alike hAB).exists_minimizationIn
      (minimizable_of_comparable hcomparable hnull) hnullB
  refine ⟨B, hB, ?_, ?_, hall⟩
  · obtain ⟨r, r', hr, hr', hrr'⟩ := (sameDistinctions_of_alike hAB).exists_refinements hcomparable
    refine ⟨r, r', hr, hr', hrr', fun e => ⟨?_, ?_⟩⟩
    · rw [refinementsIn_eq hcomparable, hr]
    · rw [refinementsIn_eq hcomparableB, hr']
  · -- what is run is the case of listing order
    rw [← minimizationIn_listing A, ← minimizationIn_listing B]
    exact hall .listing .listing

/-- What `modFour` is given by. -/
def modFourListed : Presentation where
  states := [.int 0, .int 1, .int 2, .int 3, .int 7]
  alphabet := [.str "a"]
  start := .int 0
  accepting := [.int 0, .int 2]
  delta := [(.int 0, [(.str "a", .int 1)]), (.int 1, [(.str "a", .int 2), (.str "b", .null)]),
    (.int 2, [(.str "a", .int 3)]), (.int 3, [(.str "a", .int 0)]), (.int 7, [(.str "a", .int 0)])]

/-- The same in another order and with repetitions, with 0 and 1 written
as truth values in places. -/
def modFourShuffled : Presentation where
  states := [.int 7, .int 3, .bool true, .int 0, .int 3, .int 2, .int 1]
  alphabet := [.str "a", .str "a"]
  start := .bool false
  accepting := [.int 2, .int 0, .int 2]
  delta := [(.int 2, [(.str "a", .int 3)]), (.int 7, [(.str "a", .int 0)]),
    (.bool true, [(.str "b", .null), (.str "a", .int 2)]), (.int 0, [(.str "a", .bool true)]),
    (.int 3, [(.str "a", .bool false)])]

theorem results_eq_of_relists_modFour :
    modFourListed.Relists modFourShuffled ∧ modFourListed.build = .ok modFour ∧
      ¬Symbol.null ∈ modFour.states ∧ Symbol.Comparable modFour.states.toList ∧
      ∃ B, modFourShuffled.build = .ok B ∧
        (∃ r r', modFour.refinements = .ok r ∧ B.refinements = .ok r' ∧
          List.Forall₂ (· ≈ ·) r.partitions r'.partitions ∧
          ∀ e, modFour.refinementsIn e = .ok r ∧ B.refinementsIn e = .ok r') ∧
        (∃ m n, modFour.minimization = .ok m ∧ B.minimization = .ok n ∧ m.Agrees n) ∧
        ∀ e f, ∃ m n, modFour.minimizationIn e = .ok m ∧ B.minimizationIn f = .ok n ∧
          m.Agrees n :=
  have h : modFourListed.Relists modFourShuffled := by decide
  have hA : modFourListed.build = .ok modFour := Description.build_eq_ok_iff.2 rfl
  have hnull : ¬Symbol.null ∈ modFour.states := by decide
  have hcomparable : Symbol.Comparable modFour.states.toList := by decide
  ⟨h, hA, hnull, hcomparable, results_eq_of_relists h hA hnull hcomparable⟩

end Automaton

end Automata
