/-
States have no say by their names, but by the order of their names: an
automaton with its states renamed in the same order is minimized to the
same automaton.

# Renaming

`renameStates` puts a new name for every state wherever it stands, and
drops what the table holds beyond the states and the letters. As long as
smaller states get smaller names, the automaton that results is a
renaming of the first that keeps the order (`RenamesInOrder`).

# Minimization

A renaming carries words along: they lead to the new names of the states
that they led to, reach the new names of the states that they reached,
and tell apart the new names of the states that they told apart. So the
reachable parts are renamed as well (`Renames.pruned`), words of the same
lengths are enough to tell states apart, and there are as many rounds
(`RenamesInOrder.rounds_eq`). The order comes in with the numbers of
blocks. The least state of a block gets the least of the new names, so
the representatives of the one partition are renamed to those of the
other (`RenamesInOrder.map_representatives`), place by place, and a state
and its new name have one number. The minimal automata, of which these
numbers are the states, are then equal in all their data
(`minimization_renameStates`).
-/
import Mathlib.Order.Bounds.Basic
import Automata.Proofs.Distinctions

namespace Automata.Automaton

open Automata.Partition

variable {A B Q R : Automaton} {P P' : Partition} {m n : Minimization} {f : Symbol → Symbol}
  {s t x : Symbol} {k : Nat}

-- ============================================================ renaming

/-- The new name of a state, in whatever way the state is written. -/
def nameOf (A : Automaton) (f : Symbol → Symbol) (s : Symbol) : Symbol :=
  f ((A.states.find? s).getD s)

/-- A row for the letters of the alphabet, with the states in it renamed. -/
def renamedRow (A : Automaton) (f : Symbol → Symbol) (row : Row) : Row :=
  .tabulate A.alphabet fun c => (row.get? c).map (A.nameOf f)

/-- The data of the automaton with its states renamed. -/
def renamed (A : Automaton) (f : Symbol → Symbol) : Description where
  states := .ofList (A.states.toList.map f)
  alphabet := A.alphabet
  start := A.nameOf f A.start
  accepting := .ofList (A.accepting.toList.map (A.nameOf f))
  delta := .ofList (A.states.toList.filterMap fun s =>
    (A.delta.get? s).map fun row => (f s, A.renamedRow f row))

/-- The automaton with its states renamed. -/
def renameStates (A : Automaton) (f : Symbol → Symbol) : Except Fault Automaton :=
  (A.renamed f).build

/-- A state is renamed as the set of states writes it. -/
theorem exists_nameOf_eq (hs : s ∈ A.states) :
    ∃ x ∈ A.states.toList, s ≈ x ∧ A.nameOf f s = f x := by
  obtain ⟨x, hx⟩ := Option.isSome_iff_exists.1 (SymbolSet.mem_iff_isSome_find?.1 hs)
  obtain ⟨hmem, hsx⟩ := SymbolSet.find?_eq_some_iff.1 hx
  refine ⟨x, hmem, hsx, ?_⟩
  unfold nameOf
  rw [hx, Option.getD_some]

theorem nameOf_eq (hx : x ∈ A.states.toList) : A.nameOf f x = f x := by
  unfold nameOf
  rw [SymbolSet.mem_toList_iff.1 hx, Option.getD_some]

theorem mem_states_renamed : x ∈ (A.renamed f).states ↔ ∃ s ∈ A.states.toList, x ≈ f s := by
  unfold renamed
  exact SymbolSet.mem_ofList_map

theorem mem_accepting_renamed :
    x ∈ (A.renamed f).accepting ↔ ∃ s ∈ A.accepting.toList, x ≈ A.nameOf f s := by
  unfold renamed
  exact SymbolSet.mem_ofList_map

theorem nameOf_mem (hs : s ∈ A.states) : A.nameOf f s ∈ (A.renamed f).states := by
  obtain ⟨x, hx, -, hname⟩ := exists_nameOf_eq (f := f) hs
  exact mem_states_renamed.2 ⟨x, hx, hname ▸ Setoid.refl _⟩

section Increasing

variable (hf : ∀ s ∈ A.states.toList, ∀ t ∈ A.states.toList, s < t → f s < f t)

include hf

theorem nameOf_lt (hs : s ∈ A.states) (ht : t ∈ A.states) (hst : s < t) :
    A.nameOf f s < A.nameOf f t := by
  obtain ⟨x, hx, hsx, hname⟩ := exists_nameOf_eq (f := f) hs
  obtain ⟨y, hy, hty, hname'⟩ := exists_nameOf_eq (f := f) ht
  rw [hname, hname']
  exact hf x hx y hy ((Symbol.lt_congr hsx hty).1 hst)

/-- No two states get one name. -/
theorem nameOf_alike_iff (hs : s ∈ A.states) (ht : t ∈ A.states) :
    A.nameOf f s ≈ A.nameOf f t ↔ s ≈ t := by
  constructor
  · intro h
    rcases Symbol.lt_trichotomy s t with hlt | halike | hlt
    · exact absurd h (Symbol.not_alike_of_lt (nameOf_lt hf hs ht hlt))
    · exact halike
    · exact absurd (Setoid.symm h) (Symbol.not_alike_of_lt (nameOf_lt hf ht hs hlt))
  · intro h
    obtain ⟨x, hx, hsx, hname⟩ := exists_nameOf_eq (f := f) hs
    obtain ⟨y, hy, hty, hname'⟩ := exists_nameOf_eq (f := f) ht
    have hxy : x = y := by
      refine SymbolSet.eq_of_alike hx hy ?_
      exact Setoid.trans (Setoid.symm hsx) (Setoid.trans h hty)
    have heq : A.nameOf f s = A.nameOf f t := by rw [hname, hname', hxy]
    exact heq ▸ Setoid.refl _

/-- The new name of a state has the row of the state, renamed. -/
theorem get?_renamed (hs : s ∈ A.states) :
    (A.renamed f).delta.get? (A.nameOf f s) = (A.delta.get? s).map (A.renamedRow f) := by
  obtain ⟨x, hx, hsx, hname⟩ := exists_nameOf_eq (f := f) hs
  obtain ⟨row, hrow⟩ := A.exists_row hs
  have hrowx : A.delta.get? x = some row := (SymbolMap.get?_congr hsx).symm.trans hrow
  have hlisted : (f x, A.renamedRow f row) ∈ A.states.toList.filterMap fun s =>
      (A.delta.get? s).map fun row => (f s, A.renamedRow f row) :=
    List.mem_filterMap.2 ⟨x, hx, Option.map_eq_some_iff.2 ⟨row, hrowx, rfl⟩⟩
  rw [hrow, Option.map_some]
  refine SymbolMap.get?_ofList_of_mem hlisted (hname ▸ Setoid.refl _) fun e he halike => ?_
  -- an entry under an alike name is that of the same state
  obtain ⟨y, hy, hentry⟩ := List.mem_filterMap.1 he
  obtain ⟨row', hrow', rfl⟩ := Option.map_eq_some_iff.1 hentry
  have hyx : y = x := by
    refine SymbolSet.eq_of_alike hy hx ?_
    rw [← nameOf_eq (f := f) hy] at halike
    have hmem := SymbolSet.mem_of_mem_toList hy
    exact Setoid.trans (Setoid.symm ((nameOf_alike_iff hf hs hmem).1 halike)) hsx
  rw [hyx, hrowx, Option.some.injEq] at hrow'
  rw [hrow']

theorem move?_renamed (hs : s ∈ A.states) {c : Symbol} (hc : c ∈ A.alphabet) :
    (A.renamed f).move? (A.nameOf f s) c = some (A.nameOf f (A.next s c)) := by
  obtain ⟨row, hrow⟩ := A.exists_row hs
  have hentry : ∀ c d, c ≈ d →
      (row.get? c).map (A.nameOf f) = (row.get? d).map (A.nameOf f) := fun c d hcd => by
    rw [SymbolMap.get?_congr hcd]
  unfold Description.move?
  rw [get?_renamed hf hs, hrow, Option.map_some, Option.bind_some]
  unfold renamedRow
  rw [SymbolMap.get?_tabulate_of_mem hentry hc, get?_row hrow, move?_eq_some_next hs hc,
    Option.map_some]

/-- The new names stand in the order of the states. -/
theorem toList_states_renamed : (A.renamed f).states.toList = A.states.toList.map f := by
  refine SymbolSet.toList_ofList (List.pairwise_map.2 ?_)
  exact A.states.increasing.imp_of_mem fun {s t} hs ht hlt => hf s hs t ht hlt

/-- With its states renamed, an automaton is one. -/
theorem exists_renameStates : ∃ B, A.renameStates f = .ok B ∧ B.toDescription = A.renamed f := by
  refine Description.exists_build (nameOf_mem A.start_mem) (fun x hx => ?_) fun x hx => ?_
  · obtain ⟨s, hs, hxs⟩ := mem_accepting_renamed.1 hx
    have hmem := A.accepting_subset (SymbolSet.mem_of_mem_toList hs)
    exact (SymbolSet.mem_congr hxs).2 (nameOf_mem hmem)
  · obtain ⟨s, hs, hxs⟩ := mem_states_renamed.1 hx
    have hmem := SymbolSet.mem_of_mem_toList hs
    rw [← nameOf_eq (f := f) hs] at hxs
    obtain ⟨row, hrow⟩ := A.exists_row hmem
    have hget := get?_renamed hf hmem
    rw [hrow, Option.map_some] at hget
    refine ⟨_, (SymbolMap.get?_congr hxs).trans hget, fun c hc => ?_⟩
    have hmove := move?_renamed hf hmem hc
    unfold Description.move? at hmove
    rw [hget, Option.bind_some] at hmove
    exact ⟨_, hmove, nameOf_mem (next_mem hmem hc)⟩

end Increasing

/-- A renaming of states that keeps their order. -/
structure RenamesInOrder (A B : Automaton) (f : Symbol → Symbol) : Prop
    extends A.Renames B f where
  alphabet : A.alphabet = B.alphabet
  lt : ∀ {s t}, s ∈ A.states → t ∈ A.states → s < t → f s < f t

theorem renamesInOrder_of_renameStates
    (hf : ∀ s ∈ A.states.toList, ∀ t ∈ A.states.toList, s < t → f s < f t)
    (hB : B.toDescription = A.renamed f) : A.RenamesInOrder B (A.nameOf f) where
  mem := by
    intro s hs
    rw [hB]
    exact nameOf_mem hs
  alike_iff := nameOf_alike_iff hf
  exists_alike := by
    intro x hx
    rw [hB] at hx
    obtain ⟨s, hs, hxs⟩ := mem_states_renamed.1 hx
    refine ⟨s, SymbolSet.mem_of_mem_toList hs, ?_⟩
    rw [nameOf_eq hs]
    exact Setoid.symm hxs
  start := by
    rw [hB]
    exact Setoid.refl (A.nameOf f A.start)
  accepting := by
    intro s hs
    rw [hB, mem_accepting_renamed]
    constructor
    · intro h
      obtain ⟨t, ht, hst⟩ := h
      have hacc := SymbolSet.mem_of_mem_toList ht
      have halike := (nameOf_alike_iff hf hs (A.accepting_subset hacc)).1 hst
      exact (SymbolSet.mem_congr halike).2 hacc
    · intro h
      obtain ⟨t, ht, hst⟩ := h
      have hmem := A.accepting_subset (SymbolSet.mem_of_mem_toList ht)
      exact ⟨t, ht, (nameOf_alike_iff hf hs hmem).2 hst⟩
  next := by
    intro s c hs hc
    have hmove := move?_renamed hf hs hc
    rw [← hB] at hmove
    exact (next_eq_of_move? hmove).symm ▸ Setoid.refl _
  alphabet := (congrArg Description.alphabet hB).symm
  lt := nameOf_lt hf

-- ================================================= the reachable parts

namespace Renames

variable (h : A.Renames B f) (ha : A.alphabet ≈ B.alphabet)

include h ha

/-- Words reach the new names of the states that they reached. -/
theorem mem_reached_iff (hs : s ∈ A.states) : f s ∈ B.reached ↔ s ∈ A.reached := by
  rw [mem_reached_iff_after, mem_reached_iff_after]
  refine exists_congr fun w => ?_
  rw [← over_congr ha]
  refine and_congr_right fun hw => ?_
  obtain ⟨hmem, hafter⟩ := (h.simulation ha).after (h.simulation ha).start hw
  rw [← h.alike_iff hmem hs]
  exact ⟨Setoid.trans hafter, Setoid.trans (Setoid.symm hafter)⟩

/-- The reachable parts are renamed as the automata are. -/
theorem pruned (hQ : Q.PrunedFrom A) (hR : R.PrunedFrom B) : Q.Renames R f := by
  have hreach : ∀ {s}, s ∈ Q.states → s ∈ A.reached := hQ.mem_states_iff.1
  have hstate : ∀ {s}, s ∈ Q.states → s ∈ A.states := fun hs =>
    mem_states_of_mem_reached (hreach hs)
  have hname : ∀ {s}, s ∈ Q.states → f s ∈ B.reached := fun hs =>
    (h.mem_reached_iff ha (hstate hs)).2 (hreach hs)
  refine ⟨fun hs => hR.mem_states_iff.2 (hname hs),
    fun hs ht => h.alike_iff (hstate hs) (hstate ht),
    fun {t} ht => ?_, ?_, fun {s} hs => ?_, fun {s c} hs hc => ?_⟩
  · have ht := hR.mem_states_iff.1 ht
    obtain ⟨s, hs, hst⟩ := h.exists_alike (mem_states_of_mem_reached ht)
    refine ⟨s, hQ.mem_states_iff.2 ((h.mem_reached_iff ha hs).1 ?_), hst⟩
    exact (SymbolSet.mem_congr hst).2 ht
  · rw [hQ.start, hR.start]
    exact h.start
  · rw [hR.accepting (hname hs), hQ.accepting (hreach hs)]
    exact h.accepting (hstate hs)
  · rw [hQ.alphabet] at hc
    rw [hQ.next (hreach hs), hR.next (hname hs)]
    exact h.next (hstate hs) hc

/-- Words of some length tell apart all states that words tell apart as
soon as they do so with the new names. -/
theorem forall_sameFrom_iff :
    (∀ s ∈ A.states, ∀ t ∈ A.states, A.SameUpTo k s t → A.SameFrom A s t) ↔
      ∀ s ∈ B.states, ∀ t ∈ B.states, B.SameUpTo k s t → B.SameFrom B s t := by
  have hsim := h.simulation ha
  constructor
  · intro hall x hx y hy hxy
    obtain ⟨s, hs, hsx⟩ := h.exists_alike hx
    obtain ⟨t, ht, hty⟩ := h.exists_alike hy
    rw [← hsim.sameFrom_iff ⟨hs, hsx⟩ ⟨ht, hty⟩]
    exact hall s hs t ht ((hsim.sameUpTo_iff ⟨hs, hsx⟩ ⟨ht, hty⟩).2 hxy)
  · intro hall s hs t ht hst
    rw [hsim.sameFrom_iff ⟨hs, Setoid.refl _⟩ ⟨ht, Setoid.refl _⟩]
    refine hall _ (h.mem hs) _ (h.mem ht) ?_
    exact (hsim.sameUpTo_iff ⟨hs, Setoid.refl _⟩ ⟨ht, Setoid.refl _⟩).1 hst

end Renames

-- ====================================================== representatives

namespace RenamesInOrder

theorem pruned (h : A.RenamesInOrder B f) (hQ : Q.PrunedFrom A) (hR : R.PrunedFrom B) :
    Q.RenamesInOrder R f where
  toRenames := h.toRenames.pruned (SymbolSet.alike_of_eq h.alphabet) hQ hR
  alphabet := by rw [hQ.alphabet, hR.alphabet, h.alphabet]
  lt := fun hs ht => h.lt (mem_states_of_mem_reached (hQ.mem_states_iff.1 hs))
    (mem_states_of_mem_reached (hQ.mem_states_iff.1 ht))

section Partitions

variable (h : A.RenamesInOrder B f) (hP : P.Covers A) (hP' : P'.Covers B)
  (hsame : ∀ s ∈ A.states, ∀ t ∈ A.states,
    P.number s = P.number t ↔ P'.number (f s) = P'.number (f t))

include h hP hP' hsame

/-- The least state of a block gets the least of the new names. -/
theorem alike_representative {i j : Nat} {r u : Symbol} (hr : P.representatives[i]? = some r)
    (hu : P'.representatives[j]? = some u) (hj : P'.number (f r) = j) : f r ≈ u := by
  obtain ⟨hrmem, hri⟩ := hP.of_getElem?_representatives hr
  obtain ⟨humem, huj⟩ := hP'.of_getElem?_representatives hu
  obtain ⟨s, hs, hsu⟩ := h.exists_alike humem
  have hsi : P.number s = i := by
    rw [← hri, hsame s hs r hrmem, number_congr hsu, huj, hj]
  -- a state other than the representative would make one of the two not least
  rcases Symbol.lt_trichotomy r s with hlt | halike | hlt
  · have hsmaller := h.lt hrmem hs hlt
    rw [Symbol.lt_congr (Setoid.refl _) hsu] at hsmaller
    exact absurd hsmaller (hP'.not_lt_representative hu (h.mem hrmem) hj)
  · exact Setoid.trans ((h.alike_iff hrmem hs).2 halike) hsu
  · exact absurd hlt (hP.not_lt_representative hr hs hsi)

/-- The representatives of the one partition are renamed to those of the
other, place by place. -/
theorem map_representatives :
    P.representatives.map (fun r => (f r).plain) = P'.representatives.map Symbol.plain := by
  have hmem : ∀ {r}, r ∈ P.representatives → r ∈ A.states := by
    intro r hr
    obtain ⟨i, hi⟩ := List.mem_iff_getElem?.1 hr
    exact (hP.of_getElem?_representatives hi).1
  have hincreasing : (P.representatives.map fun r => (f r).plain).Pairwise (· < ·) := by
    refine List.pairwise_map.2 (P.pairwise_representatives.imp_of_mem fun {r u} hr hu hlt => ?_)
    rw [Symbol.lt_congr (Symbol.plain_alike (f r)) (Symbol.plain_alike (f u))]
    exact h.lt (hmem hr) (hmem hu) hlt
  refine SymbolSet.eq_of_increasing hincreasing P'.pairwise_plain_representatives fun x => ?_
  rw [List.mem_map, List.mem_map]
  constructor
  · intro hx
    obtain ⟨r, hr, rfl⟩ := hx
    obtain ⟨i, hi⟩ := List.mem_iff_getElem?.1 hr
    obtain ⟨u, hu, -⟩ := hP'.exists_representative (hP'.number_lt (h.mem (hmem hr)))
    refine ⟨u, List.mem_of_getElem? hu, ?_⟩
    exact (h.alike_representative hP hP' hsame hi hu rfl).symm
  · intro hx
    obtain ⟨u, hu, rfl⟩ := hx
    obtain ⟨j, hj⟩ := List.mem_iff_getElem?.1 hu
    obtain ⟨humem, huj⟩ := hP'.of_getElem?_representatives hj
    obtain ⟨s, hs, hsu⟩ := h.exists_alike humem
    -- the representative of the block that the state lies in is renamed to this one
    obtain ⟨r, hr, hrmem, hrs⟩ := hP.exists_representative (hP.number_lt hs)
    have hnumber : P'.number (f r) = j := by
      rw [(hsame r hrmem s hs).1 hrs, number_congr hsu, huj]
    exact ⟨r, List.mem_of_getElem? hr, h.alike_representative hP hP' hsame hr hj hnumber⟩

theorem size_eq_size : P.size = P'.size := by
  have hlength := congrArg List.length (h.map_representatives hP hP' hsame)
  rwa [List.length_map, List.length_map, length_representatives, length_representatives]
    at hlength

/-- A state and its new name have one number. -/
theorem number_eq_number (hs : s ∈ A.states) : P'.number (f s) = P.number s := by
  obtain ⟨r, hr, hrmem, hrs⟩ := hP.exists_representative (hP.number_lt hs)
  have hplace := congrArg (·[P.number s]?) (h.map_representatives hP hP' hsame)
  simp only [List.getElem?_map, hr, Option.map_some] at hplace
  obtain ⟨u, hu, halike⟩ := Option.map_eq_some_iff.1 hplace.symm
  obtain ⟨-, hui⟩ := hP'.of_getElem?_representatives hu
  rw [(hsame s hs r hrmem).1 hrs.symm, ← hui]
  exact number_congr (Setoid.symm halike)

end Partitions

-- ======================================================== minimization

section Minimization

variable (h : A.RenamesInOrder B f) (hm : Minimizes m A) (hn : Minimizes n B)

include h hm hn

theorem sameNumbers : SameNumbers m n f := by
  have hpruned := h.pruned hm.pruned hn.pruned
  have hsim := hpruned.simulation (SymbolSet.alike_of_eq hpruned.alphabet)
  have hsame : ∀ s ∈ m.pruned.states, ∀ t ∈ m.pruned.states,
      m.partition.number s = m.partition.number t ↔
        n.partition.number (f s) = n.partition.number (f t) := by
    intro s hs t ht
    rw [← hm.covers.together_iff hs ht, hm.together_iff s hs t ht,
      ← hn.covers.together_iff (hpruned.mem hs) (hpruned.mem ht),
      hn.together_iff _ (hpruned.mem hs) _ (hpruned.mem ht)]
    exact hsim.sameFrom_iff ⟨hs, Setoid.refl _⟩ ⟨ht, Setoid.refl _⟩
  exact ⟨hpruned.size_eq_size hm.covers hn.covers hsame, hpruned.mem,
    hpruned.number_eq_number hm.covers hn.covers hsame⟩

/-- The number of rounds is a length of words, which renaming keeps. -/
theorem rounds_eq (hA : A.minimization = .ok m) (hB : B.minimization = .ok n) :
    n.rounds = m.rounds := by
  have hpruned := h.pruned hm.pruned hn.pruned
  obtain ⟨P, hP, hPzero, hcourse⟩ := hm.exists_course hA
  obtain ⟨P', hP', hPzero', hcourse'⟩ := hn.exists_course hB
  have hleast := hcourse.isLeast_rounds hP hPzero
  simp only [hpruned.forall_sameFrom_iff (SymbolSet.alike_of_eq hpruned.alphabet)] at hleast
  exact (hcourse'.isLeast_rounds hP' hPzero').unique hleast

theorem removed_eq : n.removed = m.removed := by
  have hsize := (h.pruned hm.pruned hn.pruned).toRenames.size_eq
  unfold Minimization.removed
  rw [hsize, (h.sameNumbers hm hn).size_minimized_eq hm hn]

theorem minimized_eq (hA : A.minimization = .ok m) (hB : B.minimization = .ok n) :
    n.minimized = m.minimized := by
  have hpruned := h.pruned hm.pruned hn.pruned
  have hsame := h.sameNumbers hm hn
  have hsize := hsame.size_minimized_eq hm hn
  refine ((hm.numbered hA).eq_of_same (hn.numbered hB) hsize ?_
    (hsame.start_minimized_eq hm hn hpruned.start) ?_ ?_).symm
  · rw [hm.alphabet, hn.alphabet, h.alphabet]
  · intro i hi
    obtain ⟨s, hs, rfl⟩ := hm.exists_number_eq hi
    obtain ⟨hleft, hright⟩ := hsame.accepting_number_iff hm hn hs
    rw [hleft, hright, hpruned.accepting hs]
  · intro i hi c hc
    obtain ⟨s, hs, rfl⟩ := hm.exists_number_eq hi
    have hcm : c ∈ m.pruned.alphabet := by rwa [hm.minimized.alphabet] at hc
    exact hsame.next_number_eq hm hn hs hcm (hpruned.alphabet ▸ hcm) (hpruned.next hs hcm)

/-- The new name of a state is mapped to where the state is mapped. -/
theorem get?_mapping_eq (hs : s ∈ A.reached) :
    ∃ v, m.mapping.get? s = some v ∧ n.mapping.get? (f s) = some v := by
  have hsame := h.sameNumbers hm hn
  have hmem := hm.pruned.mem_states_iff.2 hs
  refine ⟨_, hm.get?_mapping_eq_number hmem, ?_⟩
  rw [hn.get?_mapping_eq_number (hsame.mem hmem), hsame.number hmem]

end Minimization

end RenamesInOrder

/-- Let the states of an automaton without a null state, which can be
compared, be given other names in the same order, which can be compared
and of which none is null. The automaton that results is minimized to the
same automaton, with as many rounds and as many states removed, and the
new name of every reachable state is mapped to where the state is. -/
theorem minimization_renameStates (hcomparable : Symbol.Comparable A.states.toList)
    (hnull : ¬Symbol.null ∈ A.states)
    (hf : ∀ s ∈ A.states.toList, ∀ t ∈ A.states.toList, s < t → f s < f t)
    (hnames : Symbol.Comparable (A.states.toList.map f))
    (hnamed : ∀ s ∈ A.states.toList, f s ≠ .null) :
    ∃ B m n, A.renameStates f = .ok B ∧ A.minimization = .ok m ∧ B.minimization = .ok n ∧
      n.minimized = m.minimized ∧ n.rounds = m.rounds ∧ n.removed = m.removed ∧
      ∀ s, A.Reachable s →
        ∃ v, m.mapping.get? s = some v ∧ n.mapping.get? (A.nameOf f s) = some v := by
  obtain ⟨B, hB, hBd⟩ := exists_renameStates hf
  have h := renamesInOrder_of_renameStates hf hBd
  have hcomparableB : Symbol.Comparable B.states.toList := by
    rw [hBd, toList_states_renamed hf]
    exact hnames
  have hnullB : ¬Symbol.null ∈ B.states := by
    rw [hBd, mem_states_renamed]
    intro hmem
    obtain ⟨s, hs, halike⟩ := hmem
    exact hnamed s hs (Symbol.alike_null_iff.1 (Setoid.symm halike))
  obtain ⟨m, hmA, hm⟩ := exists_minimization (minimizable_of_comparable hcomparable hnull)
  obtain ⟨n, hnB, hn⟩ := exists_minimization (minimizable_of_comparable hcomparableB hnullB)
  refine ⟨B, m, n, hB, hmA, hnB, h.minimized_eq hm hn hmA hnB, h.rounds_eq hm hn hmA hnB,
    h.removed_eq hm hn, fun s hs => ?_⟩
  exact h.get?_mapping_eq hm hn (mem_reached_iff.2 ⟨s, hs, Setoid.refl s⟩)

/-- Puts a letter for a number, "a" for 0. -/
def asLetter : Symbol → Symbol
  | .int n => .str (String.singleton (Char.ofNat (n.toNat + 97)))
  | s => s

theorem minimization_renameStates_modFour :
    Symbol.Comparable modFour.states.toList ∧ ¬Symbol.null ∈ modFour.states ∧
      (∀ s ∈ modFour.states.toList, ∀ t ∈ modFour.states.toList,
        s < t → asLetter s < asLetter t) ∧
      Symbol.Comparable (modFour.states.toList.map asLetter) ∧
      (∀ s ∈ modFour.states.toList, asLetter s ≠ .null) ∧
      ∃ B m n, modFour.renameStates asLetter = .ok B ∧ modFour.minimization = .ok m ∧
        B.minimization = .ok n ∧ n.minimized = m.minimized ∧ n.rounds = m.rounds ∧
        n.removed = m.removed ∧ ∀ s, modFour.Reachable s →
          ∃ v, m.mapping.get? s = some v ∧ n.mapping.get? (modFour.nameOf asLetter s) = some v :=
  have hcomparable : Symbol.Comparable modFour.states.toList := by decide
  have hnull : ¬Symbol.null ∈ modFour.states := by decide
  have hf : ∀ s ∈ modFour.states.toList, ∀ t ∈ modFour.states.toList,
      s < t → asLetter s < asLetter t := by decide +kernel
  have hnames : Symbol.Comparable (modFour.states.toList.map asLetter) := by decide
  have hnamed : ∀ s ∈ modFour.states.toList, asLetter s ≠ .null := by decide
  ⟨hcomparable, hnull, hf, hnames, hnamed,
    minimization_renameStates hcomparable hnull hf hnames hnamed⟩

-- renamed in the opposite order, the blocks change places
example : (modFour.minimize.map (·.start),
    (modFour.renameStates fun s => .int (-s.value)).bind fun B => B.minimize.map (·.start)) =
    (.ok (.int 0), .ok (.int 1)) := by decide +kernel

end Automata.Automaton
