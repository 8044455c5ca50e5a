/-
Collapsing the blocks of a partition: which automaton `rebuild` gives,
and that for a stable partition it runs in step with the whole.

The new automaton is read off the least member of each block, so for any
partition of the states it exists, and `QuotientOf` says what it is in
terms of these representatives. For a partition that letters keep
together and that agrees on acceptance, a representative stands for all
of its block, and the new state of a state is the number of its block
(`QuotientOf.next_number`, `QuotientOf.accepting_number`).
-/
import Automata.Minimization
import Automata.Proofs.Partition.Course

namespace Automata

variable {A M : Automaton} {P : Partition}

/-- A set of the numbers below a bound has as many members. -/
theorem SymbolSet.size_eq_of_mem_iff {S : SymbolSet} {n : Nat}
    (h : ∀ s, s ∈ S ↔ ∃ i < n, s ≈ .ofNat i) : S.size = n := by
  have halike : S ≈ .ofList ((List.range n).map .ofNat) := by
    refine alike_iff.2 fun s => ?_
    rw [h, mem_ofList_map]
    simp only [List.mem_range]
  have hdistinct : Symbol.Distinct ((List.range n).map Symbol.ofNat) := by
    refine List.pairwise_map.2 (List.nodup_range.imp fun {i j} hne h => ?_)
    exact hne (Symbol.ofNat_alike_iff.1 h)
  rw [size_eq_of_alike halike, Symbol.size_ofList_eq_length_iff.2 hdistinct, List.length_map,
    List.length_range]

namespace Partition

-- ================================================== representatives

theorem representatives_eq (P : Partition) :
    P.representatives = P.blocks.map fun b => b.least?.getD .null := by
  have hsome : ∀ b ∈ P.blocks, b.least? = some (b.least?.getD .null) := by
    intro b hb
    obtain ⟨m, -, hm⟩ := exists_least (P.areBlocks.nonempty b hb)
    rw [hm, Option.getD_some]
  unfold representatives
  rw [List.filterMap_congr hsome, List.filterMap_eq_map']

@[simp] theorem length_representatives (P : Partition) : P.representatives.length = P.size := by
  rw [representatives_eq, List.length_map]
  rfl

/-- The representative at a place is the least member of the block there. -/
theorem exists_block_of_representative {i : Nat} {r : Symbol}
    (hr : P.representatives[i]? = some r) : ∃ b, P.blocks[i]? = some b ∧ b.least? = some r := by
  rw [representatives_eq, List.getElem?_map, Option.map_eq_some_iff] at hr
  obtain ⟨b, hb, hr⟩ := hr
  obtain ⟨m, -, hm⟩ := exists_least (P.areBlocks.nonempty b (List.mem_of_getElem? hb))
  rw [hm, Option.getD_some] at hr
  subst hr
  exact ⟨b, hb, hm⟩

/-- The representative at a place is a state with that number. -/
theorem Covers.of_getElem?_representatives (hP : P.Covers A) {i : Nat} {r : Symbol}
    (hr : P.representatives[i]? = some r) : r ∈ A.states ∧ P.number r = i := by
  obtain ⟨b, hb, hm⟩ := exists_block_of_representative hr
  have hmb := SymbolSet.mem_of_mem_toList (SymbolSet.least?_eq_some_iff.1 hm).1
  exact ⟨hP.mem_states_of_mem (List.mem_of_getElem? hb) hmb, hP.number_eq hb hmb⟩

/-- No state with the same number is smaller. -/
theorem Covers.not_lt_representative (hP : P.Covers A) {i : Nat} {r s : Symbol}
    (hr : P.representatives[i]? = some r) (hs : s ∈ A.states) (hsi : P.number s = i) :
    ¬s < r := by
  obtain ⟨b, hb, hleast⟩ := exists_block_of_representative hr
  obtain ⟨c, hc, hsc⟩ := hP.exists_block hs
  rw [hsi, hb, Option.some.injEq] at hc
  exact (SymbolSet.least?_eq_some_iff.1 hleast).2 s (hc ▸ hsc)

theorem Covers.exists_representative (hP : P.Covers A) {i : Nat} (hi : i < P.size) :
    ∃ r, P.representatives[i]? = some r ∧ r ∈ A.states ∧ P.number r = i := by
  rw [← length_representatives] at hi
  have hr := List.getElem?_eq_getElem hi
  exact ⟨_, hr, hP.of_getElem?_representatives hr⟩

/-- Blocks are numbered in the order of their representatives. -/
theorem pairwise_representatives (P : Partition) : P.representatives.Pairwise (· < ·) := by
  unfold representatives
  refine List.pairwise_filterMap.2 (P.areBlocks.leading.imp fun {b c} h m hm n hn => ?_)
  unfold SymbolSet.leads at h
  rw [hm, hn] at h
  exact of_decide_eq_true h

theorem pairwise_plain_representatives (P : Partition) :
    (P.representatives.map Symbol.plain).Pairwise (· < ·) := by
  refine List.pairwise_map.2 (P.pairwise_representatives.imp fun {x y} hxy => ?_)
  rwa [Symbol.lt_congr (Symbol.plain_alike x) (Symbol.plain_alike y)]

end Partition

open Automata.Partition

namespace Automaton

-- ==================================================== the new automaton

/-- The row of a representative: the numbers of the blocks that the
letters lead to. -/
def numberedRow (A : Automaton) (P : Partition) (r : Symbol) : List (Symbol × Symbol) :=
  A.letters.map fun c => (c, .ofNat (P.number (A.next r c)))

theorem quotientRow_eq_ok (hP : P.Covers A) {r : Symbol} (hr : r ∈ A.states) :
    A.quotientRow P r = .ok (A.numberedRow P r) := by
  obtain ⟨row, hrow, hentry⟩ := exists_fetch hr
  unfold quotientRow numberedRow
  rw [hrow]
  refine mapM_eq_ok fun c hc => ?_
  have hmem := over_letters c hc
  rw [hentry c hmem]
  show (do
    let j ← P.blockOf (A.next r c)
    return (c, Symbol.ofNat j)) = _
  rw [hP.blockOf_eq_ok (next_mem hr hmem)]
  rfl

/-- What the automaton on the blocks of a partition is made from. -/
def quotient (A : Automaton) (P : Partition) : Presentation where
  states := (List.range P.size).map .ofNat
  alphabet := A.letters
  start := .ofNat (P.number A.start)
  accepting := P.representatives.zipIdx.filterMap fun (r, i) =>
    if r ∈ A.accepting then some (.ofNat i) else none
  delta := (P.representatives.map (A.numberedRow P)).zipIdx.map fun (row, i) => (.ofNat i, row)

theorem rebuild_eq_build (hP : P.Covers A) : A.rebuild P = (A.quotient P).build := by
  have hrows : P.representatives.mapM (A.quotientRow P)
      = .ok (P.representatives.map (A.numberedRow P)) := by
    refine mapM_eq_ok fun r hr => ?_
    obtain ⟨i, hi⟩ := List.mem_iff_getElem?.1 hr
    exact quotientRow_eq_ok hP (hP.of_getElem?_representatives hi).1
  unfold rebuild
  rw [hrows, hP.blockOf_eq_ok A.start_mem]
  rfl

theorem mem_states_quotient {t : Symbol} :
    t ∈ (A.quotient P).description.states ↔ ∃ i < P.size, t ≈ .ofNat i := by
  show t ∈ SymbolSet.ofList ((List.range P.size).map .ofNat) ↔ _
  rw [SymbolSet.mem_ofList_map]
  simp only [List.mem_range]

theorem mem_accepting_quotient {t : Symbol} : t ∈ (A.quotient P).description.accepting ↔
    ∃ i r, P.representatives[i]? = some r ∧ r ∈ A.accepting ∧ t ≈ .ofNat i := by
  show t ∈ SymbolSet.ofList (A.quotient P).accepting ↔ _
  rw [SymbolSet.mem_ofList]
  unfold quotient
  simp only [List.mem_filterMap, Prod.exists, List.mem_zipIdx_iff_getElem?,
    Option.ite_none_right_eq_some, Option.some.injEq]
  constructor
  · intro h
    obtain ⟨_, ⟨r, i, hr, hacc, rfl⟩, ht⟩ := h
    exact ⟨i, r, hr, hacc, ht⟩
  · intro h
    obtain ⟨i, r, hr, hacc, ht⟩ := h
    exact ⟨_, ⟨r, i, hr, hacc, rfl⟩, ht⟩

/-- The row of a new state is that of its representative. -/
theorem get?_delta_quotient {i : Nat} {r : Symbol} (hr : P.representatives[i]? = some r) :
    (A.quotient P).description.delta.get? (.ofNat i) = some (.ofList (A.numberedRow P r)) := by
  have hmem : ∀ e : Symbol × Row, e ∈ ((A.quotient P).delta.map fun row => (row.1, .ofList row.2)) →
      ∃ j s, P.representatives[j]? = some s ∧ e = (.ofNat j, .ofList (A.numberedRow P s)) := by
    intro e he
    unfold quotient at he
    simp only [List.map_map, List.mem_map, Function.comp, Prod.exists,
      List.mem_zipIdx_iff_getElem?, List.getElem?_map, Option.map_eq_some_iff] at he
    obtain ⟨_, j, ⟨s, hs, rfl⟩, rfl⟩ := he
    exact ⟨j, s, hs, rfl⟩
  refine SymbolMap.get?_ofList_of_mem (j := .ofNat i) ?_ (Setoid.refl _) fun e he halike => ?_
  · unfold quotient
    simp only [List.map_map, List.mem_map, Function.comp, Prod.exists,
      List.mem_zipIdx_iff_getElem?, List.getElem?_map, Option.map_eq_some_iff]
    exact ⟨_, i, ⟨r, hr, rfl⟩, rfl⟩
  · obtain ⟨j, s, hs, rfl⟩ := hmem e he
    rw [Symbol.ofNat_alike_iff.1 halike, hs, Option.some.injEq] at hr
    rw [hr]

/-- In its row a letter leads to the block that it leads the
representative to. -/
theorem get?_numberedRow {r c : Symbol} (hc : c ∈ A.alphabet) :
    (SymbolMap.ofList (A.numberedRow P r)).get? c = some (.ofNat (P.number (A.next r c))) := by
  obtain ⟨d, hd, hcd⟩ := hc
  have hvalue : ∀ e ∈ A.numberedRow P r, c ≈ e.1 → e.2 = .ofNat (P.number (A.next r c)) := by
    intro e he hce
    obtain ⟨d, -, rfl⟩ := List.mem_map.1 he
    show Symbol.ofNat _ = _
    rw [number_congr (next_congr (Setoid.refl r) hce)]
  refine SymbolMap.get?_ofList_of_mem (j := d) ?_ hcd hvalue
  rw [number_congr (next_congr (Setoid.refl r) hcd)]
  exact List.mem_map_of_mem (mem_letters.2 hd)

theorem alphabet_quotient : (A.quotient P).description.alphabet = A.alphabet :=
  SymbolSet.ofList_listing A.alphabet

/-- The data of the quotient fit together. -/
theorem exists_build_quotient (hP : P.Covers A) : ∃ M, (A.quotient P).build = .ok M ∧
    M.toDescription = (A.quotient P).description := by
  refine Description.exists_build (mem_states_quotient.2 ⟨_, hP.number_lt A.start_mem, rfl⟩)
    (fun s hs => ?_) fun s hs => ?_
  · obtain ⟨i, r, hr, -, hsi⟩ := mem_accepting_quotient.1 hs
    refine mem_states_quotient.2 ⟨i, ?_, hsi⟩
    rw [← length_representatives]
    exact (List.getElem?_eq_some_iff.1 hr).1
  · obtain ⟨i, hi, hsi⟩ := mem_states_quotient.1 hs
    obtain ⟨r, hr, hmem, -⟩ := hP.exists_representative hi
    refine ⟨_, (SymbolMap.get?_congr hsi).trans (get?_delta_quotient hr), fun c hc => ?_⟩
    rw [alphabet_quotient] at hc
    refine ⟨_, get?_numberedRow hc, mem_states_quotient.2 ⟨_, ?_, Setoid.refl _⟩⟩
    exact hP.number_lt (next_mem hmem hc)

/-- The automaton on the blocks of a partition of the states. -/
structure QuotientOf (M A : Automaton) (P : Partition) : Prop where
  mem_states_iff : ∀ {t}, t ∈ M.states ↔ ∃ i < P.size, t ≈ .ofNat i
  size : M.size = P.size
  alphabet : M.alphabet = A.alphabet
  start : M.start = .ofNat (P.number A.start)
  accepting : ∀ {i r}, P.representatives[i]? = some r →
    (.ofNat i ∈ M.accepting ↔ r ∈ A.accepting)
  next : ∀ {i r}, P.representatives[i]? = some r → ∀ {c}, c ∈ A.alphabet →
    M.next (.ofNat i) c = .ofNat (P.number (A.next r c))

/-- Every partition of the states can be collapsed. -/
theorem exists_rebuild (hP : P.Covers A) : ∃ M, A.rebuild P = .ok M ∧ M.QuotientOf A P := by
  obtain ⟨M, hM, hd⟩ := exists_build_quotient hP
  have hstates : M.states = (A.quotient P).description.states := by rw [hd]
  refine ⟨M, (rebuild_eq_build hP).trans hM, ?_, ?_, ?_, ?_, fun {i r} hr => ?_,
    fun {i r} hr c hc => ?_⟩
  · rw [hstates]
    exact mem_states_quotient
  · unfold size
    rw [hstates]
    exact SymbolSet.size_eq_of_mem_iff fun _ => mem_states_quotient
  · rw [hd, alphabet_quotient]
  · rw [hd]
    rfl
  · rw [hd, mem_accepting_quotient]
    refine ⟨fun h => ?_, fun h => ⟨i, r, hr, h, Setoid.refl _⟩⟩
    obtain ⟨j, s, hs, hacc, hij⟩ := h
    rw [Symbol.ofNat_alike_iff.1 hij, hs, Option.some.injEq] at hr
    exact hr ▸ hacc
  · have hrow := get?_delta_quotient (A := A) hr
    rw [← hd] at hrow
    exact next_eq_of_move? ((get?_row hrow c).symm.trans (get?_numberedRow hc))

-- ================================================ stable partitions

namespace QuotientOf

/-- Of a partition that agrees on acceptance, a block accepts where any
of its states does. -/
theorem accepting_number (h : M.QuotientOf A P) (hP : P.Covers A) (hpure : P.Pure A) {s : Symbol}
    (hs : s ∈ A.states) : .ofNat (P.number s) ∈ M.accepting ↔ s ∈ A.accepting := by
  obtain ⟨r, hr, hmem, hnumber⟩ := hP.exists_representative (hP.number_lt hs)
  rw [h.accepting hr]
  exact hpure r s ((hP.together_iff hmem hs).2 hnumber)

/-- Of a stable partition, a letter leads from a block to where it leads
any of its states. -/
theorem next_number (h : M.QuotientOf A P) (hP : P.Covers A) (hstable : P.Stable A) {s c : Symbol}
    (hs : s ∈ A.states) (hc : c ∈ A.alphabet) :
    M.next (.ofNat (P.number s)) c = .ofNat (P.number (A.next s c)) := by
  obtain ⟨r, hr, hmem, hnumber⟩ := hP.exists_representative (hP.number_lt hs)
  have htogether := hstable r s ((hP.together_iff hmem hs).2 hnumber) c hc
  rw [h.next hr hc, (hP.together_iff (next_mem hmem hc) (next_mem hs hc)).1 htogether]

/-- The whole and its blocks run in step. -/
theorem simulation (h : M.QuotientOf A P) (hP : P.Covers A) (hstable : P.Stable A)
    (hpure : P.Pure A) :
    Simulation A M fun s t => s ∈ A.states ∧ t = .ofNat (P.number s) where
  alphabet := SymbolSet.alike_of_eq h.alphabet.symm
  start := ⟨A.start_mem, h.start⟩
  accepting := by
    intro s t hst
    rw [hst.2, h.accepting_number hP hpure hst.1]
  next := by
    intro s t c hst hc
    rw [hst.2, h.next_number hP hstable hst.1 hc]
    exact ⟨next_mem hst.1 hc, rfl⟩

/-- Every new state is the number of an old one. -/
theorem exists_number (h : M.QuotientOf A P) (hP : P.Covers A) {t : Symbol} (ht : t ∈ M.states) :
    ∃ s ∈ A.states, t ≈ .ofNat (P.number s) := by
  obtain ⟨i, hi, hti⟩ := h.mem_states_iff.1 ht
  obtain ⟨s, hs, hnumber⟩ := hP.exists_number hi
  rw [← hnumber] at hti
  exact ⟨s, hs, hti⟩

/-- Of a partition that relates all states from which the same words are
accepted, no two blocks accept the same words. -/
theorem alike_of_sameFrom (h : M.QuotientOf A P) (hP : P.Covers A) (hstable : P.Stable A)
    (htogether : ∀ s ∈ A.states, ∀ t ∈ A.states, P.Together s t ↔ A.SameFrom A s t)
    {t u : Symbol} (ht : t ∈ M.states) (hu : u ∈ M.states) (htu : M.SameFrom M t u) : t ≈ u := by
  obtain ⟨s, hs, hts⟩ := h.exists_number hP ht
  obtain ⟨r, hr, hur⟩ := h.exists_number hP hu
  have hsim := h.simulation hP hstable
    (hP.pure_of_sameFrom fun x hx y hy => (htogether x hx y hy).1)
  have ha := hsim.alphabet
  have hsr : A.SameFrom A s r := by
    have hst := (hsim.sameFrom ⟨hs, rfl⟩).trans ha (sameFrom_of_alike (Setoid.symm hts))
    have hru := (hsim.sameFrom ⟨hr, rfl⟩).trans ha (sameFrom_of_alike (Setoid.symm hur))
    exact (hst.trans ha htu).trans ha (hru.symm ha)
  rw [(hP.together_iff hs hr).1 ((htogether s hs r hr).2 hsr)] at hts
  exact Setoid.trans hts (Setoid.symm hur)

end QuotientOf

end Automaton

end Automata
