/-
Partitions of the states of an automaton, seen as a relation: which
symbols lie together in a block.

A partition comes with an index, and the index is what the refinement
reads; the relation `Together` is what is said about it. The two agree
on covered states (`together_iff`), and from there on a partition is
its relation.

# Counting

Refinement compares nothing but numbers of blocks. If every block of the
one partition lies in a block of the other, mapping blocks to the blocks
that they lie in is onto, so the finer one has at least as many
(`size_le_of_finer`). If they have equally many the map is one to one,
and no block was split (`together_of_size_eq`).
-/
import Mathlib.Data.Fintype.EquivFin
import Automata.Automaton.Basic
import Automata.Partition.Basic

namespace Automata

/-- The sets are parts of a whole: none is empty, no two have a member in
common, and in them lies what lies in the whole. -/
structure SymbolSet.Parts (ls : List SymbolSet) (whole : SymbolSet) : Prop where
  nonempty : ∀ l ∈ ls, ∃ x, x ∈ l
  disjoint : ls.Pairwise SymbolSet.Disjoint
  covers : ∀ x, (∃ l ∈ ls, x ∈ l) ↔ x ∈ whole

namespace Partition

variable {P Q : Partition} {A : Automaton}

-- ==================================================== the relation

/-- Two symbols lie in one block. -/
def Together (P : Partition) (s t : Symbol) : Prop := ∃ b ∈ P.blocks, s ∈ b ∧ t ∈ b

/-- The blocks hold the states of the automaton and nothing else. -/
def Covers (P : Partition) (A : Automaton) : Prop :=
  ∀ s, (∃ b ∈ P.blocks, s ∈ b) ↔ s ∈ A.states

/-- The number of the block that a symbol lies in; of no meaning for
others. -/
def number (P : Partition) (s : Symbol) : Nat := (P.blockOf? s).getD 0

/-- Every block of the first partition lies in a block of the second. -/
def Finer (P Q : Partition) : Prop := ∀ s t, P.Together s t → Q.Together s t

theorem blockOf?_congr {s t : Symbol} (h : s ≈ t) : P.blockOf? s = P.blockOf? t :=
  SymbolMap.get?_congr h

theorem number_congr {s t : Symbol} (h : s ≈ t) : P.number s = P.number t := by
  unfold number
  rw [blockOf?_congr h]

/-- A covered state has the number of its block. -/
theorem Covers.blockOf?_eq (hP : P.Covers A) {s : Symbol} (hs : s ∈ A.states) :
    P.blockOf? s = some (P.number s) := by
  obtain ⟨b, hb, hsb⟩ := (hP s).2 hs
  obtain ⟨i, hi⟩ := List.mem_iff_getElem?.1 hb
  have hblock := blockOf?_eq_some_iff.2 ⟨b, hi, hsb⟩
  unfold number
  rw [hblock, Option.getD_some]

theorem Covers.exists_block (hP : P.Covers A) {s : Symbol} (hs : s ∈ A.states) :
    ∃ b, P.blocks[P.number s]? = some b ∧ s ∈ b :=
  blockOf?_eq_some_iff.1 (hP.blockOf?_eq hs)

theorem Covers.number_lt (hP : P.Covers A) {s : Symbol} (hs : s ∈ A.states) :
    P.number s < P.size := by
  obtain ⟨b, hb, -⟩ := hP.exists_block hs
  exact (List.getElem?_eq_some_iff.1 hb).1

theorem Covers.number_eq (hP : P.Covers A) {i : Nat} {b : SymbolSet} (hb : P.blocks[i]? = some b)
    {s : Symbol} (hs : s ∈ b) : P.number s = i := by
  have hmem : s ∈ A.states := (hP s).1 ⟨b, List.mem_of_getElem? hb, hs⟩
  have hblock := blockOf?_eq_some_iff.2 ⟨b, hb, hs⟩
  rw [hP.blockOf?_eq hmem, Option.some.injEq] at hblock
  exact hblock

/-- Every number below the number of blocks is that of some state. -/
theorem Covers.exists_number (hP : P.Covers A) {i : Nat} (hi : i < P.size) :
    ∃ s ∈ A.states, P.number s = i := by
  have hb : P.blocks[i]? = some P.blocks[i] := List.getElem?_eq_getElem hi
  obtain ⟨s, hs, -⟩ := exists_least (P.areBlocks.nonempty _ (List.mem_of_getElem? hb))
  have hmem := SymbolSet.mem_of_mem_toList hs
  exact ⟨s, (hP s).1 ⟨_, List.mem_of_getElem? hb, hmem⟩, hP.number_eq hb hmem⟩

/-- States lie together when they have the same number. -/
theorem Covers.together_iff (hP : P.Covers A) {s t : Symbol} (hs : s ∈ A.states)
    (ht : t ∈ A.states) : P.Together s t ↔ P.number s = P.number t := by
  constructor
  · intro h
    obtain ⟨b, hb, hsb, htb⟩ := h
    obtain ⟨i, hi⟩ := List.mem_iff_getElem?.1 hb
    rw [hP.number_eq hi hsb, hP.number_eq hi htb]
  · intro h
    obtain ⟨b, hb, hsb⟩ := hP.exists_block hs
    obtain ⟨c, hc, htc⟩ := hP.exists_block ht
    rw [h, hc, Option.some.injEq] at hb
    subst hb
    exact ⟨c, List.mem_of_getElem? hc, hsb, htc⟩

theorem Covers.mem_of_together (hP : P.Covers A) {s t : Symbol} (h : P.Together s t) :
    s ∈ A.states ∧ t ∈ A.states := by
  obtain ⟨b, hb, hs, ht⟩ := h
  exact ⟨(hP s).1 ⟨b, hb, hs⟩, (hP t).1 ⟨b, hb, ht⟩⟩

theorem Covers.together_refl (hP : P.Covers A) {s : Symbol} (hs : s ∈ A.states) :
    P.Together s s := (hP.together_iff hs hs).2 rfl

/-- The covered states can be compared by size. -/
theorem Covers.comparable_states (hP : P.Covers A) : Symbol.Comparable A.states.toList := by
  refine SymbolSet.comparable_toList_iff.2 fun x hx y hy hne => ?_
  obtain ⟨b, hb, x', hx', hxx'⟩ := (hP x).2 hx
  obtain ⟨c, hc, y', hy', hyy'⟩ := (hP y).2 hy
  have hne' : x' ≠ y' := by
    intro h
    subst h
    exact hne (Setoid.trans hxx' (Setoid.symm hyy'))
  rw [Symbol.comparable_congr hxx' hyy']
  exact P.areBlocks.comparable.comparable_of_ne (List.mem_flatMap.2 ⟨b, hb, hx'⟩)
    (List.mem_flatMap.2 ⟨c, hc, hy'⟩) hne'

-- ==================================================== construction

/-- Blocks are disjoint when no two of their members are alike. -/
theorem distinct_membersOf_iff {bs : List SymbolSet} :
    Symbol.Distinct (membersOf bs) ↔ bs.Pairwise SymbolSet.Disjoint := by
  constructor
  · intro h
    refine (List.pairwise_flatMap.1 h).2.imp fun {b c} hbc s hsb hsc => ?_
    obtain ⟨x, hx, hsx⟩ := hsb
    obtain ⟨y, hy, hsy⟩ := hsc
    exact hbc x hx y hy (Setoid.trans (Setoid.symm hsx) hsy)
  · intro h
    refine List.pairwise_flatMap.2 ⟨fun b _ => ?_, h.imp fun {b c} hbc x hx y hy hxy => ?_⟩
    · exact b.distinct_toList
    · exact hbc x (SymbolSet.mem_of_mem_toList hx) ⟨y, hy, hxy⟩

/-- Empty blocks have no members. -/
theorem membersOf_filter (bs : List SymbolSet) :
    membersOf (bs.filter fun b => !b.isEmpty) = membersOf bs := by
  induction bs with
  | nil => rfl
  | cons b bs ih =>
      cases hb : b.isEmpty with
      | false =>
          have hkept : (b :: bs).filter (fun b => !b.isEmpty) =
              b :: bs.filter fun b => !b.isEmpty := List.filter_cons_of_pos (by simp [hb])
          rw [hkept]
          exact congrArg (b.toList ++ ·) ih
      | true =>
          have hnil : b.toList = [] := List.eq_nil_iff_forall_not_mem.2 fun x hx =>
            SymbolSet.isEmpty_iff.1 hb x (SymbolSet.mem_of_mem_toList hx)
          have hdropped : (b :: bs).filter (fun b => !b.isEmpty) =
              bs.filter fun b => !b.isEmpty := List.filter_cons_of_neg (by simp [hb])
          rw [hdropped, ih]
          exact (congrArg (· ++ membersOf bs) hnil).symm

/-- Blocks can be put in order when all their members can be compared. -/
theorem sortable_iff {bs : List SymbolSet} :
    Sortable (bs.filter fun b => !b.isEmpty) ↔ Symbol.Comparable (membersOf bs) := by
  constructor
  · intro h
    rw [← membersOf_filter]
    exact comparable_membersOf (fun b hb => by simpa using (List.mem_filter.1 hb).2) h
  · intro h
    rw [← membersOf_filter] at h
    obtain ⟨hin, hbetween⟩ := List.pairwise_flatMap.1 h
    refine ⟨hin, List.pairwise_filterMap.2 (hbetween.imp fun {b c} hbc m hm n hn => ?_)⟩
    exact hbc m (SymbolSet.least?_eq_some_iff.1 hm).1 n (SymbolSet.least?_eq_some_iff.1 hn).1

/-- Blocks with members that cannot be compared make no partition. -/
theorem ofBlocks_eq_incomparable {bs : List SymbolSet}
    (h : ¬Symbol.Comparable (membersOf bs)) :
    ofBlocks bs = .error .incomparable := by
  unfold ofBlocks
  exact dif_neg fun hsort => h (sortable_iff.1 hsort)

/-- Counting tells whether blocks are disjoint, also when they have been put
in order and the empty ones left out. -/
theorem size_numbering_sortBy_iff {bs : List SymbolSet} :
    (numbering (sortBy SymbolSet.leads (bs.filter fun b => !b.isEmpty))).size =
      memberCount (sortBy SymbolSet.leads (bs.filter fun b => !b.isEmpty)) ↔
        bs.Pairwise SymbolSet.Disjoint := by
  rw [size_numbering_iff, ← distinct_membersOf_iff, ← membersOf_filter bs]
  exact (perm_membersOf_sortBy _).pairwise_iff fun {x y} h h' => h (Setoid.symm h')

/-- Blocks of comparable symbols make a partition of the nonempty ones
among them if they are disjoint. -/
theorem exists_ofBlocks_of_comparable {bs : List SymbolSet}
    (h : Symbol.Comparable (membersOf bs)) (hdisjoint : bs.Pairwise SymbolSet.Disjoint) :
    ∃ P, ofBlocks bs = .ok P ∧ ∀ b, b ∈ P.blocks ↔ b ∈ bs ∧ b.isEmpty = false := by
  refine ⟨_, (dif_pos (sortable_iff.2 h)).trans (dif_pos (size_numbering_sortBy_iff.2 hdisjoint)),
    fun b => ?_⟩
  show b ∈ sortBy SymbolSet.leads (bs.filter fun b => !b.isEmpty) ↔ _
  rw [mem_sortBy, List.mem_filter, Bool.not_eq_true']

/-- Blocks of comparable symbols overlap when they are not disjoint. -/
theorem ofBlocks_eq_overlap_iff {bs : List SymbolSet} (h : Symbol.Comparable (membersOf bs)) :
    ofBlocks bs = .error .overlap ↔ ¬bs.Pairwise SymbolSet.Disjoint := by
  constructor
  · intro herror hdisjoint
    obtain ⟨P, hP, -⟩ := exists_ofBlocks_of_comparable h hdisjoint
    rw [hP] at herror
    cases herror
  · intro hdisjoint
    exact (dif_pos (sortable_iff.2 h)).trans (dif_neg (mt size_numbering_sortBy_iff.1 hdisjoint))

/-- Disjoint blocks of members of a set make a partition if the members of
the set can be compared. -/
theorem exists_ofBlocks {bs : List SymbolSet} {S : SymbolSet} (hS : Symbol.Comparable S.toList)
    (hsub : ∀ b ∈ bs, ∀ s ∈ b, s ∈ S) (hdisjoint : bs.Pairwise SymbolSet.Disjoint) :
    ∃ P, ofBlocks bs = .ok P ∧ ∀ b, b ∈ P.blocks ↔ b ∈ bs ∧ b.isEmpty = false := by
  have hmem : ∀ x ∈ membersOf bs, x ∈ S := by
    intro x hx
    obtain ⟨b, hb, hxb⟩ := List.mem_flatMap.1 hx
    exact hsub b hb x (SymbolSet.mem_of_mem_toList hxb)
  refine exists_ofBlocks_of_comparable ?_ hdisjoint
  refine List.Pairwise.imp_of_mem (fun {x y} hx hy hne => ?_) (distinct_membersOf_iff.2 hdisjoint)
  exact SymbolSet.comparable_toList_iff.1 hS x (hmem x hx) y (hmem y hy) hne

theorem isEmpty_eq_false_of_mem {b : SymbolSet} {s : Symbol} (h : s ∈ b) : b.isEmpty = false := by
  by_contra hne
  rw [Bool.not_eq_false] at hne
  exact SymbolSet.isEmpty_iff.1 hne s h

/-- A partition made of disjoint blocks relates what one of the blocks
holds. -/
theorem together_of_mem_blocks_iff {bs : List SymbolSet}
    (h : ∀ b, b ∈ P.blocks ↔ b ∈ bs ∧ b.isEmpty = false) {s t : Symbol} :
    P.Together s t ↔ ∃ b ∈ bs, s ∈ b ∧ t ∈ b := by
  constructor
  · intro hst
    obtain ⟨b, hb, hmem⟩ := hst
    exact ⟨b, ((h b).1 hb).1, hmem⟩
  · intro hst
    obtain ⟨b, hb, hs, ht⟩ := hst
    exact ⟨b, (h b).2 ⟨hb, isEmpty_eq_false_of_mem hs⟩, hs, ht⟩

/-- Covering can be told from the relation. -/
theorem covers_iff : P.Covers A ↔ ∀ s, P.Together s s ↔ s ∈ A.states := by
  unfold Covers Together
  simp only [and_self]

-- ======================================================== counting

/-- The block of the second partition that a block of the first lies in,
as told by one of its members. -/
theorem exists_block_map (hP : P.Covers A) (hQ : Q.Covers A) (h : Q.Finer P) :
    ∃ f : Fin Q.size → Fin P.size, f.Surjective ∧
      ∀ s (hs : s ∈ A.states), (f ⟨Q.number s, hQ.number_lt hs⟩).val = P.number s := by
  have hmember : ∀ i : Fin Q.size, ∃ s, s ∈ A.states ∧ Q.number s = i.val :=
    fun i => hQ.exists_number i.isLt
  choose m hm hnumber using hmember
  have hvalue : ∀ s (hs : s ∈ A.states),
      P.number (m ⟨Q.number s, hQ.number_lt hs⟩) = P.number s := by
    intro s hs
    refine (hP.together_iff (hm _) hs).1 (h _ _ ?_)
    exact (hQ.together_iff (hm _) hs).2 (hnumber _)
  refine ⟨fun i => ⟨P.number (m i), hP.number_lt (hm i)⟩, ?_, hvalue⟩
  intro j
  obtain ⟨s, hs, hj⟩ := hP.exists_number j.isLt
  refine ⟨⟨Q.number s, hQ.number_lt hs⟩, Fin.ext ?_⟩
  exact (hvalue s hs).trans hj

theorem size_le_of_finer (hP : P.Covers A) (hQ : Q.Covers A) (h : Q.Finer P) :
    P.size ≤ Q.size := by
  obtain ⟨f, hf, -⟩ := exists_block_map hP hQ h
  have hcard := Fintype.card_le_of_surjective f hf
  rwa [Fintype.card_fin, Fintype.card_fin] at hcard

/-- A finer partition with as many blocks splits none. -/
theorem together_of_size_eq (hP : P.Covers A) (hQ : Q.Covers A) (h : Q.Finer P)
    (hsize : Q.size = P.size) : P.Finer Q := by
  obtain ⟨f, hf, hvalue⟩ := exists_block_map hP hQ h
  have hinj : f.Injective := by
    refine ((Fintype.bijective_iff_surjective_and_card f).2 ⟨hf, ?_⟩).1
    rw [Fintype.card_fin, Fintype.card_fin, hsize]
  intro s t hst
  obtain ⟨hs, ht⟩ := hP.mem_of_together hst
  refine (hQ.together_iff hs ht).2 ?_
  have hfe : f ⟨Q.number s, hQ.number_lt hs⟩ = f ⟨Q.number t, hQ.number_lt ht⟩ := by
    refine Fin.ext ?_
    rw [hvalue s hs, hvalue t ht]
    exact (hP.together_iff hs ht).1 hst
  exact congrArg Fin.val (hinj hfe)

/-- There are not more blocks than states. -/
theorem Covers.size_le (hP : P.Covers A) : P.size ≤ A.size := by
  have hmem : ∀ i : Fin A.states.toList.length, A.states.toList[i] ∈ A.states :=
    fun i => SymbolSet.mem_of_mem_toList (List.getElem_mem i.isLt)
  have hsurj : Function.Surjective fun i : Fin A.states.toList.length =>
      (⟨P.number A.states.toList[i], hP.number_lt (hmem i)⟩ : Fin P.size) := by
    intro j
    obtain ⟨s, hs, hj⟩ := hP.exists_number j.isLt
    obtain ⟨t, ht, hst⟩ := hs
    obtain ⟨i, hi, rfl⟩ := List.mem_iff_getElem.1 ht
    refine ⟨⟨i, hi⟩, Fin.ext ?_⟩
    show P.number A.states.toList[i] = j.val
    rw [← number_congr hst, hj]
  have hcard := Fintype.card_le_of_surjective _ hsurj
  rwa [Fintype.card_fin, Fintype.card_fin, SymbolSet.length_toList] at hcard

theorem Covers.size_pos (hP : P.Covers A) : 0 < P.size :=
  Nat.lt_of_le_of_lt (Nat.zero_le _) (hP.number_lt A.start_mem)

end Partition

end Automata
