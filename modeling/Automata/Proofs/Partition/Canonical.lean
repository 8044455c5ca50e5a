/-
The partition that listed blocks make: when there is one, and that it
shows nothing of how the blocks were listed.

That blocks are disjoint is told by counting, after they have been put in
the order of their least members and numbered from there
(`size_numbering_sortBy_iff`). How many symbols are numbered does not
depend on the order, so blocks with a common member are told wherever they
come to stand, also if their least members are the same. All other blocks
make a partition.

# Canonical

A partition is determined by which symbols it relates
(`Partition.alike_iff`). Listing blocks in another order, listing empty
ones, or listing members again relates the same symbols (`SameSets`), so
it makes the same partition, with the same numbers.
-/
import Mathlib.Logic.Relation
import Automata.Proofs.Partition.Alike
import Automata.Proofs.Relisting

namespace Automata

-- ====================================================== listed blocks

/-- Some symbol belongs to two of the listed blocks. -/
def Symbol.Overlap (bs : List (List Symbol)) : Prop :=
  ∃ (i j : Nat) (b c : List Symbol), i < j ∧ bs[i]? = some b ∧ bs[j]? = some c ∧
    ∃ s : Symbol, s.Among b ∧ s.Among c

theorem Symbol.not_overlap_iff {bs : List (List Symbol)} :
    ¬Overlap bs ↔ (bs.map SymbolSet.ofList).Pairwise SymbolSet.Disjoint := by
  rw [List.pairwise_map, List.pairwise_iff_getElem]
  constructor
  · intro h i j hi hj hij s hsi hsj
    refine h ⟨i, j, _, _, hij, List.getElem?_eq_getElem hi, List.getElem?_eq_getElem hj, s, ?_, ?_⟩
    · exact SymbolSet.mem_ofList_iff_among.1 hsi
    · exact SymbolSet.mem_ofList_iff_among.1 hsj
  · intro h hoverlap
    obtain ⟨i, j, b, c, hij, hb, hc, s, hsb, hsc⟩ := hoverlap
    obtain ⟨hi, rfl⟩ := List.getElem?_eq_some_iff.1 hb
    obtain ⟨hj, rfl⟩ := List.getElem?_eq_some_iff.1 hc
    exact h i j hi hj hij s (SymbolSet.mem_ofList_iff_among.2 hsb)
      (SymbolSet.mem_ofList_iff_among.2 hsc)

instance (bs : List (List Symbol)) : Decidable (Symbol.Overlap bs) :=
  decidable_of_iff (¬Symbol.Distinct (membersOf (bs.map .ofList))) <| by
    rw [Partition.distinct_membersOf_iff, ← Symbol.not_overlap_iff, Classical.not_not]

/-- A way to list the same blocks anew: in another order, with an empty
block more, or with other members that are alike to these, as when some
are repeated. -/
inductive Relisting : List (List Symbol) → List (List Symbol) → Prop
  | reorder {bs cs : List (List Symbol)} (h : bs.Perm cs) : Relisting bs cs
  | insertEmpty (bs : List (List Symbol)) : Relisting bs ([] :: bs)
  | repeatMembers {bs cs : List (List Symbol)} (h : List.Forall₂ Symbol.SameElements bs cs) :
      Relisting bs cs

/-- The blocks relate the same symbols, and there is the same to be said
against making a partition of them. -/
structure SameSets (bs cs : List SymbolSet) : Prop where
  comparable : Symbol.Comparable (membersOf bs) ↔ Symbol.Comparable (membersOf cs)
  disjoint : bs.Pairwise SymbolSet.Disjoint ↔ cs.Pairwise SymbolSet.Disjoint
  shared : ∀ s t, (∃ b ∈ bs, s ∈ b ∧ t ∈ b) ↔ ∃ c ∈ cs, s ∈ c ∧ t ∈ c

namespace SameSets

variable {bs cs ds : List SymbolSet}

theorem refl (bs : List SymbolSet) : SameSets bs bs :=
  ⟨Iff.rfl, Iff.rfl, fun _ _ => Iff.rfl⟩

theorem symm (h : SameSets bs cs) : SameSets cs bs :=
  ⟨h.comparable.symm, h.disjoint.symm, fun s t => (h.shared s t).symm⟩

theorem trans (h : SameSets bs cs) (h' : SameSets cs ds) : SameSets bs ds :=
  ⟨h.comparable.trans h'.comparable, h.disjoint.trans h'.disjoint,
    fun s t => (h.shared s t).trans (h'.shared s t)⟩

theorem of_perm (h : bs.Perm cs) : SameSets bs cs where
  comparable := by
    refine (h.flatMap_right SymbolSet.toList).pairwise_iff fun {x y} hxy => ?_
    rwa [Symbol.comparable_comm]
  disjoint := h.pairwise_iff fun hbc s hc hb => hbc s hb hc
  shared := fun _ _ => exists_congr fun _ => and_congr_left fun _ => h.mem_iff

theorem of_empty (bs : List SymbolSet) : SameSets bs (.ofList [] :: bs) where
  comparable := Iff.rfl
  disjoint := by
    rw [List.pairwise_cons]
    refine (and_iff_right fun b _ s hs => ?_).symm
    exact absurd hs (by simp)
  shared := by
    intro s t
    rw [List.exists_mem_cons_iff]
    refine (or_iff_right fun h => ?_).symm
    exact absurd h.1 (by simp)

/-- How members are written makes no difference. -/
theorem plain (bs : List SymbolSet) : SameSets bs (bs.map SymbolSet.plain) where
  comparable := by
    have hmembers : membersOf (bs.map SymbolSet.plain) = (membersOf bs).map Symbol.plain := by
      unfold membersOf
      rw [List.flatMap_map, List.map_flatMap]
      exact List.flatMap_congr fun b _ => Array.toList_map
    rw [hmembers]
    unfold Symbol.Comparable
    rw [List.pairwise_map]
    simp only [Symbol.comparable_congr (Symbol.plain_alike _) (Symbol.plain_alike _)]
  disjoint := by
    rw [List.pairwise_map]
    unfold SymbolSet.Disjoint
    simp only [SymbolSet.mem_plain]
  shared := by
    intro s t
    simp only [List.mem_map, exists_exists_and_eq_and, SymbolSet.mem_plain]

theorem of_alike (h : List.Forall₂ (· ≈ ·) bs cs) : SameSets bs cs := by
  have hplain : bs.map SymbolSet.plain = cs.map SymbolSet.plain := by
    induction h with
    | nil => rfl
    | @cons b c bs cs hbc _ ih =>
        rw [List.map_cons, List.map_cons, ih, show b.plain = c.plain from hbc]
  have hbs := plain bs
  rw [hplain] at hbs
  exact hbs.trans (plain cs).symm

end SameSets

/-- The same blocks listed anew are the same sets. -/
theorem sameSets_of_relisting {bs cs : List (List Symbol)} (h : Relation.EqvGen Relisting bs cs) :
    SameSets (bs.map .ofList) (cs.map .ofList) := by
  induction h with
  | refl bs => exact .refl _
  | symm bs cs _ ih => exact ih.symm
  | trans bs cs ds _ _ ih ih' => exact ih.trans ih'
  | rel bs cs h =>
      cases h with
      | reorder h => exact .of_perm (h.map _)
      | insertEmpty => exact .of_empty _
      | repeatMembers h =>
          refine .of_alike (List.forall₂_map_left_iff.2 (List.forall₂_map_right_iff.2 ?_))
          exact h.imp fun _ _ hbc => SymbolSet.ofList_alike hbc

namespace Partition

variable {bs cs : List SymbolSet} {P Q : Partition}

-- ========================================================= partitions

theorem pairwise_disjoint (P : Partition) : P.blocks.Pairwise SymbolSet.Disjoint :=
  distinct_membersOf_iff.1 P.areBlocks.distinct

theorem blockOf_eq_ok_iff {s : Symbol} {i : Nat} :
    P.blockOf s = .ok i ↔ ∃ b, P.blocks[i]? = some b ∧ s ∈ b :=
  SymbolMap.fetch_eq_ok_iff.trans blockOf?_eq_some_iff

/-- A symbol that lies in no block has no number. -/
theorem blockOf_eq_error {s : Symbol} (h : ∀ b ∈ P.blocks, ¬s ∈ b) :
    P.blockOf s = .error (.missing s) := by
  have hnone : P.index.get? s = none := by
    refine Option.eq_none_iff_forall_not_mem.2 fun i hi => ?_
    obtain ⟨b, hb, hs⟩ := blockOf?_eq_some_iff.1 hi
    exact h b (List.mem_of_getElem? hb) hs
  exact SymbolMap.fetch_eq_error_iff.2 ⟨hnone, rfl⟩

/-- Alike partitions give every symbol the same number, or none. -/
theorem blockOf_eq_of_alike (h : P ≈ Q) (s : Symbol) : P.blockOf s = Q.blockOf s := by
  have hindex : P.index.get? s = Q.index.get? s := blockOf?_eq_of_alike h s
  unfold blockOf SymbolMap.fetch
  rw [hindex]

/-- Blocks that are the same sets make the same partition. -/
theorem ofBlocks_alike (h : SameSets bs cs) (hP : ofBlocks bs = .ok P)
    (hcomparable : Symbol.Comparable (membersOf bs)) (hdisjoint : bs.Pairwise SymbolSet.Disjoint) :
    ∃ Q, ofBlocks cs = .ok Q ∧ Q ≈ P := by
  obtain ⟨P', hP', hblocks⟩ := exists_ofBlocks_of_comparable hcomparable hdisjoint
  rw [hP, Except.ok.injEq] at hP'
  subst hP'
  obtain ⟨Q, hQ, hblocks'⟩ := exists_ofBlocks_of_comparable (h.comparable.1 hcomparable)
    (h.disjoint.1 hdisjoint)
  refine ⟨Q, hQ, alike_iff.2 fun s t => ?_⟩
  rw [together_of_mem_blocks_iff hblocks', together_of_mem_blocks_iff hblocks, h.shared]

/-- The partition of the listed blocks: it relates what stands in one of
them, its blocks are nonempty and disjoint and stand in the order of their
least members, and every symbol has the number of its block. -/
structure PartitionOf (P : Partition) (bs : List (List Symbol)) : Prop where
  nonempty : ∀ b ∈ P.blocks, ∃ s, s ∈ b
  disjoint : P.blocks.Pairwise SymbolSet.Disjoint
  covered : ∀ s : Symbol, (∃ b ∈ P.blocks, s ∈ b) ↔ ∃ b ∈ bs, s.Among b
  together : ∀ s t, P.Together s t ↔ ∃ b ∈ bs, s.Among b ∧ t.Among b
  increasing : P.blocks.Pairwise fun b c =>
    ∃ m n, b.least? = some m ∧ c.least? = some n ∧ m < n
  numbered : ∀ s i, P.blockOf s = .ok i ↔ ∃ b, P.blocks[i]? = some b ∧ s ∈ b
  unnumbered : ∀ s, (∀ b ∈ P.blocks, ¬s ∈ b) → P.blockOf s = .error (.missing s)

theorem partitionOf_of_blocks {bs : List (List Symbol)}
    (h : ∀ b, b ∈ P.blocks ↔ b ∈ bs.map SymbolSet.ofList ∧ b.isEmpty = false) :
    P.PartitionOf bs where
  nonempty := by
    intro b hb
    obtain ⟨m, hm, -⟩ := exists_least (P.areBlocks.nonempty b hb)
    exact ⟨m, SymbolSet.mem_of_mem_toList hm⟩
  disjoint := P.pairwise_disjoint
  covered := by
    intro s
    have hshared := together_of_mem_blocks_iff h (s := s) (t := s)
    simp only [Together, and_self] at hshared
    rw [hshared]
    simp only [List.mem_map, exists_exists_and_eq_and, SymbolSet.mem_ofList_iff_among]
  together := by
    intro s t
    rw [together_of_mem_blocks_iff h]
    simp only [List.mem_map, exists_exists_and_eq_and, SymbolSet.mem_ofList_iff_among]
  increasing := by
    refine (pairwise_blocks P).imp_of_mem fun {b c} hb hc hlt => ?_
    obtain ⟨m, -, hm⟩ := exists_least (P.areBlocks.nonempty b hb)
    obtain ⟨n, -, hn⟩ := exists_least (P.areBlocks.nonempty c hc)
    rw [hm, hn] at hlt
    exact ⟨m, n, hm, hn, hlt⟩
  numbered := fun _ _ => blockOf_eq_ok_iff
  unnumbered := fun _ => blockOf_eq_error

/-- Listed blocks, of which all members can be compared by size, overlap
just when some symbol belongs to two of them. If none does they make a
partition, and however the same blocks are listed, in another order, with
empty ones and with members repeated, they make the same one, with the
same numbers. -/
theorem ofBlocks_canonical {bs : List (List Symbol)}
    (h : Symbol.Comparable (membersOf (bs.map .ofList))) :
    (ofBlocks (bs.map .ofList) = .error .overlap ↔ Symbol.Overlap bs) ∧
      (¬Symbol.Overlap bs → ∃ P, ofBlocks (bs.map .ofList) = .ok P ∧ P.PartitionOf bs ∧
        ∀ cs, Relation.EqvGen Relisting bs cs →
          ∃ Q, ofBlocks (cs.map .ofList) = .ok Q ∧ Q ≈ P ∧ ∀ s, Q.blockOf s = P.blockOf s) := by
  refine ⟨?_, fun hnot => ?_⟩
  · rw [ofBlocks_eq_overlap_iff h, ← Symbol.not_overlap_iff, Classical.not_not]
  · have hdisjoint := Symbol.not_overlap_iff.1 hnot
    obtain ⟨P, hP, hblocks⟩ := exists_ofBlocks_of_comparable h hdisjoint
    refine ⟨P, hP, partitionOf_of_blocks hblocks, fun cs hcs => ?_⟩
    obtain ⟨Q, hQ, hQP⟩ := ofBlocks_alike (sameSets_of_relisting hcs) hP h hdisjoint
    exact ⟨Q, hQ, hQP, blockOf_eq_of_alike hQP⟩

/-- Three blocks and an empty one, with a member listed twice. -/
def threeBlocks : List (List Symbol) :=
  [[.int 4, .int 2, .int 4], [], [.int 3, .int 0], [.int 1]]

/-- The same in another order, with 1 listed again as a truth value. -/
def threeBlocksRelisted : List (List Symbol) :=
  [[.int 1, .bool true], [.int 0, .int 3], [.int 4, .int 2]]

theorem relisting_threeBlocks : Relation.EqvGen Relisting threeBlocks threeBlocksRelisted := by
  have hreorder : Relisting threeBlocks
      ([] :: [[.int 1], [.int 3, .int 0], [.int 4, .int 2, .int 4]]) := .reorder (by decide)
  have hmembers : Relisting [[.int 1], [.int 3, .int 0], [.int 4, .int 2, .int 4]]
      threeBlocksRelisted := by
    refine .repeatMembers (.cons ?_ (.cons ?_ (.cons ?_ .nil))) <;> decide
  exact .trans _ _ _ (.rel _ _ hreorder)
    (.trans _ _ _ (.symm _ _ (.rel _ _ (.insertEmpty _))) (.rel _ _ hmembers))

theorem ofBlocks_canonical_threeBlocks :
    Symbol.Comparable (membersOf (threeBlocks.map .ofList)) ∧ ¬Symbol.Overlap threeBlocks ∧
      (∃ P Q, ofBlocks (threeBlocks.map .ofList) = .ok P ∧ P.PartitionOf threeBlocks ∧
        ofBlocks (threeBlocksRelisted.map .ofList) = .ok Q ∧ Q ≈ P ∧
        ∀ s, Q.blockOf s = P.blockOf s) ∧
      ofBlocks ([[.int 0, .int 1], [.int 1, .int 2]].map .ofList) = .error .overlap := by
  have h : Symbol.Comparable (membersOf (threeBlocks.map .ofList)) := by decide +kernel
  have hdisjoint : ¬Symbol.Overlap threeBlocks := by decide +kernel
  obtain ⟨P, hP, hspec, hcanonical⟩ := (ofBlocks_canonical h).2 hdisjoint
  obtain ⟨Q, hQ, hQP⟩ := hcanonical _ relisting_threeBlocks
  refine ⟨h, hdisjoint, ⟨P, Q, hP, hspec, hQ, hQP⟩, ?_⟩
  exact (ofBlocks_canonical (by decide +kernel)).1.2 (by decide +kernel)

-- null cannot be compared, not even with itself, so that is told first
example : ofBlocks ([[.null], [.null]].map .ofList) = .error .incomparable := by decide +kernel

end Partition

end Automata
