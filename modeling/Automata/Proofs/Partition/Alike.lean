/-
When two partitions are one: a partition is determined by the relation
that it stands for.

Blocks are kept in the order of their least members, so the members of
the blocks settle their order and with it their numbers. Two partitions
that relate the same symbols have the same blocks (`alike_iff`), and then
the same index: a symbol has the same number in both
(`blockOf?_eq_of_alike`). To show that two computations give one
partition it is enough to say of each which symbols it relates.
-/
import Automata.Proofs.Partition.Blocks

namespace Automata.Partition

variable {P Q : Partition} {b c : SymbolSet} {s t : Symbol}

-- ============================================================== blocks

/-- Blocks of a partition that have a member in common are one. -/
theorem eq_of_mem_blocks (hb : b ∈ P.blocks) (hc : c ∈ P.blocks) (hsb : s ∈ b) (hsc : s ∈ c) :
    b = c := by
  obtain ⟨i, hi⟩ := List.mem_iff_getElem?.1 hb
  obtain ⟨j, hj⟩ := List.mem_iff_getElem?.1 hc
  have hnumber := blockOf?_eq_some_iff.2 ⟨b, hi, hsb⟩
  rw [blockOf?_eq_some_iff.2 ⟨c, hj, hsc⟩, Option.some.injEq] at hnumber
  subst hnumber
  rw [hi, Option.some.injEq] at hj
  exact hj

/-- A block holds what lies together with one of its members. -/
theorem mem_block_iff (hb : b ∈ P.blocks) (hs : s ∈ b) : t ∈ b ↔ P.Together s t := by
  refine ⟨fun ht => ⟨b, hb, hs, ht⟩, fun h => ?_⟩
  obtain ⟨c, hc, hsc, htc⟩ := h
  rw [eq_of_mem_blocks hb hc hs hsc]
  exact htc

theorem least?_plain (b : SymbolSet) : b.plain.least? = b.least?.map Symbol.plain :=
  Array.getElem?_map

/-- The blocks stand in the order of their least members. -/
theorem pairwise_blocks (P : Partition) :
    P.blocks.Pairwise fun b c => b.least?.getD .null < c.least?.getD .null := by
  refine P.areBlocks.leading.imp_of_mem fun {b c} hb hc hlt => ?_
  obtain ⟨x, -, hx⟩ := exists_least (P.areBlocks.nonempty b hb)
  obtain ⟨y, -, hy⟩ := exists_least (P.areBlocks.nonempty c hc)
  unfold SymbolSet.leads at hlt
  rw [hx, hy] at hlt ⊢
  exact of_decide_eq_true hlt

/-- A partition is determined by its blocks, in whatever order they were
given. -/
theorem eq_of_mem_blocks_iff (h : ∀ b, b ∈ P.blocks ↔ b ∈ Q.blocks) : P = Q := by
  have hblocks := SymbolSet.eq_of_increasing (pairwise_blocks P) (pairwise_blocks Q) h
  obtain ⟨blocks, index, hP, hindexP⟩ := P
  obtain ⟨blocks', index', hQ, hindexQ⟩ := Q
  have hblocks : blocks = blocks' := hblocks
  subst hblocks
  subst hindexP hindexQ
  rfl

/-- Written plainly, the blocks stand in the order of their least members. -/
theorem pairwise_plain_blocks (P : Partition) : (P.blocks.map SymbolSet.plain).Pairwise
    fun b c => b.least?.getD .null < c.least?.getD .null := by
  refine List.pairwise_map.2 ((pairwise_blocks P).imp_of_mem fun {b c} hb hc hlt => ?_)
  obtain ⟨x, -, hx⟩ := exists_least (P.areBlocks.nonempty b hb)
  obtain ⟨y, -, hy⟩ := exists_least (P.areBlocks.nonempty c hc)
  rw [hx, hy] at hlt
  rw [least?_plain, least?_plain, hx, hy]
  show x.plain < y.plain
  rwa [Symbol.lt_congr (Symbol.plain_alike x) (Symbol.plain_alike y)]

-- ============================================================ relations

/-- Where the relation is the same, so is every block. -/
theorem exists_alike_block (h : ∀ s t, P.Together s t ↔ Q.Together s t) (hb : b ∈ P.blocks) :
    ∃ c ∈ Q.blocks, c ≈ b := by
  obtain ⟨x, hx, -⟩ := exists_least (P.areBlocks.nonempty b hb)
  have hxb := SymbolSet.mem_of_mem_toList hx
  obtain ⟨c, hc, hxc, -⟩ := (h x x).1 ⟨b, hb, hxb, hxb⟩
  refine ⟨c, hc, SymbolSet.alike_iff.2 fun y => ?_⟩
  rw [mem_block_iff hc hxc, mem_block_iff hb hxb, h]

/-- Partitions are alike exactly when they relate the same symbols. -/
theorem alike_iff : P ≈ Q ↔ ∀ s t, P.Together s t ↔ Q.Together s t := by
  constructor
  · intro h s t
    have hplain : ∀ R : Partition, R.Together s t ↔
        ∃ b ∈ R.blocks.map SymbolSet.plain, s ∈ b ∧ t ∈ b := by
      intro R
      simp only [List.mem_map, exists_exists_and_eq_and, SymbolSet.mem_plain]
      rfl
    rw [hplain, hplain, show P.blocks.map SymbolSet.plain = Q.blocks.map SymbolSet.plain from h]
  · intro h
    refine SymbolSet.eq_of_increasing (pairwise_plain_blocks P) (pairwise_plain_blocks Q)
      fun b => ?_
    simp only [List.mem_map]
    constructor
    · intro hb
      obtain ⟨b, hb, rfl⟩ := hb
      exact exists_alike_block h hb
    · intro hb
      obtain ⟨b, hb, rfl⟩ := hb
      exact exists_alike_block (fun s t => (h s t).symm) hb

-- ============================================================== numbers

theorem size_eq_of_alike (h : P ≈ Q) : P.size = Q.size := by
  have hlength := congrArg List.length h
  rwa [List.length_map, List.length_map] at hlength

/-- Alike partitions number every symbol in the same way. -/
theorem blockOf?_eq_of_alike (h : P ≈ Q) (s : Symbol) : P.blockOf? s = Q.blockOf? s := by
  have hplain : ∀ (R : Partition) (i : Nat), R.blockOf? s = some i ↔
      ∃ b, (R.blocks.map SymbolSet.plain)[i]? = some b ∧ s ∈ b := by
    intro R i
    rw [blockOf?_eq_some_iff]
    simp only [List.getElem?_map, Option.map_eq_some_iff, exists_exists_and_eq_and,
      SymbolSet.mem_plain]
  refine Option.ext fun i => ?_
  rw [hplain, hplain, show P.blocks.map SymbolSet.plain = Q.blocks.map SymbolSet.plain from h]

theorem number_eq_of_alike (h : P ≈ Q) (s : Symbol) : P.number s = Q.number s := by
  unfold number
  rw [blockOf?_eq_of_alike h]

end Automata.Partition
