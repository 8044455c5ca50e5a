/-
The coarsest partition among the stable ones: a round leaves it as it
is, its blocks agree on acceptance, and every partition of the states of
which that holds has its blocks within its blocks.

# Fixed and stable

`Fixed` is said with a round of refinement, `Stable` with the relation.
A round splits a block where a letter leads two of its states apart, so
they say the same (`Covers.fixed_iff_stable`).

# Greatest

In a stable partition whose blocks agree on acceptance, states that lie
together are led together by every word, so no word tells them apart
(`Stable.sameFrom`). The coarsest partition relates all states that no
word tells apart, so it relates these. No round has to be looked at
again: what the course of refinement does is already contained in the
words that its last partition decides.
-/
import Automata.Proofs.Partition.Alike
import Automata.Proofs.Partition.Course

namespace Automata

variable {A : Automaton} {P Q : Partition}

/-- What does not tell alike symbols apart holds of all that lie in a set
when it holds of its members. -/
theorem SymbolSet.forall_mem_iff {p : Symbol → Prop} (hp : ∀ x y, x ≈ y → (p x ↔ p y))
    {b : SymbolSet} : (∀ s ∈ b, p s) ↔ ∀ s ∈ b.toList, p s := by
  refine ⟨fun h s hs => h s (mem_of_mem_toList hs), fun h s hs => ?_⟩
  obtain ⟨x, hx, hsx⟩ := hs
  exact (hp s x hsx).2 (h x hx)

namespace Partition

-- ======================================================= block by block

/-- The blocks of the first partition lie in blocks of the second. -/
theorem finer_iff : Q.Finer P ↔ ∀ b ∈ Q.blocks, ∃ c ∈ P.blocks, ∀ s ∈ b, s ∈ c := by
  constructor
  · intro h b hb
    obtain ⟨x, hx, -⟩ := exists_least (Q.areBlocks.nonempty b hb)
    have hxb := SymbolSet.mem_of_mem_toList hx
    obtain ⟨c, hc, hxc, -⟩ := h x x ⟨b, hb, hxb, hxb⟩
    exact ⟨c, hc, fun s hs => (mem_block_iff hc hxc).2 (h x s ⟨b, hb, hxb, hs⟩)⟩
  · intro h s t hst
    obtain ⟨b, hb, hs, ht⟩ := hst
    obtain ⟨c, hc, hbc⟩ := h b hb
    exact ⟨c, hc, hbc s hs, hbc t ht⟩

/-- No block holds both accepting states and others. -/
theorem pure_iff : P.Pure A ↔
    ∀ b ∈ P.blocks, (∀ s ∈ b, s ∈ A.accepting) ∨ ∀ s ∈ b, ¬s ∈ A.accepting := by
  constructor
  · intro h b hb
    obtain ⟨x, hx, -⟩ := exists_least (P.areBlocks.nonempty b hb)
    have hxb := SymbolSet.mem_of_mem_toList hx
    have hsame : ∀ s ∈ b, (x ∈ A.accepting ↔ s ∈ A.accepting) := fun s hs =>
      h x s ⟨b, hb, hxb, hs⟩
    by_cases hacc : x ∈ A.accepting
    · exact Or.inl fun s hs => (hsame s hs).1 hacc
    · exact Or.inr fun s hs hs' => hacc ((hsame s hs).2 hs')
  · intro h s t hst
    obtain ⟨b, hb, hs, ht⟩ := hst
    rcases h b hb with hall | hnone
    · exact iff_of_true (hall s hs) (hall t ht)
    · exact iff_of_false (hnone s hs) (hnone t ht)

instance : Decidable (P.Pure A) :=
  decidable_of_iff (∀ b ∈ P.blocks, (∀ s ∈ b.toList, s ∈ A.accepting) ∨
      ∀ s ∈ b.toList, ¬s ∈ A.accepting) <| by
    rw [pure_iff]
    refine forall₂_congr fun b _ => or_congr ?_ ?_
    · exact (SymbolSet.forall_mem_iff fun _ _ => SymbolSet.mem_congr).symm
    · exact (SymbolSet.forall_mem_iff fun _ _ h => not_congr (SymbolSet.mem_congr h)).symm

theorem covers_iff_alike : P.Covers A ↔ SymbolSet.ofList (membersOf P.blocks) ≈ A.states := by
  rw [SymbolSet.alike_iff]
  refine forall_congr' fun s => iff_congr ?_ Iff.rfl
  rw [SymbolSet.mem_ofList]
  constructor
  · intro h
    obtain ⟨b, hb, x, hx, hsx⟩ := h
    exact ⟨x, List.mem_flatMap.2 ⟨b, hb, hx⟩, hsx⟩
  · intro h
    obtain ⟨x, hx, hsx⟩ := h
    obtain ⟨b, hb, hxb⟩ := List.mem_flatMap.1 hx
    exact ⟨b, hb, x, hxb, hsx⟩

instance : Decidable (P.Covers A) := decidable_of_iff _ covers_iff_alike.symm

-- ===================================================== fixed and stable

/-- A round of refinement leaves the partition as it is. -/
def Fixed (P : Partition) (A : Automaton) : Prop := ∃ Q, P.refine A = .ok Q ∧ Q ≈ P

theorem Covers.fixed_iff_stable (hP : P.Covers A) : P.Fixed A ↔ P.Stable A := by
  obtain ⟨Q, hQ, -, htogether⟩ := hP.exists_refine
  have hfixed : P.Fixed A ↔ Q ≈ P := by
    unfold Fixed
    rw [hQ]
    simp only [Except.ok.injEq, exists_eq_left']
  rw [hfixed, alike_iff]
  constructor
  · intro h s t hst
    exact ((htogether s t).1 ((h s t).2 hst)).2
  · intro h s t
    exact (htogether s t).trans (and_iff_left_of_imp (h s t))

/-- No word tells apart what lies together in a stable partition whose
blocks agree on acceptance. -/
theorem Stable.sameFrom (h : P.Stable A) (hpure : P.Pure A) {s t : Symbol}
    (hst : P.Together s t) : A.SameFrom A s t := by
  intro w hw
  exact hpure _ _ (h.after hst hw)

end Partition

-- ============================================== the coarsest partition

namespace Automaton

open Automata.Partition

theorem exists_coarsestPartition (h : Symbol.Comparable A.states.toList) :
    ∃ P, A.coarsestPartition = .ok P ∧ P.Covers A ∧ P.Stable A ∧
      ∀ s ∈ A.states, ∀ t ∈ A.states, P.Together s t ↔ A.SameFrom A s t := by
  obtain ⟨r, hr, hspec⟩ := exists_last h
  refine ⟨r.last, ?_, hspec⟩
  unfold coarsestPartition
  rw [hr]
  rfl

/-- Of the partitions of the states that a round leaves as they are, and
whose blocks agree on acceptance, the coarsest partition is the greatest:
it is one of them, and the blocks of each lie in its blocks. -/
theorem coarsestPartition_isGreatest (h : Symbol.Comparable A.states.toList) :
    ∃ P, A.coarsestPartition = .ok P ∧ P.Covers A ∧ P.Fixed A ∧
      (∀ b ∈ P.blocks, (∀ s ∈ b, s ∈ A.accepting) ∨ ∀ s ∈ b, ¬s ∈ A.accepting) ∧
      ∀ Q : Partition, Q.Covers A → Q.Fixed A →
        (∀ b ∈ Q.blocks, (∀ s ∈ b, s ∈ A.accepting) ∨ ∀ s ∈ b, ¬s ∈ A.accepting) →
        ∀ b ∈ Q.blocks, ∃ c ∈ P.blocks, ∀ s ∈ b, s ∈ c := by
  obtain ⟨P, hP, hcovers, hstable, htogether⟩ := exists_coarsestPartition h
  have hpure : P.Pure A := by
    intro s t hst
    obtain ⟨hs, ht⟩ := hcovers.mem_of_together hst
    exact (htogether s hs t ht).1 hst [] over_nil
  refine ⟨P, hP, hcovers, hcovers.fixed_iff_stable.2 hstable, pure_iff.1 hpure, ?_⟩
  intro Q hQ hfixed hunmixed
  have hsame : Q.Finer P := by
    intro s t hst
    obtain ⟨hs, ht⟩ := hQ.mem_of_together hst
    refine (htogether s hs t ht).2 ?_
    exact (hQ.fixed_iff_stable.1 hfixed).sameFrom (pure_iff.2 hunmixed) hst
  exact finer_iff.1 hsame

/-- The counts modulo two, but with the state 7 in a block of its own. -/
def modFourParts : Partition where
  blocks := [.ofList [.int 0, .int 2], .ofList [.int 1, .int 3], .ofList [.int 7]]
  index := numbering [.ofList [.int 0, .int 2], .ofList [.int 1, .int 3], .ofList [.int 7]]
  areBlocks := ⟨by decide, by decide, by decide, by decide⟩
  index_eq := rfl

theorem fixed_modFourParts : modFourParts.Fixed modFour :=
  ⟨modFourParts, by decide +kernel, Setoid.refl _⟩

theorem coarsestPartition_isGreatest_modFour :
    Symbol.Comparable modFour.states.toList ∧
      (modFourParts.Covers modFour ∧ modFourParts.Fixed modFour ∧
        ∀ b ∈ modFourParts.blocks,
          (∀ s ∈ b, s ∈ modFour.accepting) ∨ ∀ s ∈ b, ¬s ∈ modFour.accepting) ∧
      ∃ P, modFour.coarsestPartition = .ok P ∧ P.Covers modFour ∧ P.Fixed modFour ∧
        (∀ b ∈ P.blocks, (∀ s ∈ b, s ∈ modFour.accepting) ∨ ∀ s ∈ b, ¬s ∈ modFour.accepting) ∧
        ∀ b ∈ modFourParts.blocks, ∃ c ∈ P.blocks, ∀ s ∈ b, s ∈ c := by
  have h : Symbol.Comparable modFour.states.toList := by decide
  have hcovers : modFourParts.Covers modFour := by decide +kernel
  have hunmixed := pure_iff.1 (show modFourParts.Pure modFour by decide)
  obtain ⟨P, hP, hPcovers, hPfixed, hPunmixed, hgreatest⟩ := coarsestPartition_isGreatest h
  exact ⟨h, ⟨hcovers, fixed_modFourParts, hunmixed⟩, P, hP, hPcovers, hPfixed, hPunmixed,
    hgreatest _ hcovers fixed_modFourParts hunmixed⟩

end Automaton

end Automata
