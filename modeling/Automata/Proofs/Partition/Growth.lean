/-
How a partition grows along its course: every round but the last makes
more blocks.

A round never merges blocks, so it makes more of them or splits none.
The partitions of a course are therefore a chain in which each is
strictly finer than the one before (`RefinesTo.isChain`), the last has
at least a block for every round more than the first
(`RefinesTo.size_add_rounds_le`), and there are no more partitions than
states (`RefinesTo.length_partitions_le`).

The count is one better where it matters. The least number of blocks
with which a course can go on is two, since a single block is never
split; so the rounds fall short of the blocks of the last partition by
two (`RefinesTo.rounds_le`), or there are none.
-/
import Mathlib.Data.List.Chain
import Automata.Proofs.Partition.Course

namespace Automata

variable {A : Automaton} {P Q : Partition} {r : Refinement}

-- ========================================================== one round

namespace Partition

/-- Every block of the first partition lies in a block of the second, but
some block of the second in none of the first. -/
def StrictlyFiner (Q P : Partition) : Prop := Q.Finer P ∧ ¬P.Finer Q

/-- A round that does not keep the number of blocks makes more of them. -/
theorem Covers.size_lt_refine (hP : P.Covers A) (hQ : P.refine A = .ok Q)
    (hne : Q.size ≠ P.size) : P.size < Q.size := by
  have hle := size_le_of_finer hP (hP.refine hQ).1 (hP.finer_refine hQ)
  omega

theorem Covers.strictlyFiner_refine (hP : P.Covers A) (hQ : P.refine A = .ok Q)
    (hne : Q.size ≠ P.size) : Q.StrictlyFiner P := by
  refine ⟨hP.finer_refine hQ, fun hback => ?_⟩
  have hle := size_le_of_finer (hP.refine hQ).1 hP hback
  have hlt := hP.size_lt_refine hQ hne
  omega

/-- A single block is not split: wherever letters lead, they lead together. -/
theorem Covers.size_refine_of_size_eq_one (hP : P.Covers A) (hone : P.size = 1)
    (hQ : P.refine A = .ok Q) : Q.size = P.size := by
  have hall : ∀ s ∈ A.states, ∀ t ∈ A.states, P.Together s t := by
    intro s hs t ht
    have hs' := hP.number_lt hs
    have ht' := hP.number_lt ht
    exact (hP.together_iff hs ht).2 (by omega)
  obtain ⟨hcovers, htogether⟩ := hP.refine hQ
  have hback : P.Finer Q := by
    intro s t hst
    obtain ⟨hs, ht⟩ := hP.mem_of_together hst
    refine (htogether s t).2 ⟨hst, fun c hc => ?_⟩
    exact hall _ (Automaton.next_mem hs hc) _ (Automaton.next_mem ht hc)
  have hle := size_le_of_finer hcovers hP hback
  have hge := size_le_of_finer hP hcovers (hP.finer_refine hQ)
  omega

end Partition

-- ========================================================= the course

namespace Automaton.RefinesTo

open Automata.Partition

theorem head?_partitions (h : A.RefinesTo P r) : r.partitions.head? = some P := by
  cases h with
  | stop hround hsize => rfl
  | round hround hsize hcourse => rfl

theorem covers (h : A.RefinesTo P r) (hP : P.Covers A) : ∀ Q ∈ r.partitions, Q.Covers A := by
  induction h with
  | stop hround hsize => exact List.forall_mem_singleton.2 hP
  | round hround hsize hcourse ih =>
      exact List.forall_mem_cons.2 ⟨hP, ih (hP.refine hround).1⟩

/-- Each partition of a course is strictly finer than the one before. -/
theorem isChain (h : A.RefinesTo P r) (hP : P.Covers A) :
    r.partitions.IsChain fun Q R => R.StrictlyFiner Q := by
  induction h with
  | stop hround hsize => exact List.isChain_singleton _
  | @round P Q r hround hsize hcourse ih =>
      refine List.isChain_cons.2 ⟨fun R hR => ?_, ih (hP.refine hround).1⟩
      have hfirst : r.partitions.head? = some R := hR
      rw [hcourse.head?_partitions, Option.some.injEq] at hfirst
      exact hfirst ▸ hP.strictlyFiner_refine hround hsize

/-- Every round of a course has made at least a block more. -/
theorem size_add_rounds_le (h : A.RefinesTo P r) (hP : P.Covers A) :
    P.size + r.rounds ≤ r.last.size := by
  induction h with
  | stop hround hsize => exact Nat.le_refl _
  | @round P Q r hround hsize hcourse ih =>
      have hlt := hP.size_lt_refine hround hsize
      have hle := ih (hP.refine hround).1
      show P.size + (r.rounds + 1) ≤ r.last.size
      omega

theorem length_partitions (r : Refinement) : r.partitions.length = r.rounds + 1 :=
  List.length_append

/-- There are not more partitions than states. -/
theorem length_partitions_le (h : A.RefinesTo P r) (hP : P.Covers A) :
    r.partitions.length ≤ A.size := by
  have hlast : r.last ∈ r.partitions := List.mem_append_right _ List.mem_cons_self
  have hle := (h.covers hP r.last hlast).size_le
  have hgrowth := h.size_add_rounds_le hP
  have hpos := hP.size_pos
  rw [length_partitions]
  omega

/-- The rounds fall short of the blocks by two, or there are none. -/
theorem rounds_le (h : A.RefinesTo P r) (hP : P.Covers A) : r.rounds ≤ r.last.size - 2 := by
  by_cases hone : P.size = 1
  · cases h with
    | stop hround hsize => exact Nat.zero_le _
    | round hround hsize hcourse =>
        exact absurd (hP.size_refine_of_size_eq_one hone hround) hsize
  · have hgrowth := h.size_add_rounds_le hP
    have hpos := hP.size_pos
    omega

end Automaton.RefinesTo

end Automata
