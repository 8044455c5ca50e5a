/-
The course of refinement: it ends, its k-th partition tells apart what
words of length at most k tell apart, and its last one what words of any
length do.

# Ending

Each round but the last makes more blocks, and there are never more
blocks than states, so the count of rounds that `refinements` allows is
not used up (`exists_refineFrom`). The course is recorded as a relation,
`RefinesTo`, with one case for the round that ends it and one for a
round before; what is proved of courses is proved by induction on it.

# Words

`Decides k` says that a partition relates the states on which words of
length at most k agree. The initial partition decides 0, and a round
takes k to k + 1 (`Decides.refine`), which is the recursion of words on
their first letter.

The course ends when a round makes no more blocks. A round only splits
blocks, so then it split none: the last partition is `Stable`, letters
keep its states together, and with acceptance decided so does every
word. Comparing the numbers of blocks is therefore enough.
-/
import Automata.Proofs.Partition.Round

namespace Automata

variable {A : Automaton} {P Q : Partition}

-- ================================================ words of some length

namespace Automaton

/-- Words of length at most k over the alphabet are accepted from both
states or from neither. -/
def SameUpTo (A : Automaton) (k : Nat) (s t : Symbol) : Prop :=
  ∀ w, A.Over w → w.length ≤ k → (A.after s w ∈ A.accepting ↔ A.after t w ∈ A.accepting)

theorem sameUpTo_zero {s t : Symbol} :
    A.SameUpTo 0 s t ↔ (s ∈ A.accepting ↔ t ∈ A.accepting) := by
  constructor
  · intro h
    exact h [] over_nil (Nat.le_refl 0)
  · intro h w _ hw
    rw [List.length_eq_zero_iff.1 (Nat.le_zero.1 hw)]
    exact h

/-- A word one longer is a word, or a letter before a word. -/
theorem sameUpTo_succ {k : Nat} {s t : Symbol} : A.SameUpTo (k + 1) s t ↔
    A.SameUpTo k s t ∧ ∀ c ∈ A.alphabet, A.SameUpTo k (A.next s c) (A.next t c) := by
  constructor
  · intro h
    refine ⟨fun w hw hk => h w hw (by omega), fun c hc w hw hk => ?_⟩
    exact h (c :: w) (over_cons.2 ⟨hc, hw⟩) (by rw [List.length_cons]; omega)
  · intro h w hw hk
    cases w with
    | nil => exact h.1 [] over_nil (Nat.zero_le k)
    | cons c w =>
        obtain ⟨hc, hw⟩ := over_cons.1 hw
        rw [List.length_cons] at hk
        exact h.2 c hc w hw (by omega)

end Automaton

-- ====================================================== the relation

namespace Partition

/-- The partition relates the states on which words of length at most k
agree. -/
def Decides (P : Partition) (A : Automaton) (k : Nat) : Prop :=
  ∀ s ∈ A.states, ∀ t ∈ A.states, P.Together s t ↔ A.SameUpTo k s t

/-- Letters lead states that lie together to states that lie together. -/
def Stable (P : Partition) (A : Automaton) : Prop :=
  ∀ s t, P.Together s t → ∀ c ∈ A.alphabet, P.Together (A.next s c) (A.next t c)

/-- Of states that lie together all accept or none does. -/
def Pure (P : Partition) (A : Automaton) : Prop :=
  ∀ s t, P.Together s t → (s ∈ A.accepting ↔ t ∈ A.accepting)

/-- A round takes words one longer into account. -/
theorem Decides.refine {k : Nat} (hP : P.Covers A) (h : P.Decides A k)
    (hQ : P.refine A = .ok Q) : Q.Decides A (k + 1) := by
  intro s hs t ht
  rw [(hP.refine hQ).2, Automaton.sameUpTo_succ, h s hs t ht]
  refine and_congr_right fun _ => forall_congr' fun c => imp_congr_right fun hc => ?_
  exact h _ (Automaton.next_mem hs hc) _ (Automaton.next_mem ht hc)

theorem Decides.pure {k : Nat} (hP : P.Covers A) (h : P.Decides A k) : P.Pure A := by
  intro s t hst
  obtain ⟨hs, ht⟩ := hP.mem_of_together hst
  exact (h s hs t ht).1 hst [] Automaton.over_nil (Nat.zero_le k)

/-- States from which the same words are accepted accept themselves, or do not, alike. -/
theorem Covers.pure_of_sameFrom (hP : P.Covers A)
    (h : ∀ s ∈ A.states, ∀ t ∈ A.states, P.Together s t → A.SameFrom A s t) : P.Pure A := by
  intro s t hst
  obtain ⟨hs, ht⟩ := hP.mem_of_together hst
  exact h s hs t ht hst [] Automaton.over_nil

/-- A round that makes no more blocks has split none. -/
theorem Covers.stable_of_size_eq (hP : P.Covers A) (hQ : P.refine A = .ok Q)
    (hsize : Q.size = P.size) : P.Stable A := by
  obtain ⟨hcovers, htogether⟩ := hP.refine hQ
  intro s t hst
  have hsame := together_of_size_eq hP hcovers (hP.finer_refine hQ) hsize s t hst
  exact ((htogether s t).1 hsame).2

/-- In a stable partition every word leads together what lies together. -/
theorem Stable.after (h : P.Stable A) {s t : Symbol} (hst : P.Together s t) {w : List Symbol}
    (hw : A.Over w) : P.Together (A.after s w) (A.after t w) := by
  induction w generalizing s t with
  | nil => exact hst
  | cons c w ih =>
      obtain ⟨hc, hw⟩ := Automaton.over_cons.1 hw
      exact ih (h s t hst c hc) hw

/-- A stable partition that decides words of some length decides all. -/
theorem Stable.together_iff (h : P.Stable A) (hP : P.Covers A) {k : Nat} (hk : P.Decides A k)
    {s t : Symbol} (hs : s ∈ A.states) (ht : t ∈ A.states) :
    P.Together s t ↔ A.SameFrom A s t := by
  constructor
  · intro hst w hw
    exact hk.pure hP _ _ (h.after hst hw)
  · intro hst
    exact (hk s hs t ht).2 fun w hw _ => hst w hw

end Partition

-- ======================================================== the course

namespace Automaton

open Automata.Partition

/-- The course of refinement from a partition: it stops at the first
partition that a round gives no more blocks. -/
inductive RefinesTo (A : Automaton) : Partition → Refinement → Prop
  | stop {P Q : Partition} : P.refine A = .ok Q → Q.size = P.size → RefinesTo A P ⟨[], P⟩
  | round {P Q : Partition} {r : Refinement} : P.refine A = .ok Q → Q.size ≠ P.size →
      RefinesTo A Q r → RefinesTo A P ⟨P :: r.earlier, r.last⟩

/-- The count of rounds suffices where with every round a block more it
would exceed the number of states. -/
theorem exists_refineFrom {n : Nat} (hP : P.Covers A) (hn : A.size < P.size + n) :
    ∃ r, A.refineFrom n P = .ok r ∧ A.RefinesTo P r := by
  induction n generalizing P with
  | zero =>
      have hle := hP.size_le
      omega
  | succ n ih =>
      obtain ⟨Q, hQ, -⟩ := hP.exists_refine
      have hcovers := (hP.refine hQ).1
      have hle := size_le_of_finer hP hcovers (hP.finer_refine hQ)
      unfold refineFrom
      rw [hQ]
      by_cases hsize : Q.size = P.size
      · refine ⟨⟨[], P⟩, ?_, .stop hQ hsize⟩
        show (if Q.size = P.size then _ else _) = _
        rw [if_pos hsize]
        rfl
      · obtain ⟨r, hr, hcourse⟩ := ih hcovers (by omega)
        refine ⟨⟨P :: r.earlier, r.last⟩, ?_, .round hQ hsize hcourse⟩
        show (if Q.size = P.size then _ else _) = _
        rw [if_neg hsize, hr]
        rfl

/-- The initial partition relates the states that agree on acceptance. -/
theorem exists_initialPartition (h : Symbol.Comparable A.states.toList) :
    ∃ P, A.initialPartition = .ok P ∧ P.Covers A ∧ P.Decides A 0 := by
  have hsub : ∀ b ∈ [A.accepting, A.states.sdiff A.accepting], ∀ s ∈ b, s ∈ A.states := by
    intro b hb s hs
    rcases List.mem_cons.1 hb with rfl | hb
    · exact A.accepting_subset hs
    · rw [List.mem_singleton.1 hb, SymbolSet.mem_sdiff] at hs
      exact hs.1
  have hdisjoint : [A.accepting, A.states.sdiff A.accepting].Pairwise SymbolSet.Disjoint := by
    refine List.pairwise_pair.2 fun s hs hs' => ?_
    exact (SymbolSet.mem_sdiff.1 hs').2 hs
  obtain ⟨P, hP, hblocks⟩ := exists_ofBlocks h hsub hdisjoint
  have htogether : ∀ s t, P.Together s t ↔
      (s ∈ A.accepting ∧ t ∈ A.accepting) ∨
        s ∈ A.states.sdiff A.accepting ∧ t ∈ A.states.sdiff A.accepting := by
    intro s t
    rw [together_of_mem_blocks_iff hblocks, List.exists_mem_cons_iff]
    simp only [List.mem_singleton, exists_eq_left]
  refine ⟨P, hP, covers_iff.2 fun s => ?_, fun s hs t ht => ?_⟩
  · rw [htogether, and_self, and_self, SymbolSet.mem_sdiff]
    have hsub' := A.accepting_subset (s := s)
    tauto
  · rw [htogether, sameUpTo_zero, SymbolSet.mem_sdiff, SymbolSet.mem_sdiff]
    tauto

namespace RefinesTo

variable {r : Refinement}

/-- Every partition of a course covers the states, and the k-th one
after a partition that decides j decides j + k. -/
theorem decides (h : A.RefinesTo P r) (hP : P.Covers A) {j : Nat} (hj : P.Decides A j)
    {k : Nat} (hQ : r.partitions[k]? = some Q) : Q.Covers A ∧ Q.Decides A (j + k) := by
  induction h generalizing j k with
  | @stop P _ hround hsize =>
      cases k with
      | zero =>
          have hPQ : P = Q := by simpa [Refinement.partitions] using hQ
          exact hPQ ▸ ⟨hP, hj⟩
      | succ k => simp [Refinement.partitions] at hQ
  | @round P P' r hround hsize hcourse ih =>
      cases k with
      | zero =>
          have hPQ : P = Q := by simpa [Refinement.partitions] using hQ
          exact hPQ ▸ ⟨hP, hj⟩
      | succ k =>
          obtain ⟨hcovers, hdecides⟩ := ih (hP.refine hround).1 (hj.refine hP hround) hQ
          refine ⟨hcovers, ?_⟩
          rw [show j + (k + 1) = j + 1 + k by omega]
          exact hdecides

theorem stable (h : A.RefinesTo P r) (hP : P.Covers A) : r.last.Stable A := by
  induction h with
  | stop hround hsize => exact hP.stable_of_size_eq hround hsize
  | round hround hsize hcourse ih => exact ih (hP.refine hround).1

end RefinesTo

/-- The last partition of the course of an automaton. -/
theorem exists_refinements (h : Symbol.Comparable A.states.toList) :
    ∃ P r, A.initialPartition = .ok P ∧ A.refinements = .ok r ∧ P.Covers A ∧ P.Decides A 0 ∧
      A.RefinesTo P r := by
  obtain ⟨P, hP, hcovers, hdecides⟩ := exists_initialPartition h
  have hpos := hcovers.size_pos
  obtain ⟨r, hr, hcourse⟩ := exists_refineFrom (n := A.size) hcovers (by omega)
  refine ⟨P, r, hP, ?_, hcovers, hdecides, hcourse⟩
  unfold refinements
  rw [hP]
  exact hr

/-- The last partition covers the states, is stable, and relates the
states from which the same words are accepted. -/
theorem exists_last (h : Symbol.Comparable A.states.toList) :
    ∃ r, A.refinements = .ok r ∧ r.last.Covers A ∧ r.last.Stable A ∧
      ∀ s ∈ A.states, ∀ t ∈ A.states, r.last.Together s t ↔ A.SameFrom A s t := by
  obtain ⟨P, r, -, hr, hcovers, hdecides, hcourse⟩ := exists_refinements h
  have hlast : r.partitions[r.rounds]? = some r.last := by
    unfold Refinement.partitions Refinement.rounds
    exact List.getElem?_concat_length
  obtain ⟨hcovers', hdecides'⟩ := hcourse.decides hcovers hdecides hlast
  have hstable := hcourse.stable hcovers
  exact ⟨r, hr, hcovers', hstable, fun s hs t ht => hstable.together_iff hcovers' hdecides' hs ht⟩

-- ============================================== the coarsest partition

/-- Two states, reachable or not, lie in one block of the coarsest
partition exactly when every word leads from both to states that accept
or from both to states that do not. -/
theorem coarsestPartition_together_iff (h : Symbol.Comparable A.states.toList) :
    ∃ P, A.coarsestPartition = .ok P ∧ ∀ s ∈ A.states, ∀ t ∈ A.states,
      P.Together s t ↔ ∀ w, A.Over w → ∃ u v, A.runFrom s w = .ok u ∧ A.runFrom t w = .ok v ∧
        (u ∈ A.accepting ↔ v ∈ A.accepting) := by
  obtain ⟨r, hr, -, -, htogether⟩ := exists_last h
  refine ⟨r.last, ?_, fun s hs t ht => ?_⟩
  · unfold coarsestPartition
    rw [hr]
    rfl
  · rw [htogether s hs t ht]
    refine forall_congr' fun w => imp_congr_right fun hw => ?_
    constructor
    · intro hsame
      exact ⟨_, _, runFrom_eq_ok hs hw, runFrom_eq_ok ht hw, hsame⟩
    · intro hruns
      obtain ⟨u, v, hu, hv, hsame⟩ := hruns
      rw [runFrom_eq_ok hs hw, Except.ok.injEq] at hu
      rw [runFrom_eq_ok ht hw, Except.ok.injEq] at hv
      rw [hu, hv]
      exact hsame

/-- Counts letters modulo four and accepts the even counts. No word leads
to the state 7, and the table knows a letter that is not of the alphabet. -/
def modFour : Automaton where
  toDescription := Presentation.description
    { states := [.int 0, .int 1, .int 2, .int 3, .int 7]
      alphabet := [.str "a"]
      start := .int 0
      accepting := [.int 0, .int 2]
      delta :=
        [(.int 0, [(.str "a", .int 1)]), (.int 1, [(.str "a", .int 2), (.str "b", .null)]),
          (.int 2, [(.str "a", .int 3)]), (.int 3, [(.str "a", .int 0)]),
          (.int 7, [(.str "a", .int 0)])] }
  start_mem := by decide
  strays_isEmpty := by decide
  gaps_eq_nil := by decide

theorem coarsestPartition_together_iff_modFour :
    Symbol.Comparable modFour.states.toList ∧
      ∃ P, modFour.coarsestPartition = .ok P ∧ ∀ s ∈ modFour.states, ∀ t ∈ modFour.states,
        P.Together s t ↔ ∀ w, modFour.Over w → ∃ u v, modFour.runFrom s w = .ok u ∧
          modFour.runFrom t w = .ok v ∧ (u ∈ modFour.accepting ↔ v ∈ modFour.accepting) :=
  have h : Symbol.Comparable modFour.states.toList := by decide
  ⟨h, coarsestPartition_together_iff h⟩

end Automaton

end Automata
