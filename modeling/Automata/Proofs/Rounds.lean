/-
Rounds of refinement and the length of words: the k-th partition of a
course shows exactly what words of length at most k can tell apart, and
the course goes on exactly as long as longer words tell more.

# Agreement on words

What is said of states is said of the runs from them. Two states agree
on a word when the word leads from both, to states that both accept or
both do not (`AgreeOn`), and differ on it when it leads from both and to
only one that does (`DifferOn`). From states of the automaton a word
over the alphabet always leads somewhere, so of the two exactly one
holds (`agreeOn_iff`, `differOn_iff`).

# How many rounds there are

The last partition decides words of any length, so words as long as
there are rounds are enough. Shorter ones are not: the partitions get
strictly finer, so each but the first parts two states that lay together
in the one before, and on those no shorter word differs
(`RefinesTo.isLeast_rounds`). Minimization refines the reachable part,
in which states accept the same words as in the whole
(`PrunedFrom.sameUpTo_iff`).
-/
import Mathlib.Order.Bounds.Defs
import Automata.Proofs.Minimality
import Automata.Proofs.Partition.Growth

namespace Automata.Automaton

open Automata.Partition

variable {A B Q : Automaton} {P : Partition} {r : Refinement} {m : Minimization}
  {s t : Symbol} {w : List Symbol} {k : Nat}

-- ================================================= agreement on words

/-- The word leads from both states, to states that both accept or both
do not. -/
def AgreeOn (A : Automaton) (s t : Symbol) (w : List Symbol) : Prop :=
  ∃ u v, A.runFrom s w = .ok u ∧ A.runFrom t w = .ok v ∧ (u ∈ A.accepting ↔ v ∈ A.accepting)

/-- The word leads from both states, to states of which just one accepts. -/
def DifferOn (A : Automaton) (s t : Symbol) (w : List Symbol) : Prop :=
  ∃ u v, A.runFrom s w = .ok u ∧ A.runFrom t w = .ok v ∧ ¬(u ∈ A.accepting ↔ v ∈ A.accepting)

theorem agreeOn_iff (hs : s ∈ A.states) (ht : t ∈ A.states) (hw : A.Over w) :
    A.AgreeOn s t w ↔ (A.after s w ∈ A.accepting ↔ A.after t w ∈ A.accepting) := by
  unfold AgreeOn
  rw [runFrom_eq_ok hs hw, runFrom_eq_ok ht hw]
  simp only [Except.ok.injEq, exists_and_left, exists_eq_left']

theorem differOn_iff (hs : s ∈ A.states) (ht : t ∈ A.states) (hw : A.Over w) :
    A.DifferOn s t w ↔ ¬(A.after s w ∈ A.accepting ↔ A.after t w ∈ A.accepting) := by
  unfold DifferOn
  rw [runFrom_eq_ok hs hw, runFrom_eq_ok ht hw]
  simp only [Except.ok.injEq, exists_and_left, exists_eq_left']

theorem sameUpTo_iff (hs : s ∈ A.states) (ht : t ∈ A.states) :
    A.SameUpTo k s t ↔ ∀ w, A.Over w → w.length ≤ k → A.AgreeOn s t w := by
  refine forall_congr' fun w => imp_congr_right fun hw => imp_congr_right fun _ => ?_
  exact (agreeOn_iff hs ht hw).symm

theorem sameFrom_iff (hs : s ∈ A.states) (ht : t ∈ A.states) :
    A.SameFrom A s t ↔ ∀ w, A.Over w → A.AgreeOn s t w := by
  refine forall_congr' fun w => imp_congr_right fun hw => ?_
  exact (agreeOn_iff hs ht hw).symm

/-- To accept the same words is to agree up to every length. -/
theorem sameFrom_iff_sameUpTo : A.SameFrom A s t ↔ ∀ k, A.SameUpTo k s t :=
  ⟨fun h _ w hw _ => h w hw, fun h w hw => h w.length w hw (Nat.le_refl _)⟩

/-- States that do not agree on all words up to some length differ on one. -/
theorem not_sameUpTo_iff (hs : s ∈ A.states) (ht : t ∈ A.states) :
    ¬A.SameUpTo k s t ↔ ∃ w, A.Over w ∧ w.length ≤ k ∧ A.DifferOn s t w := by
  unfold SameUpTo
  simp only [Classical.not_forall]
  constructor
  · intro h
    obtain ⟨w, hw, hk, hdiffer⟩ := h
    exact ⟨w, hw, hk, (differOn_iff hs ht hw).2 hdiffer⟩
  · intro h
    obtain ⟨w, hw, hk, hdiffer⟩ := h
    exact ⟨w, hw, hk, (differOn_iff hs ht hw).1 hdiffer⟩

theorem sameUpTo_congr {s' t' : Symbol} (hs : s ≈ s') (ht : t ≈ t') :
    A.SameUpTo k s t ↔ A.SameUpTo k s' t' := by
  refine forall_congr' fun w => imp_congr_right fun _ => imp_congr_right fun _ => ?_
  rw [SymbolSet.mem_congr (after_congr hs w), SymbolSet.mem_congr (after_congr ht w)]

namespace Simulation

variable {rel : Symbol → Symbol → Prop} {s' t' : Symbol}

/-- Automata that run in step tell apart the same states by short words. -/
theorem sameUpTo_iff (h : Simulation A B rel) (hs : rel s s') (ht : rel t t') :
    A.SameUpTo k s t ↔ B.SameUpTo k s' t' := by
  refine forall_congr' fun w => ?_
  rw [← over_congr h.alphabet]
  refine imp_congr_right fun hw => imp_congr_right fun _ => ?_
  rw [h.sameFrom hs w hw, h.sameFrom ht w hw]

theorem sameFrom_iff (h : Simulation A B rel) (hs : rel s s') (ht : rel t t') :
    A.SameFrom A s t ↔ B.SameFrom B s' t' := by
  rw [sameFrom_iff_sameUpTo, sameFrom_iff_sameUpTo]
  exact forall_congr' fun _ => h.sameUpTo_iff hs ht

end Simulation

-- ================================================ rounds and lengths

namespace RefinesTo

/-- The number of rounds is the least length such that states on which
words up to this length agree accept the same words. -/
theorem isLeast_rounds (h : A.RefinesTo P r) (hP : P.Covers A) (hzero : P.Decides A 0) :
    IsLeast {k | ∀ s ∈ A.states, ∀ t ∈ A.states, A.SameUpTo k s t → A.SameFrom A s t}
      r.rounds := by
  have hdecides : ∀ {k : Nat} {Q : Partition}, r.partitions[k]? = some Q → Q.Decides A k := by
    intro k Q hQ
    have hk := (h.decides hP hzero hQ).2
    rwa [Nat.zero_add] at hk
  constructor
  · intro s hs t ht hst
    have hlast : r.partitions[r.rounds]? = some r.last := List.getElem?_concat_length
    have hcovers := (h.decides hP hzero hlast).1
    refine ((h.stable hP).together_iff hcovers (hdecides hlast) hs ht).1 ?_
    exact (hdecides hlast s hs t ht).2 hst
  · intro k hk
    by_contra hlt
    have hsucc : k + 1 < r.partitions.length := by
      rw [length_partitions]
      omega
    -- the states that round k + 1 parts agree up to k, and so on all words
    have hQ : r.partitions[k]? = some r.partitions[k] := List.getElem?_eq_getElem _
    have hR : r.partitions[k + 1]? = some r.partitions[k + 1] := List.getElem?_eq_getElem hsucc
    have hstrict := (h.isChain hP).getElem k hsucc
    refine hstrict.2 fun s t hst => ?_
    obtain ⟨hs, ht⟩ := (h.decides hP hzero hQ).1.mem_of_together hst
    have hsame := hk s hs t ht ((hdecides hQ s hs t ht).1 hst)
    exact (hdecides hR s hs t ht).2 (sameFrom_iff_sameUpTo.1 hsame (k + 1))

end RefinesTo

/-- Two states lie in one block of the k-th partition of the course, with
the initial one as number 0, exactly when they agree on all words of
length at most k. -/
theorem partitions_together_iff_agreeOn (h : Symbol.Comparable A.states.toList) :
    ∃ P r, A.initialPartition = .ok P ∧ A.refinements = .ok r ∧ r.partitions[0]? = some P ∧
      ∀ k Q, r.partitions[k]? = some Q → ∀ s ∈ A.states, ∀ t ∈ A.states,
        Q.Together s t ↔ ∀ w, A.Over w → w.length ≤ k → A.AgreeOn s t w := by
  obtain ⟨P, r, hP, hr, hcovers, hzero, hcourse⟩ := exists_refinements h
  refine ⟨P, r, hP, hr, ?_, fun k Q hQ s hs t ht => ?_⟩
  · rw [← List.head?_eq_getElem?, hcourse.head?_partitions]
  · obtain ⟨-, hdecides⟩ := hcourse.decides hcovers hzero hQ
    rw [hdecides s hs t ht, sameUpTo_iff hs ht, Nat.zero_add]

/-- Counts letters up to three and accepts from there on. -/
def threeOrMore : Automaton where
  toDescription := Presentation.description
    { states := [.int 0, .int 1, .int 2, .int 3]
      alphabet := [.str "a"]
      start := .int 0
      accepting := [.int 3]
      delta :=
        [(.int 0, [(.str "a", .int 1)]), (.int 1, [(.str "a", .int 2)]),
          (.int 2, [(.str "a", .int 3)]), (.int 3, [(.str "a", .int 3)])] }
  start_mem := by decide
  strays_isEmpty := by decide
  gaps_eq_nil := by decide

theorem partitions_together_iff_agreeOn_threeOrMore :
    Symbol.Comparable threeOrMore.states.toList ∧
      ∃ P r, threeOrMore.initialPartition = .ok P ∧ threeOrMore.refinements = .ok r ∧
        r.partitions[0]? = some P ∧
        ∀ k Q, r.partitions[k]? = some Q → ∀ s ∈ threeOrMore.states, ∀ t ∈ threeOrMore.states,
          Q.Together s t ↔ ∀ w, threeOrMore.Over w → w.length ≤ k → threeOrMore.AgreeOn s t w :=
  have h : Symbol.Comparable threeOrMore.states.toList := by decide
  ⟨h, partitions_together_iff_agreeOn h⟩

-- ================================================= the reachable part

namespace PrunedFrom

theorem sameUpTo_iff (h : Q.PrunedFrom A) (hs : s ∈ A.reached) (ht : t ∈ A.reached) :
    Q.SameUpTo k s t ↔ A.SameUpTo k s t :=
  (h.simulation.sameUpTo_iff ⟨hs, rfl⟩ ⟨ht, rfl⟩).symm

theorem sameFrom_iff (h : Q.PrunedFrom A) (hs : s ∈ A.reached) (ht : t ∈ A.reached) :
    Q.SameFrom Q s t ↔ A.SameFrom A s t :=
  (h.simulation.sameFrom_iff ⟨hs, rfl⟩ ⟨ht, rfl⟩).symm

end PrunedFrom

/-- Reachable states that do not agree on all words differ on one of
length at most k. -/
def DifferWithin (A : Automaton) (k : Nat) : Prop :=
  ∀ s t, A.Reachable s → A.Reachable t → (¬∀ w, A.Over w → A.AgreeOn s t w) →
    ∃ w, A.Over w ∧ w.length ≤ k ∧ A.DifferOn s t w

/-- Whether words of some length are enough shows in the reached part. -/
theorem PrunedFrom.differWithin_iff (h : Q.PrunedFrom A) : A.DifferWithin k ↔
    ∀ s ∈ Q.states, ∀ t ∈ Q.states, Q.SameUpTo k s t → Q.SameFrom Q s t := by
  constructor
  · intro hk s hs t ht hst
    have hs := h.mem_states_iff.1 hs
    have ht := h.mem_states_iff.1 ht
    obtain ⟨s', hs', hss⟩ := mem_reached_iff.1 hs
    obtain ⟨t', ht', htt⟩ := mem_reached_iff.1 ht
    rw [h.sameFrom_iff hs ht]
    rw [h.sameUpTo_iff hs ht, ← sameUpTo_congr hss htt] at hst
    -- states on which no short word differs agree on all words
    have hagree : A.SameFrom A s' t' := by
      by_contra hne
      rw [Automaton.sameFrom_iff hs'.mem ht'.mem] at hne
      exact (not_sameUpTo_iff hs'.mem ht'.mem).2 (hk s' t' hs' ht' hne) hst
    exact ((sameFrom_of_alike (Setoid.symm hss)).trans (Setoid.refl _) hagree).trans
      (Setoid.refl _) (sameFrom_of_alike htt)
  · intro hk s t hs ht hne
    have hs' := mem_reached_iff.2 ⟨s, hs, Setoid.refl s⟩
    have ht' := mem_reached_iff.2 ⟨t, ht, Setoid.refl t⟩
    refine (not_sameUpTo_iff hs.mem ht.mem).1 fun hst => hne ?_
    rw [← Automaton.sameFrom_iff hs.mem ht.mem, ← h.sameFrom_iff hs' ht']
    refine hk s (h.mem_states_iff.2 hs') t (h.mem_states_iff.2 ht') ?_
    exact (h.sameUpTo_iff hs' ht').2 hst

/-- A minimization takes the course of refinement of the reachable part. -/
theorem Minimizes.exists_course (h : Minimizes m A) (hm : A.minimization = .ok m) :
    ∃ P, P.Covers m.pruned ∧ P.Decides m.pruned 0 ∧ m.pruned.RefinesTo P m.refinement := by
  obtain ⟨-, hr, -⟩ := minimization_eq_ok_iff.1 hm
  obtain ⟨P, r, -, hr', hcovers, hzero, hcourse⟩ := exists_refinements h.covers.comparable_states
  rw [hr, Except.ok.injEq] at hr'
  subst hr'
  exact ⟨P, hcovers, hzero, hcourse⟩

/-- Refinement ends, with partitions of the states each strictly finer
than the one before and not more of them than states. The rounds of a
minimization are the least length of words that tell apart all reachable
states that words tell apart, and fall short of the new states by two
where there are any. -/
theorem refinements_isChain_and_isLeast_rounds (h : Symbol.Comparable A.states.toList) :
    (∃ P r, A.initialPartition = .ok P ∧ A.refinements = .ok r ∧ A.RefinesTo P r ∧
      (∀ Q ∈ r.partitions, Q.Covers A) ∧
      r.partitions.IsChain (fun Q R => R.StrictlyFiner Q) ∧
      r.partitions.length ≤ A.size) ∧
    (¬Symbol.null ∈ A.states → ∃ m, A.minimization = .ok m ∧
      IsLeast {k | A.DifferWithin k} m.rounds ∧ m.rounds ≤ m.minimized.size - 2) := by
  constructor
  · obtain ⟨P, r, hP, hr, hcovers, -, hcourse⟩ := exists_refinements h
    exact ⟨P, r, hP, hr, hcourse, hcourse.covers hcovers, hcourse.isChain hcovers,
      hcourse.length_partitions_le hcovers⟩
  · intro hnull
    obtain ⟨m, hm, hspec⟩ := exists_minimization (minimizable_of_comparable h hnull)
    obtain ⟨P, hcovers, hzero, hcourse⟩ := hspec.exists_course hm
    refine ⟨m, hm, ?_, ?_⟩
    · simp only [hspec.pruned.differWithin_iff]
      exact hcourse.isLeast_rounds hcovers hzero
    · rw [hspec.minimized.size]
      exact hcourse.rounds_le hcovers

theorem refinements_isChain_and_isLeast_rounds_threeOrMore :
    Symbol.Comparable threeOrMore.states.toList ∧ ¬Symbol.null ∈ threeOrMore.states ∧
      (∃ P r, threeOrMore.initialPartition = .ok P ∧ threeOrMore.refinements = .ok r ∧
        threeOrMore.RefinesTo P r ∧ (∀ Q ∈ r.partitions, Q.Covers threeOrMore) ∧
        r.partitions.IsChain (fun Q R => R.StrictlyFiner Q) ∧
        r.partitions.length ≤ threeOrMore.size) ∧
      ∃ m, threeOrMore.minimization = .ok m ∧ IsLeast {k | threeOrMore.DifferWithin k} m.rounds ∧
        m.rounds ≤ m.minimized.size - 2 :=
  have h : Symbol.Comparable threeOrMore.states.toList := by decide
  have hnull : ¬Symbol.null ∈ threeOrMore.states := by decide
  ⟨h, hnull, (refinements_isChain_and_isLeast_rounds h).1,
    (refinements_isChain_and_isLeast_rounds h).2 hnull⟩

-- as many rounds as the bound allows
example : threeOrMore.minimization.map (fun m => (m.rounds, m.minimized.size)) = .ok (2, 4) := by
  decide +kernel

end Automata.Automaton
