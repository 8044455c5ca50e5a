/-
Refinement and the numbers of blocks depend on nothing but which states
words tell apart, and this on nothing but what letters do.

# Distinctions

Two automata may be over different alphabets, or lead to different states
by their letters. As long as they have the same states and words up to
each length tell apart the same of these (`SameDistinctions`), their
courses of refinement go through alike partitions, one by one
(`forall₂_partitions`, by induction along the first course): at each round
both relate the states that words of one length do not tell apart, so the
rounds make equally many blocks, and both courses end with the same. Where
two reachable parts make the same distinctions, their minimizations have
the partition, the mapping and the numbers of rounds and of removed states
in common (`SameDistinctions.sameCourse`).

# Numbers

The states of a minimal automaton are the numbers of blocks. When the
states of the one reachable part have the same numbers as what they become
in the other (`SameNumbers`), whether a number accepts and where letters
lead from it can be read off these states, for both minimal automata
(`accepting_number_iff`, `next_number_eq`).

# Moves

Automata have the `SameMoves` when they agree on the start and on which
reached states accept, and each letter of one has a letter of the other
that leads to the same states. Then each word of one has such a word of
the other, of the same length (`exists_word`), so both reach the same
states and tell apart the same of them. Their minimizations take the same
course (`Minimizes.sameCourse`), and the minimal automata have the same
moves by the same letters (`minimized_next_alike`).
-/
import Automata.Proofs.Mapping
import Automata.Proofs.Partition.Alike
import Automata.Proofs.Rounds

namespace Automata

-- ========================================================== partitions

/-- Partitions of the same states are alike when they relate the same of
them. -/
theorem Partition.Covers.alike {A B : Automaton} {P Q : Partition} (hP : P.Covers A)
    (hQ : Q.Covers B) (hstates : A.states ≈ B.states)
    (h : ∀ s ∈ A.states, ∀ t ∈ A.states, P.Together s t ↔ Q.Together s t) : P ≈ Q := by
  refine Partition.alike_iff.2 fun s t => ?_
  by_cases hst : s ∈ A.states ∧ t ∈ A.states
  · exact h s hst.1 t hst.2
  · refine iff_of_false (fun hsame => hst (hP.mem_of_together hsame)) fun hsame => hst ?_
    obtain ⟨hs, ht⟩ := hQ.mem_of_together hsame
    have hmem := SymbolSet.alike_iff.1 hstates
    exact ⟨(hmem s).2 hs, (hmem t).2 ht⟩

/-- The partition, what is read off its index, and how many rounds and
removed states there were are the same in two minimizations. -/
structure Minimization.SameCourse (m n : Minimization) : Prop where
  partition : m.partition ≈ n.partition
  mapping : ∀ s, m.mapping.get? s = n.mapping.get? s
  rounds : m.rounds = n.rounds
  removed : m.removed = n.removed

namespace Automaton

open Automata.Partition

variable {A B : Automaton} {P Q : Partition} {r r' : Refinement} {m n : Minimization}
  {s t : Symbol} {k : Nat}

/-- The automata have the same states, and words up to each length tell
apart the same of them. -/
structure SameDistinctions (A B : Automaton) : Prop where
  states : A.states ≈ B.states
  sameUpTo_iff : ∀ {k s t}, s ∈ A.states → t ∈ A.states → (A.SameUpTo k s t ↔ B.SameUpTo k s t)

namespace SameDistinctions

theorem mem_states_iff (h : A.SameDistinctions B) : s ∈ A.states ↔ s ∈ B.states :=
  SymbolSet.alike_iff.1 h.states s

theorem sameFrom_iff (h : A.SameDistinctions B) (hs : s ∈ A.states) (ht : t ∈ A.states) :
    A.SameFrom A s t ↔ B.SameFrom B s t := by
  rw [sameFrom_iff_sameUpTo, sameFrom_iff_sameUpTo]
  exact forall_congr' fun _ => h.sameUpTo_iff hs ht

theorem alike_of_decides (h : A.SameDistinctions B) (hP : P.Covers A) (hQ : Q.Covers B)
    (hPk : P.Decides A k) (hQk : Q.Decides B k) : P ≈ Q := by
  refine hP.alike hQ h.states fun s hs t ht => ?_
  rw [hPk s hs t ht, hQk s (h.mem_states_iff.1 hs) t (h.mem_states_iff.1 ht)]
  exact h.sameUpTo_iff hs ht

/-- Rounds against partitions that decide words of one length make alike
partitions. -/
theorem refine_alike (h : A.SameDistinctions B) {P' Q' : Partition} (hP : P.Covers A)
    (hQ : Q.Covers B) (hPk : P.Decides A k) (hQk : Q.Decides B k) (hP' : P.refine A = .ok P')
    (hQ' : Q.refine B = .ok Q') : P' ≈ Q' :=
  h.alike_of_decides (hP.refine hP').1 (hQ.refine hQ').1 (hPk.refine hP hP') (hQk.refine hQ hQ')

/-- Courses from partitions that decide words of one length run in step. -/
theorem forall₂_partitions (h : A.SameDistinctions B) (hA : A.RefinesTo P r)
    (hB : B.RefinesTo Q r') (hP : P.Covers A) (hQ : Q.Covers B) (hPk : P.Decides A k)
    (hQk : Q.Decides B k) : List.Forall₂ (· ≈ ·) r.partitions r'.partitions := by
  have hPQ : ∀ {P Q : Partition} {k : Nat}, P.Covers A → Q.Covers B → P.Decides A k →
      Q.Decides B k → P.size = Q.size := fun hP hQ hPk hQk =>
    size_eq_of_alike (h.alike_of_decides hP hQ hPk hQk)
  induction hA generalizing Q r' k with
  | @stop P P' hround hsize =>
      cases hB with
      | stop hround' hsize' =>
          exact List.Forall₂.cons (h.alike_of_decides hP hQ hPk hQk) .nil
      | round hround' hsize' hcourse =>
          -- the second course would go on where no block is split
          have hrefined := size_eq_of_alike (h.refine_alike hP hQ hPk hQk hround hround')
          exact absurd (hrefined.symm.trans (hsize.trans (hPQ hP hQ hPk hQk))) hsize'
  | @round P P' r hround hsize hcourse ih =>
      cases hB with
      | stop hround' hsize' =>
          have hrefined := size_eq_of_alike (h.refine_alike hP hQ hPk hQk hround hround')
          exact absurd (hrefined.trans (hsize'.trans (hPQ hP hQ hPk hQk).symm)) hsize
      | round hround' hsize' hcourse' =>
          refine List.Forall₂.cons (h.alike_of_decides hP hQ hPk hQk) ?_
          exact ih hcourse' (hP.refine hround).1 (hQ.refine hround').1 (hPk.refine hP hround)
            (hQk.refine hQ hround')

/-- Automata that make the same distinctions are refined in step. -/
theorem exists_refinements (h : A.SameDistinctions B) (hA : Symbol.Comparable A.states.toList) :
    ∃ r r', A.refinements = .ok r ∧ B.refinements = .ok r' ∧
      List.Forall₂ (· ≈ ·) r.partitions r'.partitions := by
  obtain ⟨P, r, -, hr, hP, hPzero, hcourse⟩ := Automaton.exists_refinements hA
  have hB := (SymbolSet.comparable_congr h.states).1 hA
  obtain ⟨Q, r', -, hr', hQ, hQzero, hcourse'⟩ := Automaton.exists_refinements hB
  exact ⟨r, r', hr, hr', h.forall₂_partitions hcourse hcourse' hP hQ hPzero hQzero⟩

end SameDistinctions

-- ======================================================== same moves

/-- Words over one alphabet can be turned into words of the same length
over another that lead to the same states, if letters can. -/
theorem exists_word {S : SymbolSet} {w : List Symbol}
    (hclosed : ∀ {s c}, s ∈ S → c ∈ A.alphabet → A.next s c ∈ S)
    (hletters : ∀ c ∈ A.alphabet, ∃ d ∈ B.alphabet, ∀ s ∈ S, A.next s c ≈ B.next s d)
    (hw : A.Over w) :
    ∃ v, B.Over v ∧ v.length = w.length ∧ ∀ s ∈ S, A.after s w ≈ B.after s v := by
  induction w with
  | nil => exact ⟨[], over_nil, rfl, fun s _ => Setoid.refl s⟩
  | cons c w ih =>
      obtain ⟨hc, hw⟩ := over_cons.1 hw
      obtain ⟨d, hd, hnext⟩ := hletters c hc
      obtain ⟨v, hv, hlength, hafter⟩ := ih hw
      refine ⟨d :: v, over_cons.2 ⟨hd, hv⟩, congrArg Nat.succ hlength, fun s hs => ?_⟩
      exact Setoid.trans (hafter _ (hclosed hs hc)) (after_congr (hnext s hs) v)

/-- The automata agree on the start and on which reached states accept,
and what a letter of either does in reached states some letter of the
other does as well. -/
structure SameMoves (A B : Automaton) : Prop where
  start : A.start ≈ B.start
  accepting : ∀ s ∈ A.reached, (s ∈ A.accepting ↔ s ∈ B.accepting)
  forth : ∀ c ∈ A.alphabet, ∃ d ∈ B.alphabet, ∀ s ∈ A.reached, A.next s c ≈ B.next s d
  back : ∀ d ∈ B.alphabet, ∃ c ∈ A.alphabet, ∀ s ∈ A.reached, A.next s c ≈ B.next s d

namespace SameMoves

theorem exists_word (h : A.SameMoves B) {w : List Symbol} (hw : A.Over w) :
    ∃ v, B.Over v ∧ v.length = w.length ∧ ∀ s ∈ A.reached, A.after s w ≈ B.after s v :=
  Automaton.exists_word reached_closed.2 h.forth hw

theorem exists_word_back (h : A.SameMoves B) {v : List Symbol} (hv : B.Over v) :
    ∃ w, A.Over w ∧ w.length = v.length ∧ ∀ s ∈ A.reached, B.after s v ≈ A.after s w := by
  refine Automaton.exists_word (fun {s d} hs hd => ?_) (fun d hd => ?_) hv
  · obtain ⟨c, hc, hnext⟩ := h.back d hd
    exact (SymbolSet.mem_congr (hnext s hs)).1 (reached_closed.2 hs hc)
  · obtain ⟨c, hc, hnext⟩ := h.back d hd
    exact ⟨c, hc, fun s hs => Setoid.symm (hnext s hs)⟩

/-- The automata reach the same states. -/
theorem reached_alike (h : A.SameMoves B) : A.reached ≈ B.reached := by
  refine SymbolSet.alike_iff.2 fun s => ?_
  rw [mem_reached_iff_after, mem_reached_iff_after]
  constructor
  · intro hs
    obtain ⟨w, hw, hws⟩ := hs
    obtain ⟨v, hv, -, hafter⟩ := h.exists_word hw
    refine ⟨v, hv, Setoid.trans (after_congr (Setoid.symm h.start) v) ?_⟩
    exact Setoid.trans (Setoid.symm (hafter _ reached_closed.1)) hws
  · intro hs
    obtain ⟨v, hv, hvs⟩ := hs
    obtain ⟨w, hw, -, hafter⟩ := h.exists_word_back hv
    refine ⟨w, hw, Setoid.trans (Setoid.symm (hafter _ reached_closed.1)) ?_⟩
    exact Setoid.trans (after_congr h.start v) hvs

theorem mem_reached_iff (h : A.SameMoves B) : s ∈ A.reached ↔ s ∈ B.reached :=
  SymbolSet.alike_iff.1 h.reached_alike s

theorem minimizable (h : A.SameMoves B) (hA : A.Minimizable) (hB : ¬Symbol.null ∈ B.states) :
    B.Minimizable :=
  minimizable_iff.2 ⟨hB, (SymbolSet.comparable_congr h.reached_alike).1 hA.comparable_reached⟩

/-- Where words that do the same lead, both automata accept or none. -/
theorem after_mem_accepting_iff (h : A.SameMoves B) {v w : List Symbol} (hs : s ∈ A.reached)
    (hw : A.Over w) (hvw : A.after s w ≈ B.after s v) :
    A.after s w ∈ A.accepting ↔ B.after s v ∈ B.accepting := by
  rw [h.accepting _ (after_mem_reached hs hw), SymbolSet.mem_congr hvw]

/-- Short words tell apart the same reached states. -/
theorem sameUpTo_iff (h : A.SameMoves B) (hs : s ∈ A.reached) (ht : t ∈ A.reached) :
    A.SameUpTo k s t ↔ B.SameUpTo k s t := by
  constructor
  · intro hst v hv hk
    obtain ⟨w, hw, hlength, hafter⟩ := h.exists_word_back hv
    rw [← h.after_mem_accepting_iff hs hw (Setoid.symm (hafter s hs)),
      ← h.after_mem_accepting_iff ht hw (Setoid.symm (hafter t ht))]
    exact hst w hw (hlength.trans_le hk)
  · intro hst w hw hk
    obtain ⟨v, hv, hlength, hafter⟩ := h.exists_word hw
    rw [h.after_mem_accepting_iff hs hw (hafter s hs),
      h.after_mem_accepting_iff ht hw (hafter t ht)]
    exact hst v hv (hlength.trans_le hk)

end SameMoves

-- ======================================================= minimization

/-- Courses with alike partitions, one by one, have as many rounds. -/
theorem rounds_eq_of_forall₂ (h : List.Forall₂ (· ≈ ·) r.partitions r'.partitions) :
    r.rounds = r'.rounds := by
  have hlength := h.length_eq
  rw [RefinesTo.length_partitions, RefinesTo.length_partitions] at hlength
  exact Nat.succ.inj hlength

/-- The mapping is read off the partition. -/
theorem get?_mapping_eq_of_alike (h : m.partition ≈ n.partition) (s : Symbol) :
    m.mapping.get? s = n.mapping.get? s := by
  rw [get?_mapping, get?_mapping, blockOf?_eq_of_alike h]

/-- Along the function every state of the one reachable part is a state of
the other with the same number, and no number is left over. -/
structure SameNumbers (m n : Minimization) (f : Symbol → Symbol) : Prop where
  size : m.partition.size = n.partition.size
  mem : ∀ {s}, s ∈ m.pruned.states → f s ∈ n.pruned.states
  number : ∀ {s}, s ∈ m.pruned.states → n.partition.number (f s) = m.partition.number s

namespace SameNumbers

variable {f : Symbol → Symbol} (h : SameNumbers m n f) (hm : Minimizes m A) (hn : Minimizes n B)

include h hm hn

theorem size_minimized_eq : m.minimized.size = n.minimized.size := by
  rw [hm.minimized.size, hn.minimized.size, h.size]

theorem start_minimized_eq (hstart : f m.pruned.start ≈ n.pruned.start) :
    m.minimized.start = n.minimized.start := by
  rw [hm.minimized.start, hn.minimized.start, ← h.number m.pruned.start_mem, number_congr hstart]

/-- Whether the number of a state accepts is read off that state, or off
the one that it becomes. -/
theorem accepting_number_iff (hs : s ∈ m.pruned.states) :
    (.ofNat (m.partition.number s) ∈ m.minimized.accepting ↔ s ∈ m.pruned.accepting) ∧
      (.ofNat (m.partition.number s) ∈ n.minimized.accepting ↔ f s ∈ n.pruned.accepting) := by
  refine ⟨hm.minimized.accepting_number hm.covers hm.pure hs, ?_⟩
  rw [← h.number hs]
  exact hn.minimized.accepting_number hn.covers hn.pure (h.mem hs)

/-- Letters that do the same in a state and in the one that it becomes do
the same in their number. -/
theorem next_number_eq {c d : Symbol} (hs : s ∈ m.pruned.states) (hc : c ∈ m.pruned.alphabet)
    (hd : d ∈ n.pruned.alphabet) (hnext : f (m.pruned.next s c) ≈ n.pruned.next (f s) d) :
    m.minimized.next (.ofNat (m.partition.number s)) c =
      n.minimized.next (.ofNat (m.partition.number s)) d := by
  rw [hm.minimized.next_number hm.covers hm.stable hs hc, ← h.number (next_mem hs hc),
    number_congr hnext, ← h.number hs,
    hn.minimized.next_number hn.covers hn.stable (h.mem hs) hd]

end SameNumbers

namespace SameDistinctions

variable (h : m.pruned.SameDistinctions n.pruned) (hm : Minimizes m A) (hn : Minimizes n B)

include h hm hn

theorem partition_alike : m.partition ≈ n.partition := by
  refine hm.covers.alike hn.covers h.states fun s hs t ht => ?_
  rw [hm.together_iff s hs t ht,
    hn.together_iff s (h.mem_states_iff.1 hs) t (h.mem_states_iff.1 ht)]
  exact h.sameFrom_iff hs ht

theorem sameNumbers : SameNumbers m n id where
  size := size_eq_of_alike (h.partition_alike hm hn)
  mem := h.mem_states_iff.1
  number := fun {s} _ => (number_eq_of_alike (h.partition_alike hm hn) s).symm

theorem removed_eq : m.removed = n.removed := by
  have hsize : m.pruned.size = n.pruned.size := SymbolSet.size_eq_of_alike h.states
  unfold Minimization.removed
  rw [hsize, (h.sameNumbers hm hn).size_minimized_eq hm hn]

/-- Where the reachable parts make the same distinctions, the
minimizations take the same course. -/
theorem sameCourse (hA : A.minimization = .ok m) (hB : B.minimization = .ok n) :
    m.SameCourse n := by
  have hpartition := h.partition_alike hm hn
  obtain ⟨P, hP, hPzero, hcourse⟩ := hm.exists_course hA
  obtain ⟨Q, hQ, hQzero, hcourse'⟩ := hn.exists_course hB
  refine ⟨hpartition, get?_mapping_eq_of_alike hpartition, ?_, h.removed_eq hm hn⟩
  exact rounds_eq_of_forall₂ (h.forall₂_partitions hcourse hcourse' hP hQ hPzero hQzero)

end SameDistinctions

namespace Minimizes

variable (hm : Minimizes m A) (hn : Minimizes n B) (h : A.SameMoves B)

include hm hn h

theorem sameDistinctions : m.pruned.SameDistinctions n.pruned where
  states :=
    Setoid.trans hm.pruned.states (Setoid.trans h.reached_alike (Setoid.symm hn.pruned.states))
  sameUpTo_iff := by
    intro k s t hs ht
    have hs := hm.pruned.mem_states_iff.1 hs
    have ht := hm.pruned.mem_states_iff.1 ht
    rw [hm.pruned.sameUpTo_iff hs ht, h.sameUpTo_iff hs ht]
    exact (hn.pruned.sameUpTo_iff (h.mem_reached_iff.1 hs) (h.mem_reached_iff.1 ht)).symm

/-- Minimizations of automata with the same moves take the same course. -/
theorem sameCourse (hA : A.minimization = .ok m) (hB : B.minimization = .ok n) :
    m.SameCourse n :=
  (hm.sameDistinctions hn h).sameCourse hm hn hA hB

-- ==================================================== minimal automata

theorem sameNumbers : SameNumbers m n id := (hm.sameDistinctions hn h).sameNumbers hm hn

theorem minimized_states_alike : m.minimized.states ≈ n.minimized.states := by
  refine SymbolSet.alike_iff.2 fun t => ?_
  rw [hm.minimized.mem_states_iff, hn.minimized.mem_states_iff, (hm.sameNumbers hn h).size]

theorem minimized_start_alike : m.minimized.start ≈ n.minimized.start := by
  have hstart : m.pruned.start ≈ n.pruned.start := by
    rw [hm.pruned.start, hn.pruned.start]
    exact h.start
  have heq := (hm.sameNumbers hn h).start_minimized_eq hm hn hstart
  exact heq ▸ Setoid.refl _

theorem minimized_accepting_alike : m.minimized.accepting ≈ n.minimized.accepting := by
  have hstates := SymbolSet.alike_iff.1 (hm.minimized_states_alike hn h)
  refine SymbolSet.alike_iff.2 fun t => ?_
  by_cases ht : t ∈ m.minimized.states
  · obtain ⟨s, hs, hts⟩ := hm.exists_number ht
    obtain ⟨hleft, hright⟩ := (hm.sameNumbers hn h).accepting_number_iff hm hn hs
    have hreach := hm.pruned.mem_states_iff.1 hs
    rw [SymbolSet.mem_congr hts, SymbolSet.mem_congr hts, hleft, hright,
      hm.pruned.accepting hreach, id_eq, hn.pruned.accepting (h.mem_reached_iff.1 hreach)]
    exact h.accepting s hreach
  · refine iff_of_false (fun hacc => ht (m.minimized.accepting_subset hacc)) fun hacc => ht ?_
    exact (hstates t).2 (n.minimized.accepting_subset hacc)

/-- Letters that do the same in reached states do so in the minimal
automata. -/
theorem minimized_next_alike {c d : Symbol} (hc : c ∈ A.alphabet) (hd : d ∈ B.alphabet)
    (hnext : ∀ s ∈ A.reached, A.next s c ≈ B.next s d) (ht : t ∈ m.minimized.states) :
    m.minimized.next t c ≈ n.minimized.next t d := by
  obtain ⟨s, hs, hts⟩ := hm.exists_number ht
  have hreach := hm.pruned.mem_states_iff.1 hs
  have hcm : c ∈ m.pruned.alphabet := by rwa [hm.pruned.alphabet]
  have hdn : d ∈ n.pruned.alphabet := by rwa [hn.pruned.alphabet]
  have hpruned : m.pruned.next s c ≈ n.pruned.next s d := by
    rw [hm.pruned.next hreach, hn.pruned.next (h.mem_reached_iff.1 hreach)]
    exact hnext s hreach
  have hback := next_congr (A := m.minimized) hts (Setoid.refl c)
  rw [(hm.sameNumbers hn h).next_number_eq hm hn hs hcm hdn hpruned] at hback
  exact Setoid.trans hback (next_congr (Setoid.symm hts) (Setoid.refl d))

end Minimizes

end Automaton

end Automata
