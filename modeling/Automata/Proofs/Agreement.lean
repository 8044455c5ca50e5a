/-
What words do not lead to has no say: automata that agree on their
reachable states are minimized to one result.

Two automata may differ in states that no word leads to, in which of
those accept, in rows and entries that the language does not need, and in
how symbols are written. If they agree on the start, the alphabet and,
for every reachable state, on acceptance and on the steps by letters
(`SameReached`), then each letter does in both what it does in the other
(`SameReached.sameMoves`).

Whatever a minimization gives is settled by this relation: the last
partition, the numbers of its blocks, how many rounds there are, and the
automaton on the blocks (`minimization_eq_of_sameReached`).
-/
import Automata.Proofs.Distinctions
import Automata.Proofs.Tables

namespace Automata.Automaton

open Automata.Partition

variable {A B : Automaton} {m n : Minimization} {s c : Symbol}

/-- Two automata agree on the start, the alphabet and, for every state
that words lead to in the first, on acceptance and on the steps by
letters of the alphabet. -/
structure SameReached (A B : Automaton) : Prop where
  start : A.start ≈ B.start
  alphabet : A.alphabet ≈ B.alphabet
  accepting : ∀ s, A.Reachable s → (s ∈ A.accepting ↔ s ∈ B.accepting)
  transition : ∀ s, A.Reachable s → ∀ c ∈ A.alphabet,
    ∃ t u, A.transition s c = .ok t ∧ B.transition s c = .ok u ∧ t ≈ u

namespace SameReached

-- ========================================================== same moves

theorem accepting_iff (h : A.SameReached B) (hs : s ∈ A.reached) :
    s ∈ A.accepting ↔ s ∈ B.accepting := by
  obtain ⟨x, hx, hxs⟩ := mem_reached_iff.1 hs
  rw [← SymbolSet.mem_congr hxs, ← SymbolSet.mem_congr hxs]
  exact h.accepting x hx

theorem next_alike (h : A.SameReached B) (hs : s ∈ A.reached) (hc : c ∈ A.alphabet) :
    A.next s c ≈ B.next s c := by
  obtain ⟨x, hx, hxs⟩ := mem_reached_iff.1 hs
  obtain ⟨t, u, ht, hu, htu⟩ := h.transition x hx c hc
  rw [← next_eq_of_move? (transition_eq_ok_iff.1 ht),
    ← next_eq_of_move? (transition_eq_ok_iff.1 hu)] at htu
  have hback := next_congr (A := A) (Setoid.symm hxs) (Setoid.refl c)
  exact Setoid.trans hback (Setoid.trans htu (next_congr hxs (Setoid.refl c)))

/-- Each letter does in both automata what it does in the other. -/
theorem sameMoves (h : A.SameReached B) : A.SameMoves B where
  start := h.start
  accepting := fun _ hs => h.accepting_iff hs
  forth := by
    intro c hc
    exact ⟨c, (SymbolSet.alike_iff.1 h.alphabet c).1 hc, fun _ hs => h.next_alike hs hc⟩
  back := by
    intro c hc
    have hcA := (SymbolSet.alike_iff.1 h.alphabet c).2 hc
    exact ⟨c, hcA, fun _ hs => h.next_alike hs hcA⟩

theorem mem_reached_iff (h : A.SameReached B) : s ∈ A.reached ↔ s ∈ B.reached :=
  h.sameMoves.mem_reached_iff

theorem minimizable (h : A.SameReached B) (hA : A.Minimizable) (hB : ¬Symbol.null ∈ B.states) :
    B.Minimizable :=
  h.sameMoves.minimizable hA hB

end SameReached

/-- Whether two automata agree shows in the search of the first. -/
theorem sameReached_iff : A.SameReached B ↔ A.start ≈ B.start ∧ A.alphabet ≈ B.alphabet ∧
    ∀ s ∈ A.reached.toList, (s ∈ A.accepting ↔ s ∈ B.accepting) ∧
      ∀ c ∈ A.letters, (A.move? s c).map Symbol.plain = (B.move? s c).map Symbol.plain := by
  constructor
  · intro h
    refine ⟨h.start, h.alphabet, fun s hs => ?_⟩
    have hreach := SymbolSet.mem_of_mem_toList hs
    refine ⟨h.accepting_iff hreach, fun c hc => ?_⟩
    have hmem := over_letters c hc
    have hB := mem_states_of_mem_reached (h.mem_reached_iff.1 hreach)
    rw [move?_eq_some_next (mem_states_of_mem_reached hreach) hmem,
      move?_eq_some_next hB ((SymbolSet.alike_iff.1 h.alphabet c).1 hmem)]
    exact congrArg some (h.next_alike hreach hmem)
  · intro h
    obtain ⟨hstart, halphabet, hall⟩ := h
    refine ⟨hstart, halphabet, fun s hs => ?_, fun s hs c hc => ?_⟩
    · obtain ⟨x, hx, hsx⟩ := mem_reached_iff.2 ⟨s, hs, Setoid.refl s⟩
      rw [SymbolSet.mem_congr hsx, SymbolSet.mem_congr hsx]
      exact (hall x hx).1
    · obtain ⟨x, hx, hsx⟩ := mem_reached_iff.2 ⟨s, hs, Setoid.refl s⟩
      obtain ⟨d, hd, hcd⟩ := hc
      have hmove := (hall x hx).2 d (mem_letters.2 hd)
      rw [← A.move?_congr hsx hcd, ← B.move?_congr hsx hcd,
        move?_eq_some_next hs.mem ⟨d, hd, hcd⟩, Option.map_some] at hmove
      obtain ⟨u, hu, htu⟩ := Option.map_eq_some_iff.1 hmove.symm
      exact ⟨_, u, transition_eq_ok hs.mem ⟨d, hd, hcd⟩, transition_eq_ok_iff.2 hu, htu.symm⟩

instance (A B : Automaton) : Decidable (A.SameReached B) := decidable_of_iff _ sameReached_iff.symm

-- ======================================================= minimization

namespace Minimizes

variable (hm : Minimizes m A) (hn : Minimizes n B) (h : A.SameReached B)

include hm hn h

theorem partition_alike : m.partition ≈ n.partition :=
  (hm.sameDistinctions hn h.sameMoves).partition_alike hm hn

theorem rounds_eq (hA : A.minimization = .ok m) (hB : B.minimization = .ok n) :
    m.rounds = n.rounds :=
  (hm.sameCourse hn h.sameMoves hA hB).rounds

theorem minimized_alike (hA : A.minimization = .ok m) (hB : B.minimization = .ok n) :
    m.minimized ≈ n.minimized := by
  have hmoves := h.sameMoves
  refine (hm.numbered hA).exact.alike (hn.numbered hB).exact (hm.minimized_states_alike hn hmoves)
    ?_ (hm.minimized_start_alike hn hmoves) (hm.minimized_accepting_alike hn hmoves) ?_
  · rw [hm.alphabet, hn.alphabet]
    exact h.alphabet
  · intro t ht c hc
    rw [hm.alphabet] at hc
    have hcB := (SymbolSet.alike_iff.1 h.alphabet c).1 hc
    exact hm.minimized_next_alike hn hmoves hc hcB (fun _ hs => h.next_alike hs hc) ht

theorem removed_eq : m.removed = n.removed :=
  (hm.sameDistinctions hn h.sameMoves).removed_eq hm hn

theorem get?_mapping_eq (s : Symbol) : m.mapping.get? s = n.mapping.get? s :=
  get?_mapping_eq_of_alike (hm.partition_alike hn h) s

end Minimizes

/-- Automata without a null state that agree on the start, the alphabet
and all reachable states, which can be compared by size, are minimized to
the same partition, mapping, number of rounds, number of removed states
and minimal automaton, whatever else they hold. -/
theorem minimization_eq_of_sameReached (hA : A.Minimizable) (hB : ¬Symbol.null ∈ B.states)
    (h : A.SameReached B) :
    ∃ m n, A.minimization = .ok m ∧ B.minimization = .ok n ∧ m.partition ≈ n.partition ∧
      (∀ s, m.mapping.get? s = n.mapping.get? s) ∧ m.rounds = n.rounds ∧
      m.removed = n.removed ∧ m.minimized ≈ n.minimized := by
  obtain ⟨m, hmA, hm⟩ := exists_minimization hA
  obtain ⟨n, hnB, hn⟩ := exists_minimization (h.minimizable hA hB)
  exact ⟨m, n, hmA, hnB, hm.partition_alike hn h, hm.get?_mapping_eq hn h,
    hm.rounds_eq hn h hmA hnB, hm.removed_eq hn h, hm.minimized_alike hn h hmA hnB⟩

/-- Counts letters modulo four as `modFour` does, with 1 written as a truth
value. No word leads to the state "idle", which accepts and cannot be
compared with the others, and the table has a row of no state. -/
def modFourIdle : Automaton where
  toDescription := Presentation.description
    { states := [.int 0, .bool true, .int 2, .int 3, .str "idle"]
      alphabet := [.str "a"]
      start := .int 0
      accepting := [.int 0, .int 2, .str "idle"]
      delta :=
        [(.int 0, [(.str "a", .bool true), (.int 5, .int 9)]), (.int 1, [(.str "a", .int 2)]),
          (.int 2, [(.str "a", .int 3)]), (.int 3, [(.str "a", .int 0)]),
          (.str "idle", [(.str "a", .str "idle")]), (.int 8, [])] }
  start_mem := by decide
  strays_isEmpty := by decide
  gaps_eq_nil := by decide

theorem minimization_eq_of_sameReached_modFourIdle :
    modFour.Minimizable ∧ ¬Symbol.null ∈ modFourIdle.states ∧ modFour.SameReached modFourIdle ∧
      ∃ m n, modFour.minimization = .ok m ∧ modFourIdle.minimization = .ok n ∧
        m.partition ≈ n.partition ∧ (∀ s, m.mapping.get? s = n.mapping.get? s) ∧
        m.rounds = n.rounds ∧ m.removed = n.removed ∧ m.minimized ≈ n.minimized :=
  have hA : modFour.Minimizable := by decide
  have hB : ¬Symbol.null ∈ modFourIdle.states := by decide
  have h : modFour.SameReached modFourIdle := by decide +kernel
  ⟨hA, hB, h, minimization_eq_of_sameReached hA hB h⟩

end Automata.Automaton
