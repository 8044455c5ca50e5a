/-
Minimization keeps the language and leaves no automaton for it with
fewer states.

# The course of a minimization

`Minimizes` collects what the three stages were shown to do: the reached
part, a stable partition of it that relates the states from which the
same words are accepted, and the automaton on its blocks. That the
language is kept is then two simulations in a row.

# Why the result is the smallest

An automaton is `Minimal` when words lead to all its states and no two
of them accept the same words. Given any other automaton for the same
language, choose for each state of a minimal one a word that leads
there, and match the state with the one that the word leads the other
automaton to (`Minimal.exists_matching`). Two states are not matched with
one, because they would accept the same words. So the states of the
minimal one are mapped one to one into those of the other
(`Minimal.size_le`), whatever those are and whether or not words lead to
them.
-/
import Automata.Proofs.Places
import Automata.Proofs.Quotient
import Automata.Proofs.Reachability

namespace Automata

namespace Automaton

variable {A B M : Automaton} {m : Minimization}

-- ========================================================== the course

/-- What the course of a minimization of an automaton is. -/
structure Minimizes (m : Minimization) (A : Automaton) : Prop where
  pruned : m.pruned.PrunedFrom A
  covers : m.partition.Covers m.pruned
  stable : m.partition.Stable m.pruned
  together_iff : ∀ s ∈ m.pruned.states, ∀ t ∈ m.pruned.states,
    m.partition.Together s t ↔ m.pruned.SameFrom m.pruned s t
  minimized : m.minimized.QuotientOf m.pruned m.partition

/-- A minimization is its three stages in a row. -/
theorem minimization_eq_ok_iff : A.minimization = .ok m ↔
    A.prune = .ok m.pruned ∧ m.pruned.refinements = .ok m.refinement ∧
      m.pruned.rebuild m.partition = .ok m.minimized := by
  unfold minimization
  constructor
  · intro h
    obtain ⟨Q, hQ, h⟩ := bind_eq_ok_iff.1 h
    obtain ⟨r, hr, h⟩ := bind_eq_ok_iff.1 h
    obtain ⟨M, hM, h⟩ := bind_eq_ok_iff.1 h
    cases h
    exact ⟨hQ, hr, hM⟩
  · intro h
    obtain ⟨hQ, hr, hM⟩ := h
    refine bind_eq_ok_iff.2 ⟨_, hQ, ?_⟩
    refine bind_eq_ok_iff.2 ⟨_, hr, ?_⟩
    exact bind_eq_ok_iff.2 ⟨_, hM, rfl⟩

theorem minimize_eq_ok (h : A.minimization = .ok m) : A.minimize = .ok m.minimized := by
  unfold minimize
  rw [h]
  rfl

/-- An automaton without a null state whose reachable states can be
compared is minimized. -/
theorem exists_minimization (h : A.Minimizable) :
    ∃ m, A.minimization = .ok m ∧ Minimizes m A := by
  obtain ⟨Q, hQ, hpruned⟩ := exists_prune h.null_not_mem
  have hcomparable := (SymbolSet.comparable_congr hpruned.states).2 h.comparable_reached
  obtain ⟨r, hr, hcovers, hstable, htogether⟩ := exists_last hcomparable
  obtain ⟨M, hM, hquotient⟩ := exists_rebuild hcovers
  exact ⟨⟨Q, r, M⟩, minimization_eq_ok_iff.2 ⟨hQ, hr, hM⟩, hpruned, hcovers, hstable, htogether,
    hquotient⟩

namespace Minimizes

theorem pure (h : Minimizes m A) : m.partition.Pure m.pruned :=
  h.covers.pure_of_sameFrom fun s hs t ht => (h.together_iff s hs t ht).1

/-- The reached part and the minimal automaton run in step. -/
theorem simulation (h : Minimizes m A) : Simulation m.pruned m.minimized
    fun s t => s ∈ m.pruned.states ∧ t = .ofNat (m.partition.number s) :=
  h.minimized.simulation h.covers h.stable h.pure

theorem alphabet (h : Minimizes m A) : m.minimized.alphabet = A.alphabet :=
  h.minimized.alphabet.trans h.pruned.alphabet

theorem alphabet_alike (h : Minimizes m A) : A.alphabet ≈ m.minimized.alphabet :=
  SymbolSet.alike_of_eq h.alphabet.symm

theorem sameLanguage (h : Minimizes m A) : A.SameLanguage m.minimized :=
  h.pruned.simulation.sameLanguage.trans h.pruned.simulation.alphabet h.simulation.sameLanguage

end Minimizes

/-- The minimal automaton is the result of a course of minimization. -/
theorem exists_minimize (h : A.Minimizable) :
    ∃ m, A.minimize = .ok m.minimized ∧ Minimizes m A := by
  obtain ⟨m, hm, hspec⟩ := exists_minimization h
  exact ⟨m, minimize_eq_ok hm, hspec⟩

-- ==================================================== minimal automata

/-- Words lead to all states, and no two states accept the same words. -/
structure Minimal (M : Automaton) : Prop where
  exists_after : ∀ s ∈ M.states, ∃ w, M.Over w ∧ M.after M.start w ≈ s
  alike_of_sameFrom : ∀ s ∈ M.states, ∀ t ∈ M.states, M.SameFrom M s t → s ≈ t

/-- Every new state is the number of an old one. -/
theorem Minimizes.exists_number (h : Minimizes m A) {t : Symbol} (ht : t ∈ m.minimized.states) :
    ∃ s ∈ m.pruned.states, t ≈ .ofNat (m.partition.number s) :=
  h.minimized.exists_number h.covers ht

theorem Minimizes.exists_number_eq (h : Minimizes m A) {i : Nat} (hi : i < m.minimized.size) :
    ∃ s ∈ m.pruned.states, m.partition.number s = i := by
  rw [h.minimized.size] at hi
  exact h.covers.exists_number hi

theorem Minimizes.minimal (h : Minimizes m A) : m.minimized.Minimal where
  exists_after := by
    intro t ht
    obtain ⟨s, hs, hts⟩ := h.exists_number ht
    obtain ⟨w, hw, hws⟩ := h.pruned.exists_after hs
    obtain ⟨-, hnumber⟩ := h.simulation.after h.simulation.start hw
    refine ⟨w, (over_congr h.simulation.alphabet).1 hw, ?_⟩
    rw [hnumber, Partition.number_congr hws]
    exact Setoid.symm hts
  alike_of_sameFrom := by
    intro t ht u hu htu
    exact h.minimized.alike_of_sameFrom h.covers h.stable h.together_iff ht hu htu

/-- Two automata for one language go to states that accept the same
words. -/
theorem SameLanguage.sameFrom_after (ha : A.alphabet ≈ B.alphabet) (hl : A.SameLanguage B)
    {w : List Symbol} (hw : A.Over w) : A.SameFrom B (A.after A.start w) (B.after B.start w) :=
  ((sameLanguage_iff ha).1 hl).after hw

/-- Each state of a minimal automaton has a state of any other automaton
for the language from which the same words are accepted. -/
theorem Minimal.exists_matching (hM : M.Minimal) (ha : M.alphabet ≈ B.alphabet)
    (hl : M.SameLanguage B) :
    ∃ f : Symbol → Symbol, ∀ s ∈ M.states, f s ∈ B.states ∧ M.SameFrom B s (f s) := by
  choose! w hw using hM.exists_after
  refine ⟨fun s => B.after B.start (w s), fun s hs => ?_⟩
  obtain ⟨hover, hafter⟩ := hw s hs
  refine ⟨after_mem B.start_mem ((over_congr ha).1 hover), ?_⟩
  exact (sameFrom_of_alike (Setoid.symm hafter)).trans (Setoid.refl _)
    (hl.sameFrom_after ha hover)

/-- No automaton for the language of a minimal one has fewer states. -/
theorem Minimal.size_le (hM : M.Minimal) (ha : M.alphabet ≈ B.alphabet) (hl : M.SameLanguage B) :
    M.size ≤ B.size := by
  obtain ⟨f, hf⟩ := hM.exists_matching ha hl
  refine SymbolSet.size_le_of_injective f (fun s hs => (hf s hs).1) fun s hs t ht hst => ?_
  refine hM.alike_of_sameFrom s hs t ht ?_
  exact ((hf s hs).2.trans ha (sameFrom_of_alike hst)).trans ha ((hf t ht).2.symm ha)

-- ========================================================= minimization

/-- The minimal automaton is over the alphabet of the given one, and
accepts a word over it just when that does. -/
theorem minimize_accepts (h : A.Minimizable) :
    ∃ M, A.minimize = .ok M ∧ M.alphabet = A.alphabet ∧
      ∀ w, A.Over w → ∃ b, M.accepts w = .ok b ∧ A.accepts w = .ok b := by
  obtain ⟨m, hm, hspec⟩ := exists_minimize h
  refine ⟨m.minimized, hm, hspec.alphabet, fun w hw => ⟨_, ?_, accepts_eq_ok hw⟩⟩
  rw [← hspec.sameLanguage w hw, accepts_eq_ok hw]

theorem minimize_accepts_modFour :
    modFour.Minimizable ∧ ∃ M, modFour.minimize = .ok M ∧ M.alphabet = modFour.alphabet ∧
      ∀ w, modFour.Over w → ∃ b, M.accepts w = .ok b ∧ modFour.accepts w = .ok b :=
  have h : modFour.Minimizable := by decide
  ⟨h, minimize_accepts h⟩

theorem Minimizes.size_le (h : Minimizes m A) : m.minimized.size ≤ A.size :=
  h.minimal.size_le (Setoid.symm h.alphabet_alike) (h.sameLanguage.symm h.alphabet_alike)

/-- The minimal automaton is one for the language, and no automaton for it
has fewer states. -/
theorem minimize_size_le (h : A.Minimizable) (ha : A.alphabet ≈ B.alphabet)
    (hl : ∀ w, A.Over w → A.accepts w = B.accepts w) :
    ∃ M, A.minimize = .ok M ∧
      (M.alphabet ≈ A.alphabet ∧ ∀ w, M.Over w → M.accepts w = A.accepts w) ∧
      M.size ≤ B.size := by
  obtain ⟨m, hm, hspec⟩ := exists_minimize h
  have hback := Setoid.symm hspec.alphabet_alike
  have hlanguage := hspec.sameLanguage.symm hspec.alphabet_alike
  have hsize := hspec.minimal.size_le (Setoid.trans hback ha) (hlanguage.trans hback hl)
  exact ⟨m.minimized, hm, ⟨hback, hlanguage⟩, hsize⟩

/-- Counts letters modulo two and accepts the even counts; its states are
not all of one sort. -/
def modTwo : Automaton where
  toDescription := Presentation.description
    { states := [.str "even", .str "odd", .int 7]
      alphabet := [.str "a"]
      start := .str "even"
      accepting := [.str "even"]
      delta :=
        [(.str "even", [(.str "a", .str "odd")]), (.str "odd", [(.str "a", .str "even")]),
          (.int 7, [(.str "a", .int 7)])] }
  start_mem := by decide
  strays_isEmpty := by decide
  gaps_eq_nil := by decide

/-- Counting modulo four and modulo two runs in step. -/
theorem simulation_modFour_modTwo : Simulation modFour modTwo fun s t =>
    (s ≈ .int 0 ∨ s ≈ .int 2) ∧ t ≈ .str "even" ∨ (s ≈ .int 1 ∨ s ≈ .int 3) ∧ t ≈ .str "odd" where
  alphabet := Setoid.refl (SymbolSet.ofList [.str "a"])
  start := by decide
  accepting := by
    intro s t h
    rcases h with ⟨hs | hs, ht⟩ | ⟨hs | hs, ht⟩
    all_goals
      rw [SymbolSet.mem_congr hs, SymbolSet.mem_congr ht]
      decide
  next := by
    intro s t c h hc
    have hletter : modFour.alphabet.toList = [.str "a"] := by decide
    obtain ⟨d, hd, hcd⟩ := hc
    rw [hletter, List.mem_singleton] at hd
    subst hd
    rcases h with ⟨hs | hs, ht⟩ | ⟨hs | hs, ht⟩
    · exact Or.inr ⟨Or.inl (Setoid.trans (next_congr hs hcd) (by decide)),
        Setoid.trans (next_congr ht hcd) (by decide)⟩
    · exact Or.inr ⟨Or.inr (Setoid.trans (next_congr hs hcd) (by decide)),
        Setoid.trans (next_congr ht hcd) (by decide)⟩
    · exact Or.inl ⟨Or.inr (Setoid.trans (next_congr hs hcd) (by decide)),
        Setoid.trans (next_congr ht hcd) (by decide)⟩
    · exact Or.inl ⟨Or.inl (Setoid.trans (next_congr hs hcd) (by decide)),
        Setoid.trans (next_congr ht hcd) (by decide)⟩

theorem minimize_size_le_modFour :
    modFour.Minimizable ∧ modFour.alphabet ≈ modTwo.alphabet ∧
      (∀ w, modFour.Over w → modFour.accepts w = modTwo.accepts w) ∧
      ∃ M, modFour.minimize = .ok M ∧
        (M.alphabet ≈ modFour.alphabet ∧ ∀ w, M.Over w → M.accepts w = modFour.accepts w) ∧
        M.size ≤ modTwo.size :=
  have h : modFour.Minimizable := by decide
  have ha := simulation_modFour_modTwo.alphabet
  have hl := simulation_modFour_modTwo.sameLanguage
  ⟨h, ha, hl, minimize_size_le h ha hl⟩

example : modFour.minimize.map (·.size) = .ok 2 := by decide +kernel

end Automaton

end Automata
