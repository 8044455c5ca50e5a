/-
The search for a word on which two automata differ: it finds one
whenever there is one, and what it finds is one.

# Any search

The search is made among machines, and how it goes about this is left
open. It is enough that it explores the product (`ExploresProduct`): it
ends with a word that leads to a pair of states whose labels differ, or
without a word when no pair that is reachable in the product has such
labels. Words lead the machine of an automaton to where they lead the
automaton, and its labels say what is accepted, so a pair whose labels
differ is a word that exactly one automaton accepts, and if there is none,
then the automata accept the same words.

# The traversal

The search that is given explores the product of all machines that take
the same letters (`exploresProduct_findDifference`). Every probe that is
taken up traces its word, which leads to its two states
(`Traces.of_mem_probesAfter`), and the search ends at a probe whose states
differ. A search that ends without a result has met a set of pairs that
holds the starts and is closed under the letters, so all that can be
reached are in it. The count that bounds the search suffices, since a pair
is taken up as often as letters lead to it and each of the pairs is
expanded only once.
-/
import Automata.Counterexample
import Automata.Proofs.Machines
import Automata.Proofs.Minimality

namespace Automata

namespace Machine

variable {m n : Machine} {p q : Probe} {s t c : Symbol} {w : List Symbol}

-- ========================================================= the product

/-- The pairs of states that are reachable in the product of two machines:
their starts, and where a letter leads both on. -/
inductive Meets (m n : Machine) : Symbol → Symbol → Prop
  | start : Meets m n m.start n.start
  | step {s t c u v : Symbol} (h : Meets m n s t) (left : m.step s c = .ok u)
    (right : n.step t c = .ok v) : Meets m n u v

/-- What a search for a difference of two machines comes to if it explores
every pair of states that is reachable in their product. -/
structure ExploresProduct (m n : Machine) (w? : Option (List Symbol)) : Prop where
  /-- A word that is found leads to a pair whose labels differ. -/
  found : ∀ w, w? = some w →
    ∃ s t, m.run w = .ok s ∧ n.run w = .ok t ∧ m.marks s ≠ n.marks t
  /-- If none is found, then no pair was met whose labels differ. -/
  exhausted : w? = none → ∀ s t, m.Meets n s t → m.marks s = n.marks t

/-- What a word leads to is reachable. -/
theorem meets_of_run (hs : m.run w = .ok s) (ht : n.run w = .ok t) : m.Meets n s t := by
  induction w using List.reverseRecOn generalizing s t with
  | nil =>
    cases hs
    cases ht
    exact .start
  | append_singleton w c ih =>
    rw [run_append_singleton, bind_eq_ok_iff] at hs ht
    obtain ⟨s', hs', hs⟩ := hs
    obtain ⟨t', ht', ht⟩ := ht
    exact .step (ih hs' ht') hs ht

-- ============================================================== probes

/-- The word of the probe leads to the states of the probe. -/
structure Traces (m n : Machine) (p : Probe) : Prop where
  left : m.run p.word = .ok p.left
  right : n.run p.word = .ok p.right

/-- The probe that the search starts with traces the empty word. -/
theorem traces_start : ∀ p ∈ [⟨m.start, n.start, []⟩], Traces m n p :=
  List.forall_mem_singleton.2 ⟨rfl, rfl⟩

/-- The probes after a probe are those to which a letter leads from both
of its states. -/
theorem mem_probesAfter : q ∈ probesAfter m n p ↔ ∃ c ∈ m.inputs.toList,
    m.move? p.left c = some q.left ∧ n.move? p.right c = some q.right ∧ q.back = c :: p.back := by
  unfold probesAfter
  simp only [List.mem_filterMap, List.mem_reverse, Option.bind_eq_bind, Option.bind_eq_some_iff,
    Option.pure_def, Option.some.injEq]
  refine exists_congr fun c => and_congr_right fun _ => ?_
  constructor
  · intro h
    obtain ⟨s, hs, t, ht, rfl⟩ := h
    exact ⟨hs, ht, rfl⟩
  · intro h
    obtain ⟨hs, ht, hback⟩ := h
    exact ⟨q.left, hs, q.right, ht, by rw [← hback]⟩

theorem length_probesAfter_le (p : Probe) : (probesAfter m n p).length ≤ m.inputs.size := by
  unfold probesAfter
  refine Nat.le_trans (List.length_filterMap_le _ _) (Nat.le_of_eq ?_)
  rw [List.length_reverse, SymbolSet.length_toList]

/-- A probe that traces its word passes this on to the probes after it. -/
theorem Traces.of_mem_probesAfter (hinputs : m.inputs ≈ n.inputs) (h : Traces m n p) :
    ∀ q ∈ probesAfter m n p, Traces m n q := by
  intro q hq
  obtain ⟨c, hc, hleft, hright, hback⟩ := mem_probesAfter.1 hq
  have hword : q.word = p.word ++ [c] := by
    unfold Probe.word
    rw [hback, List.reverse_cons]
  have hcm := SymbolSet.mem_of_mem_toList hc
  have hcn := (SymbolSet.alike_iff.1 hinputs c).1 hcm
  constructor
  · rw [hword, run_append_singleton, h.left]
    exact step_eq_ok_iff.2 ⟨hcm, hleft⟩
  · rw [hword, run_append_singleton, h.right]
    exact step_eq_ok_iff.2 ⟨hcn, hright⟩

theorem marks_congr (h : s ≈ t) : m.marks s = m.marks t := by
  unfold marks
  rw [SymbolMap.get?_congr h]

/-- Where a letter leads both states of a probe on is the pair of a probe
after it. -/
theorem exists_probeAfter {u v : Symbol} (hs : p.left ≈ s) (ht : p.right ≈ t)
    (hu : m.step s c = .ok u) (hv : n.step t c = .ok v) :
    ∃ q ∈ probesAfter m n p, q.left = u ∧ q.right = v := by
  obtain ⟨hc, hu⟩ := step_eq_ok_iff.1 hu
  obtain ⟨-, hv⟩ := step_eq_ok_iff.1 hv
  obtain ⟨d, hd, hcd⟩ := hc
  refine ⟨⟨u, v, d :: p.back⟩, mem_probesAfter.2 ⟨d, hd, ?_, ?_, rfl⟩, rfl, rfl⟩
  · rw [← hu]
    exact move?_congr hs (Setoid.symm hcd)
  · rw [← hv]
    exact move?_congr ht (Setoid.symm hcd)

-- ========================================================== the search

/-- All pairs of states that may be met, as probes without a word. -/
def allPairs (m n : Machine) : List Probe :=
  m.targets.flatMap fun s => n.targets.map fun t => ⟨s, t, []⟩

theorem length_allPairs : (allPairs m n).length = m.targets.length * n.targets.length := by
  unfold allPairs
  simp only [List.length_flatMap, List.length_map, List.map_const', List.sum_replicate_nat]

theorem Traces.exists_mem_allPairs (h : Traces m n p) : ∃ k ∈ allPairs m n, k.order p = .eq := by
  refine ⟨⟨p.left, p.right, []⟩, List.mem_flatMap.2 ⟨_, mem_targets_of_run h.left, ?_⟩, ?_⟩
  · exact List.mem_map_of_mem (mem_targets_of_run h.right)
  · exact Probe.order_eq_iff.2 ⟨Setoid.refl _, Setoid.refl _⟩

/-- A search without a result has met the pair of the starts, and for each
pair that it has met, with labels that do not differ, all pairs that
letters lead to. -/
theorem search_closed (hinputs : m.inputs ≈ n.inputs) (h : (search m n).1 = none) :
    ⟨m.start, n.start, []⟩ ∈ (search m n).2 ∧
      ∀ p ∈ (search m n).2, ∃ q, q.order p = .eq ∧ differs m n q = false ∧
        ∀ r ∈ probesAfter m n q, r ∈ (search m n).2 := by
  have henough : allowance (allPairs m n) (∅ : Std.TreeSet Probe Probe.order) m.inputs.size
      [⟨m.start, n.start, []⟩] ≤ 1 + m.inputs.size * (m.targets.length * n.targets.length) := by
    rw [← length_allPairs]
    exact allowance_singleton_le _ _ _
  obtain ⟨hstart, hclosed⟩ := explore_closed (fun _ h => Traces.of_mem_probesAfter hinputs h)
    (fun _ h => h.exists_mem_allPairs) length_probesAfter_le traces_start henough h
  refine ⟨hstart _ List.mem_cons_self, fun p hp => ?_⟩
  rcases hclosed p hp with hp | ⟨q, -, hq, hsame, hmet⟩
  · exact absurd hp (by simp)
  · exact ⟨q, hq, hsame, hmet⟩

/-- It has met all pairs that are reachable. -/
theorem mem_search_of_meets (hinputs : m.inputs ≈ n.inputs) (h : (search m n).1 = none)
    (hmeets : m.Meets n s t) : ⟨s, t, []⟩ ∈ (search m n).2 := by
  induction hmeets with
  | start => exact (search_closed hinputs h).1
  | step _ hu hv ih =>
    obtain ⟨q, hq, -, hmet⟩ := (search_closed hinputs h).2 _ ih
    obtain ⟨hs, ht⟩ := Probe.order_eq_iff.1 hq
    obtain ⟨r, hr, rfl, rfl⟩ := exists_probeAfter hs ht hu hv
    have hpair : r.order ⟨r.left, r.right, []⟩ = .eq :=
      Probe.order_eq_iff.2 ⟨Setoid.refl _, Setoid.refl _⟩
    exact (Std.TreeSet.mem_congr hpair).1 (hmet r hr)

/-- The traversal explores the product of machines that take the same letters. -/
theorem exploresProduct_findDifference (hinputs : m.inputs ≈ n.inputs) :
    ∃ w?, m.findDifference n = .ok w? ∧ m.ExploresProduct n w? := by
  refine ⟨(search m n).1.map Probe.word, if_pos hinputs, fun w hw => ?_, fun hnone s t hst => ?_⟩
  · obtain ⟨p, hp, rfl⟩ := Option.map_eq_some_iff.1 hw
    obtain ⟨hdiffers, htraces⟩ :=
      stop_of_explore (fun _ h => Traces.of_mem_probesAfter hinputs h) traces_start hp
    exact ⟨p.left, p.right, htraces.left, htraces.right, bne_iff_ne.1 hdiffers⟩
  · have hsearch := Option.map_eq_none_iff.1 hnone
    obtain ⟨q, hq, hsame, -⟩ :=
      (search_closed hinputs hsearch).2 _ (mem_search_of_meets hinputs hsearch hst)
    obtain ⟨hs, ht⟩ := Probe.order_eq_iff.1 hq
    rw [← marks_congr hs, ← marks_congr ht]
    exact bne_eq_false_iff_eq.1 hsame

end Machine

namespace Automaton

variable {A B : Automaton} {w : List Symbol} {w? : Option (List Symbol)}

-- ==================================================== counterexamples

/-- The labels of the machine of an automaton say which states accept. -/
theorem marks_toMachine {s : Symbol} (hs : s ∈ A.states) :
    A.toMachine.marks s = decide (s ∈ A.accepting) := by
  obtain ⟨row, hrow, -⟩ := exists_get?_rows hs
  unfold Machine.marks
  rw [hrow]
  rfl

theorem accepts_eq_marks (hw : A.Over w) :
    A.accepts w = .ok (A.toMachine.marks (A.after A.start w)) := by
  rw [accepts_eq_ok hw, marks_toMachine (after_mem A.start_mem hw)]

/-- A search that explores the product of the machines of two automata finds
none exactly when the automata accept the same words, and otherwise a word
that one of them accepts and the other does not. -/
theorem counterexample_of_exploresProduct (h : A.alphabet ≈ B.alphabet)
    (hsearch : A.toMachine.ExploresProduct B.toMachine w?) :
    (w? = none ↔ ∀ w, A.Over w → A.accepts w = B.accepts w) ∧
      ∀ w, w? = some w → A.Over w ∧ ∃ a, A.accepts w = .ok a ∧ B.accepts w = .ok !a := by
  have hfound : ∀ w, w? = some w → A.Over w ∧ ∃ a, A.accepts w = .ok a ∧ B.accepts w = .ok !a := by
    intro w hw
    obtain ⟨s, t, hs, ht, hdiffer⟩ := hsearch.found w hw
    have hover : A.Over w := Machine.mem_inputs_of_run hs
    have hoverB : B.Over w := (over_congr h).1 hover
    rw [run_toMachine hover, Except.ok.injEq] at hs
    rw [run_toMachine hoverB, Except.ok.injEq] at ht
    refine ⟨hover, _, accepts_eq_marks hover, ?_⟩
    rw [accepts_eq_marks hoverB, hs, ht]
    exact congrArg _ (Bool.eq_not_of_ne hdiffer.symm)
  refine ⟨⟨fun hnone w hw => ?_, fun hsame => ?_⟩, hfound⟩
  · have hwB := (over_congr h).1 hw
    rw [accepts_eq_marks hw, accepts_eq_marks hwB]
    exact congrArg _ (hsearch.exhausted hnone _ _
      (Machine.meets_of_run (run_toMachine hw) (run_toMachine hwB)))
  · cases w? with
    | none => rfl
    | some w =>
      obtain ⟨hover, a, hA, hB⟩ := hfound w rfl
      rw [hsame w hover, hB, Except.ok.injEq] at hA
      exact absurd hA.symm (Bool.eq_not_self a).1

/-- The search that is given finds a counterexample if there is one. -/
theorem exists_findCounterexample (h : A.alphabet ≈ B.alphabet) :
    ∃ w?, A.findCounterexample B = .ok w? ∧
      (w? = none ↔ ∀ w, A.Over w → A.accepts w = B.accepts w) ∧
      ∀ w, w? = some w → A.Over w ∧ ∃ a, A.accepts w = .ok a ∧ B.accepts w = .ok !a := by
  obtain ⟨w?, hw, hsearch⟩ :=
    Machine.exploresProduct_findDifference (m := A.toMachine) (n := B.toMachine) h
  exact ⟨w?, hw, counterexample_of_exploresProduct h hsearch⟩

/-- Let the machines of two automata with the same alphabet be searched in
any way that explores every pair of states reachable in their product.
Then there is no counterexample exactly when the automata accept the same
words over their alphabet. Otherwise the counterexample is a word over the
alphabet that one of them accepts and the other does not. -/
theorem findCounterexampleBy_eq_none_iff (h : A.alphabet ≈ B.alphabet)
    (search : Machine → Machine → Except Fault (Option (List Symbol)))
    (hsearch : ∃ w?, search A.toMachine B.toMachine = .ok w? ∧
      A.toMachine.ExploresProduct B.toMachine w?) :
    ∃ w?, findCounterexampleBy search A B = .ok w? ∧
      (w? = none ↔ ∀ w, A.Over w → A.accepts w = B.accepts w) ∧
      ∀ w, w? = some w → A.Over w ∧ ∃ a, A.accepts w = .ok a ∧ B.accepts w = .ok !a := by
  obtain ⟨w?, hw, hexplores⟩ := hsearch
  exact ⟨w?, hw, counterexample_of_exploresProduct h hexplores⟩

theorem findCounterexampleBy_eq_none_iff_modFour :
    modFour.alphabet ≈ modTwo.alphabet ∧
      (∃ w?, modFour.toMachine.findDifference modTwo.toMachine = .ok w? ∧
        modFour.toMachine.ExploresProduct modTwo.toMachine w?) ∧
      ∃ w?, findCounterexampleBy Machine.findDifference modFour modTwo = .ok w? ∧
        (w? = none ↔ ∀ w, modFour.Over w → modFour.accepts w = modTwo.accepts w) ∧
        ∀ w, w? = some w → modFour.Over w ∧
          ∃ a, modFour.accepts w = .ok a ∧ modTwo.accepts w = .ok !a :=
  have h : modFour.alphabet ≈ modTwo.alphabet := simulation_modFour_modTwo.alphabet
  have hsearch :=
    Machine.exploresProduct_findDifference (m := modFour.toMachine) (n := modTwo.toMachine) h
  ⟨h, hsearch, findCounterexampleBy_eq_none_iff h Machine.findDifference hsearch⟩

example : modFour.findCounterexample modTwo = .ok none := by decide +kernel

end Automaton

end Automata
