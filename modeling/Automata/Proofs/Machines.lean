/-
The way of an automaton through a machine and back: what comes back is
the automaton pruned, with nothing in its table beyond what it needs.

# The machine

A machine is searched through its own rows, deep first, and finds what
words over its letters lead to (`Machine.mem_reached_iff`). Words lead the
machine of an automaton to where they lead the automaton
(`run_toMachine`), so it reaches the same states
(`reached_toMachine_alike`).

# Writing a machine out

An automaton is read off a machine written out: a list of the states that
its start leads to, each with its label and its row. How the list is come
by is left open. A function that lists exactly these states, labels and
rows, in any order and however it writes alike symbols (`UnfoldsTo`), is
as good as the search of the machine, which is one of them
(`unfoldsTo_toMachine`, `toAutomaton_eq`).

# The way back

For the machine of an automaton, what is listed fits together, has rows
for the reachable states only and in them entries for the letters only,
and leads as the automaton does (`ReadBack`). So does the pruned
automaton after trimming, and there is one such automaton up to writing
(`ReadBack.alike_trim`). Where the table of the automaton holds more, so
does the machine, but the rest is not listed. Pruning keeps it.
-/
import Automata.Machine
import Automata.Proofs.Pruning
import Automata.Proofs.Tables

namespace Automata

-- ===================================================== written-out machines

/-- A machine written out: its start, and states with their labels and with
where letters lead from them. -/
structure Unfolding where
  start : Symbol
  rows : List (Symbol × Symbol × List (Symbol × Symbol))

/-- What an automaton on the listed states, with the given alphabet, is made
from; it accepts where the label is true. -/
def Unfolding.presentation (u : Unfolding) (alphabet : SymbolSet) : Presentation where
  states := u.rows.map Prod.fst
  alphabet := alphabet.toList
  start := u.start
  accepting := u.rows.filterMap fun (s, label, _) => if Machine.isTrue label then some s else none
  delta := u.rows.map fun (s, _, row) => (s, row)

namespace Machine

/-- The machine written out by its own search. -/
def unfold (m : Machine) : Except Fault Unfolding := do
  return ⟨m.start, ← m.reached.toList.mapM m.completeRow⟩

/-- The automaton of a machine that is written out in some way. -/
def toAutomatonBy (unfold : Machine → Except Fault Unfolding) (m : Machine) :
    Except Fault Automaton := do
  if m.outputs.toList.all isTruthValue then
    let u ← unfold m
    (u.presentation m.inputs).build
  else .error .unknownToMachine

/-- The states listed are exactly those that words over the inputs lead to
from the start, each with its label and, for every input, with where it
leads. -/
structure UnfoldsTo (m : Machine) (u : Unfolding) : Prop where
  start : u.start ≈ m.start
  states : ∀ s, (∃ e ∈ u.rows, s ≈ e.1) ↔
    ∃ w t, (∀ c ∈ w, c ∈ m.inputs) ∧ m.run w = .ok t ∧ t ≈ s
  rows : ∀ e ∈ u.rows, ∃ row, m.rows.get? e.1 = some (e.2.1, row) ∧
    (∀ c ∈ m.inputs, ∃ f ∈ e.2.2, c ≈ f.1) ∧
    ∀ f ∈ e.2.2, f.1 ∈ m.inputs ∧ ∃ t, row.get? f.1 = some t ∧ f.2 ≈ t

variable {m : Machine}

theorem step_eq_ok_iff {s c t : Symbol} :
    m.step s c = .ok t ↔ c ∈ m.inputs ∧ m.move? s c = some t := by
  unfold step move?
  by_cases hc : c ∈ m.inputs
  · rw [if_pos hc, and_iff_right hc, bind_eq_ok_iff]
    simp only [SymbolMap.fetch_eq_ok_iff, Option.bind_eq_some_iff]
  · rw [if_neg hc]
    exact iff_of_false (fun h => nomatch h) fun h => hc h.1

-- ================================================== runs of a machine

variable {s t c : Symbol} {w : List Symbol}

theorem run_append_singleton (m : Machine) (w : List Symbol) (c : Symbol) :
    m.run (w ++ [c]) = m.run w >>= fun s => m.step s c := by
  unfold run
  simp only [List.foldlM_append, List.foldlM_cons, List.foldlM_nil, bind_pure]

/-- A machine runs on words over its letters only. -/
theorem mem_inputs_of_run (hs : m.run w = .ok s) : ∀ c ∈ w, c ∈ m.inputs := by
  induction w using List.reverseRecOn generalizing s with
  | nil => exact fun c hc => nomatch hc
  | append_singleton w c ih =>
    rw [run_append_singleton, bind_eq_ok_iff] at hs
    obtain ⟨s', hs', hs⟩ := hs
    intro d hd
    rcases List.mem_append.1 hd with hd | hd
    · exact ih hs' d hd
    · rw [List.mem_singleton.1 hd]
      exact (step_eq_ok_iff.1 hs).1

theorem mem_targets_of_run (h : m.run w = .ok s) : s ∈ m.targets := by
  rcases List.eq_nil_or_concat' w with rfl | ⟨v, c, rfl⟩
  · cases h
    exact List.mem_cons_self
  · rw [run_append_singleton, bind_eq_ok_iff] at h
    obtain ⟨t, -, ht⟩ := h
    obtain ⟨e, he, hrow⟩ := Option.bind_eq_some_iff.1 (step_eq_ok_iff.1 ht).2
    obtain ⟨j, hj, -⟩ := SymbolMap.get?_eq_some_iff.1 he
    obtain ⟨d, hd, -⟩ := SymbolMap.get?_eq_some_iff.1 hrow
    exact List.mem_cons_of_mem _ (List.mem_flatMap.2 ⟨_, hj, List.mem_map.2 ⟨_, hd, rfl⟩⟩)

theorem move?_congr {d : Symbol} (hs : s ≈ t) (hc : c ≈ d) : m.move? s c = m.move? t d := by
  unfold move?
  rw [SymbolMap.get?_congr hs]
  simp only [SymbolMap.get?_congr hc]

theorem follows_iff : Follows m.successors s t ↔ ∃ c ∈ m.inputs.toList, m.move? s c = some t := by
  unfold Follows successors move?
  cases m.rows.get? s <;> simp

/-- What follows the start in the search is what words lead to. -/
theorem follows_start_iff :
    Relation.ReflTransGen (Follows m.successors) m.start s ↔ ∃ w, m.run w = .ok s := by
  constructor
  · intro h
    induction h with
    | refl => exact ⟨[], rfl⟩
    | tail _ h ih =>
      obtain ⟨w, hw⟩ := ih
      obtain ⟨c, hc, hmove⟩ := follows_iff.1 h
      refine ⟨w ++ [c], ?_⟩
      rw [run_append_singleton, hw]
      exact step_eq_ok_iff.2 ⟨SymbolSet.mem_of_mem_toList hc, hmove⟩
  · intro h
    obtain ⟨w, hw⟩ := h
    induction w using List.reverseRecOn generalizing s with
    | nil =>
      cases hw
      exact .refl
    | append_singleton w c ih =>
      rw [run_append_singleton, bind_eq_ok_iff] at hw
      obtain ⟨t, ht, hs⟩ := hw
      obtain ⟨⟨d, hd, hcd⟩, hmove⟩ := step_eq_ok_iff.1 hs
      refine (ih ht).tail (follows_iff.2 ⟨d, hd, ?_⟩)
      rw [← hmove]
      exact move?_congr (Setoid.refl t) (Setoid.symm hcd)

/-- The search finds the states that words over the inputs lead to, and no
others. -/
theorem mem_reached_iff : s ∈ m.reached ↔
    ∃ w t, (∀ c ∈ w, c ∈ m.inputs) ∧ m.run w = .ok t ∧ t ≈ s := by
  have hcongr : ∀ s t : Symbol, s ≈ t → m.successors s = m.successors t := by
    intro s t h
    unfold successors
    rw [SymbolMap.get?_congr h]
  have hwidth : ∀ s, (m.successors s).length ≤ m.inputs.size := by
    intro s
    unfold successors
    cases m.rows.get? s with
    | none => exact Nat.zero_le _
    | some e =>
      refine Nat.le_trans (List.length_filterMap_le _ _) (Nat.le_of_eq ?_)
      rw [List.length_reverse, SymbolSet.length_toList]
  have hnodes : ∀ t, Relation.ReflTransGen (Follows m.successors) m.start t →
      ∃ k ∈ m.targets, k ≈ t := by
    intro t ht
    obtain ⟨w, hw⟩ := follows_start_iff.1 ht
    exact ⟨t, mem_targets_of_run hw, Setoid.refl t⟩
  refine (mem_visited_iff hcongr hwidth hnodes (Nat.le_refl _)).trans ?_
  simp only [follows_start_iff]
  constructor
  · intro h
    obtain ⟨t, ⟨w, hw⟩, hts⟩ := h
    exact ⟨w, t, mem_inputs_of_run hw, hw, hts⟩
  · intro h
    obtain ⟨w, t, -, hw, hts⟩ := h
    exact ⟨t, ⟨w, hw⟩, hts⟩

-- ==================================================== writing machines out

theorem fst_of_completeRow {s : Symbol} {e : Symbol × Symbol × List (Symbol × Symbol)}
    (h : m.completeRow s = .ok e) : e.1 = s := by
  obtain ⟨_, -, h⟩ := bind_eq_ok_iff.1 h
  obtain ⟨_, -, h⟩ := bind_eq_ok_iff.1 h
  cases h
  rfl

/-- A machine becomes an automaton by way of its own search. -/
theorem toAutomaton_eq (m : Machine) : m.toAutomaton = m.toAutomatonBy unfold := by
  unfold toAutomaton toAutomatonBy
  refine if_congr Iff.rfl ?_ rfl
  unfold Machine.unfold
  cases hrows : m.reached.toList.mapM m.completeRow with
  | error e => rfl
  | ok rows =>
      have hstates : m.reached.toList = rows.map Prod.fst := by
        refine (List.forall₂_eq_eq_eq ▸ List.forall₂_map_right_iff.2 ?_ :)
        exact (mapM_eq_ok_iff.1 hrows).imp fun _ _ h => (fst_of_completeRow h).symm
      show Presentation.build _ = Presentation.build _
      unfold Unfolding.presentation
      rw [hstates]

end Machine

namespace Automaton

variable {A B Q : Automaton} {u : Unfolding} {s c : Symbol} {w : List Symbol}

-- ============================================ the machine of an automaton

/-- The machine has for each state a row that leads as the automaton does. -/
theorem exists_get?_rows (hs : s ∈ A.states) :
    ∃ row, A.toMachine.rows.get? s = some (.bool (decide (s ∈ A.accepting)), row) ∧
      ∀ c ∈ A.alphabet, row.get? c = some (A.next s c) := by
  obtain ⟨row, hrow⟩ := A.exists_row hs
  refine ⟨row, ?_, fun c hc => by rw [get?_row hrow, move?_eq_some_next hs hc]⟩
  obtain ⟨e, he, rfl⟩ := Option.map_eq_some_iff.1 hrow
  have hse := (SymbolMap.find?_eq_some_iff.1 he).2
  refine (SymbolMap.get?_filterMap _ _ _).trans ?_
  rw [he, Option.bind_some]
  simp only [SymbolSet.mem_congr hse]

theorem step_toMachine (hs : s ∈ A.states) (hc : c ∈ A.alphabet) :
    A.toMachine.step s c = .ok (A.next s c) := by
  obtain ⟨row, hrow, hentry⟩ := exists_get?_rows hs
  refine Machine.step_eq_ok_iff.2 ⟨hc, ?_⟩
  unfold Machine.move?
  rw [hrow]
  exact hentry c hc

theorem foldlM_step_toMachine (hs : s ∈ A.states) (hw : A.Over w) :
    w.foldlM A.toMachine.step s = .ok (A.after s w) := by
  induction w generalizing s with
  | nil => rfl
  | cons c w ih =>
      obtain ⟨hc, hw⟩ := over_cons.1 hw
      rw [List.foldlM_cons]
      exact bind_eq_ok_iff.2 ⟨_, step_toMachine hs hc, ih (next_mem hs hc) hw⟩

/-- Words lead the machine to where they lead the automaton. -/
theorem run_toMachine (hw : A.Over w) : A.toMachine.run w = .ok (A.after A.start w) :=
  foldlM_step_toMachine A.start_mem hw

theorem mem_reached_iff_run : s ∈ A.reached ↔
    ∃ w t, (∀ c ∈ w, c ∈ A.toMachine.inputs) ∧ A.toMachine.run w = .ok t ∧ t ≈ s := by
  rw [mem_reached_iff_after]
  refine exists_congr fun w => ?_
  constructor
  · intro h
    exact ⟨_, h.1, run_toMachine h.1, h.2⟩
  · intro h
    obtain ⟨t, hw, ht, hts⟩ := h
    have hw : A.Over w := hw
    rw [run_toMachine hw, Except.ok.injEq] at ht
    exact ⟨hw, ht ▸ hts⟩

/-- The machine reaches what the automaton reaches. -/
theorem reached_toMachine_alike : A.toMachine.reached ≈ A.reached :=
  SymbolSet.alike_iff.2 fun _ => Machine.mem_reached_iff.trans mem_reached_iff_run.symm

/-- What the search of the machine writes out. -/
def unfolding (A : Automaton) : Unfolding where
  start := A.start
  rows := A.toMachine.reached.toList.map fun s =>
    (s, .bool (decide (s ∈ A.accepting)), A.alphabet.toList.map fun c => (c, A.next s c))

theorem unfold_toMachine : A.toMachine.unfold = .ok A.unfolding := by
  have hrows : A.toMachine.reached.toList.mapM A.toMachine.completeRow = .ok A.unfolding.rows := by
    refine mapM_eq_ok fun s hs => ?_
    have hreach := (SymbolSet.alike_iff.1 reached_toMachine_alike s).1
      (SymbolSet.mem_of_mem_toList hs)
    obtain ⟨row, hrow, hentry⟩ := exists_get?_rows (mem_states_of_mem_reached hreach)
    have hentries : A.toMachine.inputs.toList.mapM (m := Except Fault)
        (fun c => do return (c, ← row.fetch c)) =
          .ok (A.alphabet.toList.map fun c => (c, A.next s c)) := by
      refine mapM_eq_ok fun c hc => ?_
      rw [SymbolMap.fetch_eq_ok (hentry c (SymbolSet.mem_of_mem_toList hc))]
      rfl
    exact bind_eq_ok_iff.2 ⟨_, SymbolMap.fetch_eq_ok hrow,
      bind_eq_ok_iff.2 ⟨_, hentries, rfl⟩⟩
  unfold Machine.unfold
  rw [hrows]
  rfl

/-- The search of the machine writes it out. -/
theorem unfoldsTo_toMachine (A : Automaton) : A.toMachine.UnfoldsTo A.unfolding where
  start := Setoid.refl A.start
  states := by
    intro s
    rw [← mem_reached_iff_run, ← SymbolSet.alike_iff.1 reached_toMachine_alike, SymbolSet.mem_def]
    unfold unfolding
    simp only [List.mem_map, exists_exists_and_eq_and]
  rows := by
    intro e he
    obtain ⟨s, hs, rfl⟩ := List.mem_map.1 he
    have hreach := (SymbolSet.alike_iff.1 reached_toMachine_alike s).1
      (SymbolSet.mem_of_mem_toList hs)
    obtain ⟨row, hrow, hentry⟩ := exists_get?_rows (mem_states_of_mem_reached hreach)
    refine ⟨row, hrow, fun c hc => ?_, fun f hf => ?_⟩
    · obtain ⟨d, hd, hcd⟩ := hc
      exact ⟨_, List.mem_map_of_mem hd, hcd⟩
    · obtain ⟨c, hc, rfl⟩ := List.mem_map.1 hf
      have hc := SymbolSet.mem_of_mem_toList hc
      exact ⟨hc, _, hentry c hc, Setoid.refl _⟩

-- ========================================================= the way back

/-- The automaton is on the reached states of another, where it starts,
accepts and leads as that does, and its table holds nothing else. -/
structure ReadBack (B A : Automaton) : Prop where
  states : B.states ≈ A.reached
  alphabet : B.alphabet = A.alphabet
  start : B.start ≈ A.start
  accepting : ∀ s, s ∈ B.accepting ↔ s ∈ A.reached ∧ s ∈ A.accepting
  next : ∀ {s c}, s ∈ A.reached → c ∈ A.alphabet → A.next s c ≈ B.next s c
  exact : B.Exact

namespace ReadBack

/-- An automaton and what is read back of it run in step. -/
theorem simulation (h : B.ReadBack A) : Simulation A B fun s t => s ∈ A.reached ∧ s ≈ t where
  alphabet := SymbolSet.alike_of_eq h.alphabet.symm
  start := ⟨reached_closed.1, Setoid.symm h.start⟩
  accepting := by
    intro s t hst
    rw [← SymbolSet.mem_congr hst.2, h.accepting, and_iff_right hst.1]
  next := by
    intro s t c hst hc
    refine ⟨reached_closed.2 hst.1 hc, Setoid.trans (h.next hst.1 hc) ?_⟩
    exact next_congr hst.2 (Setoid.refl c)

/-- It is the pruned automaton, trimmed. -/
theorem alike_trim (h : B.ReadBack A) (hQ : Q.PrunedFrom A) : B ≈ Q.trim := by
  have hmem := SymbolSet.alike_iff.1 h.states
  have hstart : Q.trim.start = A.start := hQ.start
  refine h.exact.alike Q.exact_trim (Setoid.trans h.states (Setoid.symm hQ.states)) ?_
    (hstart ▸ h.start) ?_ fun s hs c hc => ?_
  · exact SymbolSet.alike_of_eq (h.alphabet.trans hQ.alphabet.symm)
  · refine SymbolSet.alike_iff.2 fun s => ?_
    show s ∈ B.accepting ↔ s ∈ Q.accepting
    rw [h.accepting]
    constructor
    · intro hs
      exact (hQ.accepting hs.1).2 hs.2
    · intro hs
      have hreach := hQ.mem_states_iff.1 (Q.accepting_subset hs)
      exact ⟨hreach, (hQ.accepting hreach).1 hs⟩
  · have hreach := (hmem s).1 hs
    rw [h.alphabet] at hc
    rw [next_trim (hQ.mem_states_iff.2 hreach) (hQ.alphabet ▸ hc), hQ.next hreach]
    exact Setoid.symm (h.next hreach hc)

end ReadBack

theorem alphabet_presentation : (u.presentation A.alphabet).description.alphabet = A.alphabet :=
  SymbolSet.ofList_toList A.alphabet

/-- A row of the table is that of a listed state. -/
theorem exists_of_get?_listed {row : Row}
    (hrow : (u.presentation A.alphabet).description.delta.get? s = some row) :
    ∃ e ∈ u.rows, s ≈ e.1 ∧ row = .ofList e.2.2 := by
  obtain ⟨j, hj, hsj⟩ := SymbolMap.exists_of_get?_ofList hrow
  unfold Unfolding.presentation at hj
  rw [List.map_map] at hj
  obtain ⟨e, he, hej⟩ := List.mem_map.1 hj
  cases hej
  exact ⟨e, he, hsj, rfl⟩

section Listed

variable (h : A.toMachine.UnfoldsTo u)

include h

/-- The states that are listed are those that words lead to. -/
theorem listed_iff : (∃ e ∈ u.rows, s ≈ e.1) ↔ s ∈ A.reached :=
  (h.states s).trans mem_reached_iff_run.symm

/-- A listed state has its own label and leads to where letters lead. -/
theorem listed_row {e : Symbol × Symbol × List (Symbol × Symbol)} (he : e ∈ u.rows) :
    e.1 ∈ A.reached ∧ (Machine.isTrue e.2.1 = true ↔ e.1 ∈ A.accepting) ∧
      (∀ c ∈ A.alphabet, ∃ f ∈ e.2.2, c ≈ f.1) ∧
      ∀ f ∈ e.2.2, f.1 ∈ A.alphabet ∧ f.2 ≈ A.next e.1 f.1 := by
  have hreach := (listed_iff h).1 ⟨e, he, Setoid.refl _⟩
  obtain ⟨row, hrow, hall, hentries⟩ := h.rows e he
  obtain ⟨row', hrow', hentry⟩ := exists_get?_rows (mem_states_of_mem_reached hreach)
  rw [hrow, Option.some.injEq, Prod.mk.injEq] at hrow'
  obtain ⟨hlabel, rfl⟩ := hrow'
  refine ⟨hreach, ?_, hall, fun f hf => ?_⟩
  · rw [hlabel]
    exact decide_eq_true_iff
  · obtain ⟨hinput, t, ht, hft⟩ := hentries f hf
    have hletter : f.1 ∈ A.alphabet := hinput
    rw [hentry _ hletter, Option.some.injEq] at ht
    exact ⟨hletter, ht ▸ hft⟩

theorem mem_states_listed : s ∈ (u.presentation A.alphabet).description.states ↔ s ∈ A.reached := by
  rw [← listed_iff h]
  exact SymbolSet.mem_ofList_map

theorem mem_accepting_listed : s ∈ (u.presentation A.alphabet).description.accepting ↔
    s ∈ A.reached ∧ s ∈ A.accepting := by
  show s ∈ SymbolSet.ofList (u.presentation A.alphabet).accepting ↔ _
  rw [SymbolSet.mem_ofList]
  unfold Unfolding.presentation
  simp only [List.mem_filterMap, Option.ite_none_right_eq_some, Option.some.injEq]
  constructor
  · intro hs
    obtain ⟨_, ⟨e, he, htrue, rfl⟩, hse⟩ := hs
    obtain ⟨hreach, hlabel, -⟩ := listed_row h he
    rw [SymbolSet.mem_congr hse, SymbolSet.mem_congr hse]
    exact ⟨hreach, hlabel.1 htrue⟩
  · intro hs
    obtain ⟨hreach, hacc⟩ := hs
    obtain ⟨e, he, hse⟩ := (listed_iff h).2 hreach
    obtain ⟨-, hlabel, -⟩ := listed_row h he
    exact ⟨_, ⟨e, he, hlabel.2 ((SymbolSet.mem_congr hse).1 hacc), rfl⟩, hse⟩

/-- In it letters lead to where they lead in the automaton, and nothing else
leads anywhere. -/
theorem get?_listed {e : Symbol × Symbol × List (Symbol × Symbol)} (he : e ∈ u.rows)
    (hse : s ≈ e.1) :
    (∀ c ∈ A.alphabet, ∃ t, (SymbolMap.ofList e.2.2).get? c = some t ∧ A.next s c ≈ t) ∧
      ∀ c t, (SymbolMap.ofList e.2.2).get? c = some t → c ∈ A.alphabet := by
  obtain ⟨-, -, hall, hentries⟩ := listed_row h he
  constructor
  · intro c hc
    obtain ⟨f, hf, hcf, hget⟩ := SymbolMap.exists_get?_ofList (hall c hc)
    refine ⟨f.2, hget, Setoid.trans (next_congr hse hcf) ?_⟩
    exact Setoid.symm (hentries f hf).2
  · intro c t ht
    obtain ⟨d, hd, hcd⟩ := SymbolMap.exists_of_get?_ofList ht
    exact (SymbolSet.mem_congr hcd).2 (hentries _ hd).1

theorem exists_row_listed (hs : s ∈ A.reached) : ∃ row,
    (u.presentation A.alphabet).description.delta.get? s = some row ∧
      ∀ c ∈ A.alphabet, ∃ t, row.get? c = some t ∧ A.next s c ≈ t := by
  obtain ⟨e, he, hse⟩ := (listed_iff h).2 hs
  have hlisted : ∃ r ∈ (u.presentation A.alphabet).delta.map
      (fun row => (row.1, (SymbolMap.ofList row.2 : Row))), s ≈ r.1 :=
    ⟨_, List.mem_map_of_mem (List.mem_map_of_mem he), hse⟩
  -- a state may be listed more than once, and the row found be that of another place
  obtain ⟨r, -, -, hrow⟩ := SymbolMap.exists_get?_ofList hlisted
  obtain ⟨e', he', hse', heq⟩ := exists_of_get?_listed hrow
  exact ⟨r.2, hrow, heq ▸ (get?_listed h he' hse').1⟩

/-- What is listed fits together. -/
theorem exists_build_listed : ∃ B, (u.presentation A.alphabet).build = .ok B ∧
    B.toDescription = (u.presentation A.alphabet).description := by
  have hstart : (u.presentation A.alphabet).description.start ∈
      (u.presentation A.alphabet).description.states := by
    rw [mem_states_listed h]
    exact (SymbolSet.mem_congr h.start).2 reached_closed.1
  refine Description.exists_build hstart (fun s hs => ?_) fun s hs => ?_
  · exact (mem_states_listed h).2 ((mem_accepting_listed h).1 hs).1
  · have hreach := (mem_states_listed h).1 hs
    obtain ⟨row, hrow, hall⟩ := exists_row_listed h hreach
    refine ⟨row, hrow, fun c hc => ?_⟩
    rw [alphabet_presentation] at hc
    obtain ⟨t, ht, hnext⟩ := hall c hc
    refine ⟨t, ht, (mem_states_listed h).2 ((SymbolSet.mem_congr hnext).1 ?_)⟩
    exact reached_closed.2 hreach hc

theorem readBack_of_listed (hB : B.toDescription = (u.presentation A.alphabet).description) :
    B.ReadBack A where
  states := by
    rw [hB]
    exact SymbolSet.alike_iff.2 fun s => mem_states_listed h
  alphabet := by
    rw [hB]
    exact alphabet_presentation
  start := by
    rw [hB]
    exact h.start
  accepting := by
    rw [hB]
    exact fun s => mem_accepting_listed h
  next := by
    intro s c hs hc
    obtain ⟨row, hrow, hall⟩ := exists_row_listed h hs
    obtain ⟨t, ht, hnext⟩ := hall c hc
    rw [← hB] at hrow
    exact (next_eq_of_move? ((get?_row hrow c).symm.trans ht)).symm ▸ hnext
  exact := by
    constructor
    · intro s row hrow
      rw [hB] at hrow ⊢
      obtain ⟨e, he, hse, -⟩ := exists_of_get?_listed hrow
      exact (mem_states_listed h).2 ((listed_iff h).1 ⟨e, he, hse⟩)
    · intro s row c t hrow ht
      rw [hB] at hrow ⊢
      obtain ⟨e, he, hse, rfl⟩ := exists_of_get?_listed hrow
      rw [alphabet_presentation]
      exact (get?_listed h he hse).2 c t ht

end Listed

/-- However the machine of an automaton is written out, it becomes the
automaton read back. -/
theorem exists_toAutomatonBy {unfold : Machine → Except Fault Unfolding}
    (hu : unfold A.toMachine = .ok u) (h : A.toMachine.UnfoldsTo u) :
    ∃ B, A.toMachine.toAutomatonBy unfold = .ok B ∧ B.ReadBack A := by
  obtain ⟨B, hB, hBd⟩ := exists_build_listed h
  have houtputs : A.toMachine.outputs.toList.all Machine.isTruthValue = true :=
    (by decide :
      (SymbolSet.ofList [.bool true, .bool false]).toList.all Machine.isTruthValue = true)
  refine ⟨B, ?_, readBack_of_listed h hBd⟩
  unfold Machine.toAutomatonBy
  rw [if_pos houtputs, hu]
  exact hB

/-- The machine's own search is one way to write it out. -/
theorem exists_toAutomaton_toMachine (A : Automaton) :
    ∃ B, A.toMachine.toAutomaton = .ok B ∧ B.ReadBack A := by
  rw [Machine.toAutomaton_eq]
  exact exists_toAutomatonBy unfold_toMachine A.unfoldsTo_toMachine

/-- Let the machine of an automaton without a null state be written out by
a function that lists exactly the states that its start leads to, with
their labels and rows. The automaton that is read back is the pruned one
without the rows of other symbols than states and the entries for other
symbols than letters: it is on the reachable states and over the same
alphabet, starts, accepts and leads as the automaton does, and accepts
the same words. -/
theorem toAutomaton_toMachine_eq_prune (hnull : ¬Symbol.null ∈ A.states)
    (unfold : Machine → Except Fault Unfolding)
    (hunfold : ∃ u, unfold A.toMachine = .ok u ∧ A.toMachine.UnfoldsTo u) :
    ∃ R Q B, A.reachable = .ok R ∧ A.prune = .ok Q ∧ A.toMachine.toAutomatonBy unfold = .ok B ∧
      B ≈ Q.trim ∧ B.states ≈ R ∧ B.alphabet = A.alphabet ∧ B.start ≈ A.start ∧
      (∀ s, s ∈ B.accepting ↔ s ∈ R ∧ s ∈ A.accepting) ∧
      (∀ s ∈ R, ∀ c ∈ A.alphabet,
        ∃ t v, A.transition s c = .ok t ∧ B.transition s c = .ok v ∧ t ≈ v) ∧
      ∀ w, A.Over w → ∃ b, A.accepts w = .ok b ∧ B.accepts w = .ok b := by
  obtain ⟨u, hu, h⟩ := hunfold
  obtain ⟨B, hB, hback⟩ := exists_toAutomatonBy hu h
  obtain ⟨Q, hQ, hpruned⟩ := exists_prune hnull
  refine ⟨A.reached, Q, B, reachable_eq_ok hnull, hQ, hB, hback.alike_trim hpruned, hback.states,
    hback.alphabet, hback.start, hback.accepting, fun s hs c hc => ?_, fun w hw => ?_⟩
  · have hstate := (SymbolSet.alike_iff.1 hback.states s).2 hs
    have hletter : c ∈ B.alphabet := by rwa [hback.alphabet]
    exact ⟨_, _, transition_eq_ok (mem_states_of_mem_reached hs) hc,
      transition_eq_ok hstate hletter, hback.next hs hc⟩
  · exact ⟨_, accepts_eq_ok hw, hback.simulation.sameLanguage w hw ▸ accepts_eq_ok hw⟩

theorem toAutomaton_toMachine_eq_prune_oddCount :
    ¬Symbol.null ∈ oddCount.states ∧
      (∃ u, oddCount.toMachine.unfold = .ok u ∧ oddCount.toMachine.UnfoldsTo u) ∧
      ∃ R Q B, oddCount.reachable = .ok R ∧ oddCount.prune = .ok Q ∧
        oddCount.toMachine.toAutomatonBy Machine.unfold = .ok B ∧ B ≈ Q.trim ∧ B.states ≈ R ∧
        B.alphabet = oddCount.alphabet ∧ B.start ≈ oddCount.start ∧
        (∀ s, s ∈ B.accepting ↔ s ∈ R ∧ s ∈ oddCount.accepting) ∧
        (∀ s ∈ R, ∀ c ∈ oddCount.alphabet,
          ∃ t v, oddCount.transition s c = .ok t ∧ B.transition s c = .ok v ∧ t ≈ v) ∧
        ∀ w, oddCount.Over w → ∃ b, oddCount.accepts w = .ok b ∧ B.accepts w = .ok b :=
  have hnull : ¬Symbol.null ∈ oddCount.states := by decide
  have hunfold : ∃ u, oddCount.toMachine.unfold = .ok u ∧ oddCount.toMachine.UnfoldsTo u :=
    ⟨oddCount.unfolding, unfold_toMachine, oddCount.unfoldsTo_toMachine⟩
  ⟨hnull, hunfold, toAutomaton_toMachine_eq_prune hnull Machine.unfold hunfold⟩

-- the entry for "c" is kept by pruning and lost on the way
example : (oddCount.prune.map (·.move? (.int 1) (.str "c")),
    oddCount.toMachine.toAutomaton.map (·.move? (.int 1) (.str "c"))) =
      (.ok (some .null), .ok none) := by decide +kernel

end Automaton

end Automata
