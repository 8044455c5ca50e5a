/-
Collapsing the blocks of a partition through any of their members.

`rebuild` reads transitions and acceptance off the least member of each
block. `collapse` reads them off members that are handed to it, one of
each block, and `rebuild` is the case of the least ones.

# What the choice matters for

Everything read off a member is a function of it. A function that has
one value on each block has the same values on any choice of members
(`Selects.map_eq`). For a stable partition the row of a member is such a
function, so the tables of all choices are one; for a partition that
agrees on acceptance, whether a member accepts is one too, and then the
automata are. For a partition that is not stable nothing is left of
this but that `rebuild` gives an automaton.

# Runs

The state that a word leads to in the automaton on the blocks is the
number of the block that it leads to in the whole
(`QuotientOf.after_number`), by induction on the word; acceptance plays
no part in it.
-/
import Automata.Proofs.Numbered
import Automata.Proofs.Partition.Greatest

namespace Automata

variable {A M : Automaton} {P : Partition} {members : List Symbol}

-- ============================================================= choices

namespace Partition

/-- One member of each block, in the order of the blocks. -/
def Selects (P : Partition) (members : List Symbol) : Prop :=
  List.Forall₂ (fun r b => r ∈ b) members P.blocks

namespace Selects

theorem length_eq (h : P.Selects members) : members.length = P.size := List.Forall₂.length_eq h

/-- The chosen member at a place is a state with that number. -/
theorem of_getElem? (h : P.Selects members) (hP : P.Covers A) {i : Nat} {r : Symbol}
    (hr : members[i]? = some r) : r ∈ A.states ∧ P.number r = i := by
  obtain ⟨hi, rfl⟩ := List.getElem?_eq_some_iff.1 hr
  have hib : i < P.blocks.length := Nat.lt_of_lt_of_eq hi h.length_eq
  have hb : P.blocks[i]? = some P.blocks[i] := List.getElem?_eq_getElem hib
  have hmem : members[i] ∈ P.blocks[i] := (List.forall₂_iff_get.1 h).2 i hi hib
  exact ⟨hP.mem_states_of_mem (List.mem_of_getElem? hb) hmem, hP.number_eq hb hmem⟩

/-- What is the same on all of a block does not depend on the choice. -/
theorem map_eq {β : Type} {f : Symbol → β} (h : P.Selects members)
    (hf : ∀ s t, P.Together s t → f s = f t) : members.map f = P.representatives.map f := by
  have hleast : ∀ b ∈ P.blocks, ∀ r ∈ b, f r = f (b.least?.getD .null) := by
    intro b hb r hr
    obtain ⟨m, hm, hleast⟩ := exists_least (P.areBlocks.nonempty b hb)
    rw [hleast, Option.getD_some]
    exact hf r m ⟨b, hb, hr, SymbolSet.mem_of_mem_toList hm⟩
  obtain ⟨hlength, hmem⟩ := List.forall₂_iff_get.1 h
  rw [representatives_eq, List.map_map]
  refine List.ext_getElem (by rw [List.length_map, List.length_map, hlength]) fun i hi hi' => ?_
  rw [List.length_map] at hi hi'
  rw [List.getElem_map, List.getElem_map]
  exact hleast _ (List.getElem_mem hi') _ (hmem i hi hi')

end Selects

end Partition

open Automata.Partition

namespace Automaton

-- ========================================================== collapsing

/-- The numbers of the accepting ones among listed states. -/
def acceptingPlaces (A : Automaton) (members : List Symbol) : List Symbol :=
  members.zipIdx.filterMap fun (r, i) => if r ∈ A.accepting then some (.ofNat i) else none

/-- The automaton with each block of a partition collapsed into a state,
read off the given members of the blocks. -/
def collapse (A : Automaton) (P : Partition) (members : List Symbol) : Except Fault Automaton := do
  let rows ← members.mapM (A.quotientRow P)
  let start ← P.blockOf A.start
  Presentation.build
    { states := (List.range members.length).map .ofNat
      alphabet := A.letters
      start := .ofNat start
      accepting := A.acceptingPlaces members
      delta := rows.zipIdx.map fun (row, i) => (.ofNat i, row) }

/-- The least members are what blocks are collapsed through. -/
theorem rebuild_eq_collapse : A.rebuild P = A.collapse P P.representatives := by
  unfold rebuild collapse
  rw [P.length_representatives]
  rfl

/-- Only whether each state accepts counts for the numbers. -/
theorem acceptingPlaces_eq : A.acceptingPlaces members =
    (members.map fun r => decide (r ∈ A.accepting)).zipIdx.filterMap fun (accepts, i) =>
      if accepts then some (.ofNat i) else none := by
  unfold acceptingPlaces
  rw [List.zipIdx_map, List.filterMap_map]
  refine List.filterMap_congr fun e _ => ?_
  simp only [Function.comp_apply, Prod.map_fst, Prod.map_snd, id_eq, decide_eq_true_eq]

/-- States that lie together in a stable partition have the same row. -/
theorem numberedRow_congr (hP : P.Covers A) (hstable : P.Stable A) {s t : Symbol}
    (hst : P.Together s t) : A.numberedRow P s = A.numberedRow P t := by
  obtain ⟨hs, ht⟩ := hP.mem_of_together hst
  refine List.map_congr_left fun c hc => ?_
  have hmem := over_letters c hc
  rw [(hP.together_iff (next_mem hs hmem) (next_mem ht hmem)).1 (hstable s t hst c hmem)]

/-- For a stable partition every choice of members gives the presentation
of the least ones, but for which numbers accept. -/
theorem collapse_eq_build (hP : P.Covers A) (hstable : P.Stable A) (h : P.Selects members) :
    A.collapse P members =
      { A.quotient P with accepting := A.acceptingPlaces members }.build := by
  have hrows : members.mapM (A.quotientRow P)
      = .ok (P.representatives.map (A.numberedRow P)) := by
    rw [← h.map_eq fun _ _ => numberedRow_congr hP hstable]
    refine mapM_eq_ok fun r hr => ?_
    obtain ⟨i, hi⟩ := List.mem_iff_getElem?.1 hr
    exact quotientRow_eq_ok hP (h.of_getElem? hP hi).1
  unfold collapse
  rw [hrows, hP.blockOf_eq_ok A.start_mem, h.length_eq]
  rfl

/-- For a stable partition every choice of members gives an automaton
with the states, the alphabet, the start and the table of `rebuild`. -/
theorem exists_collapse (hP : P.Covers A) (hstable : P.Stable A) (h : P.Selects members)
    (hM : A.rebuild P = .ok M) : ∃ N, A.collapse P members = .ok N ∧ N.states = M.states ∧
      N.alphabet = M.alphabet ∧ N.start = M.start ∧ N.delta = M.delta := by
  have hquotient := (of_rebuild hP hM).1
  rw [rebuild_eq_build hP] at hM
  have hdescription : M.toDescription = (A.quotient P).description :=
    Description.build_eq_ok_iff.1 hM
  have hsub : ∀ s ∈ SymbolSet.ofList (A.acceptingPlaces members), s ∈ M.states := by
    intro s hs
    obtain ⟨t, ht, hst⟩ := SymbolSet.mem_ofList.1 hs
    unfold acceptingPlaces at ht
    simp only [List.mem_filterMap, Prod.exists, List.mem_zipIdx_iff_getElem?,
      Option.ite_none_right_eq_some, Option.some.injEq] at ht
    obtain ⟨r, i, hr, -, rfl⟩ := ht
    refine hquotient.mem_states_iff.2 ⟨i, ?_, hst⟩
    exact h.length_eq ▸ (List.getElem?_eq_some_iff.1 hr).1
  refine ⟨{ M.toDescription with
      accepting := .ofList (A.acceptingPlaces members)
      start_mem := M.start_mem
      strays_isEmpty := Description.strays_isEmpty_iff.2 hsub
      gaps_eq_nil := M.gaps_eq_nil }, ?_, rfl, rfl, rfl, rfl⟩
  rw [collapse_eq_build hP hstable h]
  have hstates := congrArg Description.states hdescription
  have halphabet := congrArg Description.alphabet hdescription
  have hstart := congrArg Description.start hdescription
  have hdelta := congrArg Description.delta hdescription
  exact Description.build_eq_ok_iff.2 (Description.ext hstates halphabet hstart rfl hdelta)

/-- For a stable partition whose blocks agree on acceptance every choice
of members gives the same automaton. -/
theorem collapse_eq_rebuild (hP : P.Covers A) (hstable : P.Stable A) (hpure : P.Pure A)
    (h : P.Selects members) : A.collapse P members = A.rebuild P := by
  have haccepting : A.acceptingPlaces members = A.acceptingPlaces P.representatives := by
    rw [acceptingPlaces_eq, acceptingPlaces_eq,
      h.map_eq fun s t hst => decide_eq_decide.2 (hpure s t hst)]
  rw [collapse_eq_build hP hstable h, rebuild_eq_build hP, haccepting]
  rfl

-- ================================================================ runs

namespace QuotientOf

/-- Of a stable partition, a word leads from a block to where it leads
any of its states. -/
theorem after_number (h : M.QuotientOf A P) (hP : P.Covers A) (hstable : P.Stable A) {s : Symbol}
    (hs : s ∈ A.states) {w : List Symbol} (hw : A.Over w) :
    M.after (.ofNat (P.number s)) w = .ofNat (P.number (A.after s w)) := by
  induction w generalizing s with
  | nil => rfl
  | cons c w ih =>
      obtain ⟨hc, hw⟩ := over_cons.1 hw
      rw [after_cons, after_cons, h.next_number hP hstable hs hc]
      exact ih (next_mem hs hc) hw

end QuotientOf

/-- Every partition of the states is collapsed into an automaton on the
numbers of its blocks. If a round leaves the partition as it is, words
lead in that automaton to the number of the block that they lead to in
the whole, and any members of the blocks give the same table as the least
ones. If also its blocks agree on acceptance, the automaton accepts the
same words, and any members of the blocks give the same automaton. -/
theorem rebuild_quotient (hP : P.Covers A) : ∃ M, A.rebuild P = .ok M ∧
    M.states.toList = (List.range P.size).map .ofNat ∧ M.alphabet = A.alphabet ∧
    (P.Fixed A →
      (∀ w, A.Over w → ∃ s i, A.run w = .ok s ∧ P.blockOf s = .ok i ∧ M.run w = .ok (.ofNat i)) ∧
      (∀ members, P.Selects members → ∃ N, A.collapse P members = .ok N ∧ N.states = M.states ∧
        N.alphabet = M.alphabet ∧ N.start = M.start ∧ N.delta = M.delta) ∧
      ((∀ b ∈ P.blocks, (∀ s ∈ b, s ∈ A.accepting) ∨ ∀ s ∈ b, ¬s ∈ A.accepting) →
        (∀ w, A.Over w → M.accepts w = A.accepts w) ∧
        ∀ members, P.Selects members → A.collapse P members = .ok M)) := by
  obtain ⟨M, hM, hquotient⟩ := exists_rebuild hP
  refine ⟨M, hM, ?_, hquotient.alphabet, fun hfixed => ?_⟩
  · rw [(of_rebuild hP hM).2.toList_states, hquotient.size]
  have hstable := hP.fixed_iff_stable.1 hfixed
  refine ⟨fun w hw => ?_, fun members h => ?_, fun hunmixed => ?_⟩
  · have hrun : M.run w = .ok (M.after M.start w) :=
      run_eq_ok ((over_congr (SymbolSet.alike_of_eq hquotient.alphabet)).2 hw)
    rw [hquotient.start, hquotient.after_number hP hstable A.start_mem hw] at hrun
    exact ⟨_, _, run_eq_ok hw, hP.blockOf_eq_ok (after_mem A.start_mem hw), hrun⟩
  · exact exists_collapse hP hstable h hM
  · have hpure := pure_iff.2 hunmixed
    refine ⟨fun w hw => ?_, fun members h => ?_⟩
    · exact ((hquotient.simulation hP hstable hpure).sameLanguage w hw).symm
    · rw [collapse_eq_rebuild hP hstable hpure h, hM]

theorem rebuild_quotient_modFour :
    modFourParts.Covers modFour ∧ modFourParts.Fixed modFour ∧
      modFourParts.Selects [.int 2, .int 3, .int 7] ∧
      ∃ M, modFour.rebuild modFourParts = .ok M ∧
        M.states.toList = [.int 0, .int 1, .int 2] ∧ M.alphabet = modFour.alphabet ∧
        (∀ w, modFour.Over w → ∃ s i, modFour.run w = .ok s ∧ modFourParts.blockOf s = .ok i ∧
          M.run w = .ok (.ofNat i)) ∧
        (∀ w, modFour.Over w → M.accepts w = modFour.accepts w) ∧
        modFour.collapse modFourParts [.int 2, .int 3, .int 7] = .ok M := by
  have hcovers : modFourParts.Covers modFour := by decide +kernel
  have hselects : modFourParts.Selects [.int 2, .int 3, .int 7] :=
    .cons (by decide) (.cons (by decide) (.cons (by decide) .nil))
  have hunmixed := pure_iff.1 (show modFourParts.Pure modFour by decide)
  obtain ⟨M, hM, hstates, halphabet, hspec⟩ := rebuild_quotient hcovers
  obtain ⟨hruns, -, hpure⟩ := hspec fixed_modFourParts
  obtain ⟨haccepts, hcollapse⟩ := hpure hunmixed
  exact ⟨hcovers, fixed_modFourParts, hselects, M, hM, hstates, halphabet, hruns, haccepts,
    hcollapse _ hselects⟩

end Automaton

end Automata
