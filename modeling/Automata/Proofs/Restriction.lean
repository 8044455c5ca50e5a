/-
Restriction of an automaton to some states: when there is one, what is
told when there is none, and that it runs as the whole does.

Three things are asked of the states, one after the other: they have
rows in the table, which may have rows of symbols that are no states too;
the start is among them; and letters do not lead out of them. Nothing can
be wrong with the accepting states, as only those among the given ones
are kept (`strays_onStates`). Every way to end is one of `Restricts`, and
which it is settles the conditions, so each outcome has its own
(`restrict_outcome`). Rows are taken over whole, so a word cannot leave
the part where it starts, and leads to the same state in both
(`simulation_of_onStates`).
-/
import Automata.Proofs.Construction

namespace Automata.Automaton

variable {A Q : Automaton} {S : SymbolSet} {g : Gap} {s : Symbol} {w : List Symbol}

-- ============================================== the data of the part

/-- The data of the part of the automaton on some states. -/
def onStates (A : Automaton) (S : SymbolSet) : Description where
  states := S
  alphabet := A.alphabet
  start := A.start
  accepting := A.accepting.inter S
  delta := .tabulate S A.delta.get?

theorem get?_onStates (hs : s ∈ S) : (A.onStates S).delta.get? s = A.delta.get? s :=
  SymbolMap.get?_tabulate_of_mem (fun _ _ h => SymbolMap.get?_congr h) hs

theorem move?_onStates (hs : s ∈ S) (c : Symbol) : (A.onStates S).move? s c = A.move? s c := by
  unfold Description.move?
  rw [get?_onStates hs]

/-- Only states of the part are kept as accepting. -/
theorem strays_onStates : (A.onStates S).strays.isEmpty = true :=
  Description.strays_isEmpty_iff.2 fun _ hs => (SymbolSet.mem_inter.1 hs).2

/-- Each of the states has a row in the table. -/
def HasRows (A : Automaton) (S : SymbolSet) : Prop := ∀ s ∈ S, ∃ row, A.delta.get? s = some row

theorem HasRows.not_exists (h : A.HasRows S) : ¬∃ s ∈ S, A.delta.get? s = none := by
  intro hs
  obtain ⟨s, hs, hnone⟩ := hs
  obtain ⟨row, hrow⟩ := h s hs
  rw [hnone] at hrow
  cases hrow

/-- From each of the states every letter leads to one of them. -/
def ClosedOn (A : Automaton) (S : SymbolSet) : Prop :=
  ∀ s ∈ S, ∀ c ∈ A.alphabet, ∃ t ∈ S, A.move? s c = some t

/-- What the gap says is so: one of the states has no entry for a letter,
or one that leads out of them. -/
def LeadsOut (A : Automaton) (S : SymbolSet) : Gap → Prop
  | .noRow _ => False
  | .noEntry s c => s ∈ S ∧ c ∈ A.alphabet ∧ A.move? s c = none
  | .leaves s c => s ∈ S ∧ c ∈ A.alphabet ∧ ∃ t, A.move? s c = some t ∧ ¬t ∈ S

theorem leadsOut_of_mem_gaps (hrows : A.HasRows S) (hg : g ∈ (A.onStates S).gaps) :
    A.LeadsOut S g := by
  have hlacks := Description.lacks_of_mem_gaps hg
  cases g with
  | noRow s =>
      obtain ⟨hs, hnone⟩ := hlacks
      have hs : s ∈ S := hs
      obtain ⟨row, hrow⟩ := hrows s hs
      rw [get?_onStates hs, hrow] at hnone
      cases hnone
  | noEntry s c =>
      obtain ⟨hs, hc, row, hrow, hnone⟩ := hlacks
      have hs : s ∈ S := hs
      rw [get?_onStates hs] at hrow
      rw [get?_row hrow] at hnone
      exact ⟨hs, hc, hnone⟩
  | leaves s c =>
      obtain ⟨hs, hc, t, ht, hout⟩ := hlacks
      have hs : s ∈ S := hs
      rw [move?_onStates hs] at ht
      exact ⟨hs, hc, t, ht, hout⟩

/-- The data of the part have no gap when letters do not lead out of it. -/
theorem gaps_onStates_eq_nil_iff (hrows : A.HasRows S) :
    (A.onStates S).gaps = [] ↔ A.ClosedOn S := by
  have hrows' : ∀ s ∈ (A.onStates S).states, ∃ row, (A.onStates S).delta.get? s = some row := by
    intro s (hs : s ∈ S)
    rw [get?_onStates hs]
    exact hrows s hs
  rw [Description.gaps_eq_nil_iff_move?, and_iff_right hrows']
  refine forall_congr' fun s => forall_congr' fun hs => forall₂_congr fun c _ => ?_
  have hs : s ∈ S := hs
  rw [move?_onStates hs]
  refine exists_congr fun t => ?_
  exact and_comm

-- ============================================================ outcomes

/-- The automaton is the part of another on some states, where words lead
as in the whole. -/
structure RestrictedTo (Q A : Automaton) (S : SymbolSet) : Prop where
  states : Q.states = S
  alphabet : Q.alphabet = A.alphabet
  start : Q.start = A.start
  accepting : Q.accepting = A.accepting.inter S
  rows : ∀ s ∈ S, Q.delta.get? s = A.delta.get? s
  runs : ∀ w, A.Over w → ∃ s b, A.run w = .ok s ∧ Q.run w = .ok s ∧
    A.accepts w = .ok b ∧ Q.accepts w = .ok b

theorem RestrictedTo.move? (h : Q.RestrictedTo A S) (hs : s ∈ S) (c : Symbol) :
    Q.move? s c = A.move? s c := by
  unfold Description.move?
  rw [h.rows s hs]

/-- The whole and a part of it run through the same states. -/
theorem simulation_of_onStates (hQ : Q.toDescription = A.onStates S) :
    Simulation A Q fun s t => s ∈ S ∧ t = s where
  alphabet := by
    rw [hQ]
    exact Setoid.refl A.alphabet
  start := by
    have hmem := Q.start_mem
    rw [hQ] at hmem ⊢
    exact ⟨hmem, rfl⟩
  accepting := by
    intro s t hst
    rw [hst.2, hQ]
    show _ ↔ s ∈ A.accepting.inter S
    rw [SymbolSet.mem_inter, and_iff_left hst.1]
  next := by
    intro s t c hst hc
    have hnext : Q.next s c = A.next s c := by
      unfold next
      rw [hQ, move?_onStates hst.1]
    have hs : s ∈ Q.states := by
      rw [hQ]
      exact hst.1
    have hcQ : c ∈ Q.alphabet := by
      rw [hQ]
      exact hc
    have hmem := next_mem hs hcQ
    rw [hnext, hQ] at hmem
    rw [hst.2, hnext]
    exact ⟨hmem, rfl⟩

theorem restrictedTo_of_onStates (hQ : Q.toDescription = A.onStates S) : Q.RestrictedTo A S where
  states := by rw [hQ]; rfl
  alphabet := by rw [hQ]; rfl
  start := by rw [hQ]; rfl
  accepting := by rw [hQ]; rfl
  rows := by
    intro s hs
    rw [hQ, get?_onStates hs]
  runs := by
    intro w hw
    have hsim := simulation_of_onStates hQ
    have hwQ := (over_congr hsim.alphabet).1 hw
    have hafter : Q.after Q.start w = A.after A.start w := (hsim.after hsim.start hw).2
    refine ⟨_, _, run_eq_ok hw, ?_, accepts_eq_ok hw, ?_⟩
    · rw [run_eq_ok hwQ, hafter]
    · rw [← hsim.sameLanguage w hw, accepts_eq_ok hw]

/-- The four ways in which restriction to some states ends. -/
inductive Restricts (A : Automaton) (S : SymbolSet) : Except Fault Automaton → Prop
  | missing {s : Symbol} (hs : s ∈ S) (hrow : A.delta.get? s = none) :
      Restricts A S (.error (.missing s))
  | startOutside (hrows : A.HasRows S) (hstart : ¬A.start ∈ S) :
      Restricts A S (.error (.startNotState A.start))
  | leadsOut {g : Gap} {gs : List Gap} (hrows : A.HasRows S) (hstart : A.start ∈ S)
      (hopen : ¬A.ClosedOn S) (hgaps : ∀ g' ∈ g :: gs, A.LeadsOut S g') :
      Restricts A S (.error (.notTotal g gs))
  | part {Q : Automaton} (hrows : A.HasRows S) (hstart : A.start ∈ S) (hclosed : A.ClosedOn S)
      (hQ : Q.RestrictedTo A S) : Restricts A S (.ok Q)

/-- Restriction to states that have rows builds the part. -/
theorem restrict_eq_build (hrows : A.HasRows S) : A.restrict S = (A.onStates S).build := by
  have hnone : S.toList.find? (fun s => (A.delta.get? s).isNone) = none := by
    refine List.find?_eq_none.2 fun s hs => ?_
    obtain ⟨row, hrow⟩ := hrows s (SymbolSet.mem_of_mem_toList hs)
    simp [hrow]
  unfold restrict
  rw [hnone]
  rfl

theorem restricts (A : Automaton) (S : SymbolSet) : A.Restricts S (A.restrict S) := by
  cases hfind : S.toList.find? fun s => (A.delta.get? s).isNone with
  | some s =>
      have hrestrict : A.restrict S = .error (.missing s) := by
        unfold restrict
        rw [hfind]
      rw [hrestrict]
      refine .missing (SymbolSet.mem_of_mem_toList (List.mem_of_find?_eq_some hfind)) ?_
      simpa using List.find?_some hfind
  | none =>
      -- the search goes through members as the set writes them
      have hrows : A.HasRows S := by
        intro s hs
        obtain ⟨x, hx, hsx⟩ := hs
        have hsome := List.find?_eq_none.1 hfind x hx
        rw [Bool.not_eq_true, Option.isNone_eq_false_iff, Option.isSome_iff_exists] at hsome
        rwa [SymbolMap.get?_congr hsx]
      rw [restrict_eq_build hrows]
      have hbuilds := (A.onStates S).builds
      generalize (A.onStates S).build = r at hbuilds ⊢
      cases hbuilds with
      | startOutside hstart => exact .startOutside hrows hstart
      | strays _ hstrays => exact absurd strays_onStates hstrays
      | gaps hstart _ hgaps =>
          refine .leadsOut hrows hstart (fun hclosed => ?_) fun g' hg' => ?_
          · rw [(gaps_onStates_eq_nil_iff hrows).2 hclosed] at hgaps
            cases hgaps
          · exact leadsOut_of_mem_gaps hrows (hgaps ▸ hg')
      | @fits Q hQ =>
          have hstart := Q.start_mem
          have hgaps := Q.gaps_eq_nil
          rw [hQ] at hstart hgaps
          exact .part hrows hstart ((gaps_onStates_eq_nil_iff hrows).1 hgaps)
            (restrictedTo_of_onStates hQ)

namespace Restricts

variable {r : Except Fault Automaton} (h : A.Restricts S r)

include h

theorem missing_iff : (∃ s, r = .error (.missing s)) ↔ ∃ s ∈ S, A.delta.get? s = none := by
  constructor
  · intro hr
    obtain ⟨s, rfl⟩ := hr
    cases h with
    | missing hs hrow => exact ⟨s, hs, hrow⟩
  · intro hs
    cases h with
    | missing _ _ => exact ⟨_, rfl⟩
    | startOutside hrows _ => exact absurd hs hrows.not_exists
    | leadsOut hrows _ _ _ => exact absurd hs hrows.not_exists
    | part hrows _ _ _ => exact absurd hs hrows.not_exists

theorem ok_iff : (∃ Q, r = .ok Q) ↔ A.HasRows S ∧ A.start ∈ S ∧ A.ClosedOn S := by
  constructor
  · intro hr
    obtain ⟨Q, rfl⟩ := hr
    cases h with
    | part hrows hstart hclosed _ => exact ⟨hrows, hstart, hclosed⟩
  · intro hpart
    obtain ⟨hrows, hstart, hclosed⟩ := hpart
    cases h with
    | missing hs hrow => exact absurd ⟨_, hs, hrow⟩ hrows.not_exists
    | startOutside _ hout => exact absurd hstart hout
    | leadsOut _ _ hopen _ => exact absurd hclosed hopen
    | part _ _ _ _ => exact ⟨_, rfl⟩

theorem startNotState_iff :
    r = .error (.startNotState A.start) ↔ A.HasRows S ∧ ¬A.start ∈ S := by
  constructor
  · intro hr
    subst hr
    cases h with
    | startOutside hrows hout => exact ⟨hrows, hout⟩
  · intro hlacks
    obtain ⟨hrows, hout⟩ := hlacks
    cases h with
    | missing hs hrow => exact absurd ⟨_, hs, hrow⟩ hrows.not_exists
    | startOutside _ _ => rfl
    | leadsOut _ hstart _ _ => exact absurd hstart hout
    | part _ hstart _ _ => exact absurd hstart hout

theorem notTotal_iff : (∃ g gs, r = .error (.notTotal g gs)) ↔
    A.HasRows S ∧ A.start ∈ S ∧ ¬A.ClosedOn S := by
  constructor
  · intro hr
    obtain ⟨g, gs, rfl⟩ := hr
    cases h with
    | leadsOut hrows hstart hopen _ => exact ⟨hrows, hstart, hopen⟩
  · intro hleads
    obtain ⟨hrows, hstart, hopen⟩ := hleads
    cases h with
    | missing hs hrow => exact absurd ⟨_, hs, hrow⟩ hrows.not_exists
    | startOutside _ hout => exact absurd hstart hout
    | leadsOut _ _ _ _ => exact ⟨_, _, rfl⟩
    | part _ _ hclosed _ => exact absurd hclosed hopen

theorem leadsOut_of_eq {g : Gap} {gs : List Gap} (hr : r = .error (.notTotal g gs)) :
    ∀ g' ∈ g :: gs, A.LeadsOut S g' := by
  subst hr
  cases h with
  | leadsOut _ _ _ hgaps => exact hgaps

theorem restrictedTo_of_eq (hr : r = .ok Q) : Q.RestrictedTo A S := by
  subst hr
  cases h with
  | part _ _ _ hQ => exact hQ

end Restricts

/-- The automaton can be restricted to states that hold the start, have
rows and are closed under the letters. -/
theorem exists_restrict (hrows : A.HasRows S) (hstart : A.start ∈ S) (hclosed : A.ClosedOn S) :
    ∃ Q, A.restrict S = .ok Q ∧ Q.RestrictedTo A S := by
  obtain ⟨Q, hQ⟩ := (A.restricts S).ok_iff.2 ⟨hrows, hstart, hclosed⟩
  exact ⟨Q, hQ, (A.restricts S).restrictedTo_of_eq hQ⟩

/-- Restriction of an automaton to a set fails for want of a row exactly
when a member has none. Otherwise it gives an automaton exactly when the
start lies in the set and every letter leads from every member to one; it
tells that the start is missing exactly when it is, and gaps in the table
exactly when letters lead out, all of them true. The automaton is on the
members of the set and accepts in those that accept in the whole, and all
words over the alphabet lead to the same states and are accepted as
before. -/
theorem restrict_outcome (A : Automaton) (S : SymbolSet) :
    ((∃ s, A.restrict S = .error (.missing s)) ↔ ∃ s ∈ S, A.delta.get? s = none) ∧
      ((∃ Q, A.restrict S = .ok Q) ↔ A.HasRows S ∧ A.start ∈ S ∧ A.ClosedOn S) ∧
      (A.restrict S = .error (.startNotState A.start) ↔ A.HasRows S ∧ ¬A.start ∈ S) ∧
      ((∃ g gs, A.restrict S = .error (.notTotal g gs)) ↔
        A.HasRows S ∧ A.start ∈ S ∧ ¬A.ClosedOn S) ∧
      (∀ g gs, A.restrict S = .error (.notTotal g gs) → ∀ g' ∈ g :: gs, A.LeadsOut S g') ∧
      ∀ Q, A.restrict S = .ok Q → Q.RestrictedTo A S := by
  have h := A.restricts S
  exact ⟨h.missing_iff, h.ok_iff, h.startNotState_iff, h.notTotal_iff,
    fun _ _ hr => h.leadsOut_of_eq hr, fun _ hr => h.restrictedTo_of_eq hr⟩

/-- Tells whether the letters "a" are odd in number. No word leads to the
state 2, which accepts, and the table has a row of a symbol that is no
state and an entry for one that is no letter. -/
def oddCount : Automaton where
  toDescription := Presentation.description
    { states := [.int 0, .int 1, .int 2]
      alphabet := [.str "a", .str "b"]
      start := .int 0
      accepting := [.int 1, .int 2]
      delta :=
        [(.int 0, [(.str "a", .int 1), (.str "b", .int 0)]),
          (.int 1, [(.str "a", .int 0), (.str "b", .int 1), (.str "c", .null)]),
          (.int 2, [(.str "a", .int 0), (.str "b", .int 2)]),
          (.str "spare", [(.str "a", .int 0)])] }
  start_mem := by decide
  strays_isEmpty := by decide
  gaps_eq_nil := by decide

theorem restrict_outcome_oddCount :
    (∃ Q, oddCount.restrict (.ofList [.int 0, .int 1]) = .ok Q ∧
      Q.RestrictedTo oddCount (.ofList [.int 0, .int 1])) ∧
      ∃ g gs, oddCount.restrict (.ofList [.int 0, .str "spare"]) = .error (.notTotal g gs) ∧
        ∀ g' ∈ g :: gs, oddCount.LeadsOut (.ofList [.int 0, .str "spare"]) g' := by
  obtain ⟨-, -, -, -, -, hpart⟩ := restrict_outcome oddCount (.ofList [.int 0, .int 1])
  obtain ⟨-, -, -, -, hgaps, -⟩ := restrict_outcome oddCount (.ofList [.int 0, .str "spare"])
  obtain ⟨Q, hQ⟩ := exists_of_isOk
    (by decide +kernel : (oddCount.restrict (.ofList [.int 0, .int 1])).isOk = true)
  have herror : oddCount.restrict (.ofList [.int 0, .str "spare"]) =
      .error (.notTotal (.leaves (.int 0) (.str "a")) [.noEntry (.str "spare") (.str "b")]) := by
    decide +kernel
  exact ⟨⟨Q, hQ, hpart Q hQ⟩, _, _, herror, hgaps _ _ herror⟩

-- a member without a row is told first, even where the start is missing too
example : oddCount.restrict (.ofList [.int 1, .int 9]) = .error (.missing (.int 9)) := by
  decide +kernel

end Automata.Automaton
