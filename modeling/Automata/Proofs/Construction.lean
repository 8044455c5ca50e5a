/-
Construction of automata: which data are built, why others are refused,
and what can be relied on once an automaton is built.

Data are asked three things, one after the other: whether the start is a
state, whether the accepting states are states, and whether the table has
gaps. Every way to end is one of `Description.Builds`, so what is told of
refused data follows by cases on it.

A presentation lists the data in any order, repeated at will, and the
table may list far more than states and letters. It `Fits` when the start
and the accepting states are among the states, every state is given a
row, and every state and letter a target among the states. The rows have
to be asked for apart only where there are no letters: with one letter at
least, whatever gives a state a target gives it a row (`fits_iff`).
Without letters nothing leads out of the states, and a state that has no
row is still refused (`rowless`).

What is built runs over its own alphabet for ever, through states only
(`runsOver`), and accounts for every other word (`runAccount`).
-/
import Automata.Proofs.Relisting
import Automata.Proofs.Runs

namespace Automata

-- ======================================================= descriptions

namespace Description

variable {d : Description} {g : Gap} {s c : Symbol} {row : Row}

/-- What the gap says is so. -/
def Lacks (d : Description) : Gap → Prop
  | .noRow s => s ∈ d.states ∧ d.delta.get? s = none
  | .noEntry s c => s ∈ d.states ∧ c ∈ d.alphabet ∧
      ∃ row, d.delta.get? s = some row ∧ row.get? c = none
  | .leaves s c => s ∈ d.states ∧ c ∈ d.alphabet ∧ ∃ t, d.move? s c = some t ∧ ¬t ∈ d.states

/-- A letter leaves a gap in a row that has no entry for it, or one that is
no state. -/
theorem gapAt?_eq_some_iff : d.gapAt? s row c = some g ↔
    row.get? c = none ∧ g = .noEntry s c ∨
      (∃ t, row.get? c = some t ∧ ¬t ∈ d.states) ∧ g = .leaves s c := by
  unfold gapAt?
  cases row.get? c with
  | none => simp [eq_comm]
  | some t => by_cases ht : t ∈ d.states <;> simp [ht, eq_comm]

/-- The gaps of the table are told as they are. -/
theorem lacks_of_mem_gaps (hg : g ∈ d.gaps) : d.Lacks g := by
  obtain ⟨s, hs, hg⟩ := List.mem_flatMap.1 hg
  have hs := SymbolSet.mem_of_mem_toList hs
  unfold gapsAt at hg
  cases hrow : d.delta.get? s with
  | none =>
      rw [hrow] at hg
      obtain rfl := List.mem_singleton.1 hg
      exact ⟨hs, hrow⟩
  | some row =>
      rw [hrow] at hg
      obtain ⟨c, hc, hgap⟩ := List.mem_filterMap.1 hg
      have hc := SymbolSet.mem_of_mem_toList hc
      rcases gapAt?_eq_some_iff.1 hgap with ⟨hnone, rfl⟩ | ⟨⟨t, ht, hout⟩, rfl⟩
      · exact ⟨hs, hc, row, hrow, hnone⟩
      · refine ⟨hs, hc, t, ?_, hout⟩
        rw [move?_of_row hrow, ht]

/-- The table has no gap when every state has a row and every letter leads
from every state to one. -/
theorem gaps_eq_nil_iff_move? : d.gaps = [] ↔
    (∀ s ∈ d.states, ∃ row, d.delta.get? s = some row) ∧
      ∀ s ∈ d.states, ∀ c ∈ d.alphabet, ∃ t, d.move? s c = some t ∧ t ∈ d.states := by
  rw [gaps_eq_nil_iff]
  constructor
  · intro h
    refine ⟨fun s hs => (h s hs).imp fun _ hs => hs.1, fun s hs c hc => ?_⟩
    obtain ⟨row, hrow, hall⟩ := h s hs
    rw [move?_of_row hrow]
    exact hall c hc
  · intro h s hs
    obtain ⟨row, hrow⟩ := h.1 s hs
    refine ⟨row, hrow, fun c hc => ?_⟩
    rw [← move?_of_row hrow]
    exact h.2 s hs c hc

/-- The ways in which data are refused, or built. -/
inductive Builds (d : Description) : Except Fault Automaton → Prop
  | startOutside (hstart : ¬d.start ∈ d.states) : Builds d (.error (.startNotState d.start))
  | strays (hstart : d.start ∈ d.states) (hstrays : ¬d.strays.isEmpty = true) :
      Builds d (.error (.acceptingNotStates d.strays))
  | gaps {g : Gap} {gs : List Gap} (hstart : d.start ∈ d.states)
      (hstrays : d.strays.isEmpty = true) (hgaps : d.gaps = g :: gs) :
      Builds d (.error (.notTotal g gs))
  | fits {A : Automaton} (hA : A.toDescription = d) : Builds d (.ok A)

theorem builds (d : Description) : d.Builds d.build := by
  unfold build
  by_cases hstart : d.start ∈ d.states
  · rw [dif_pos hstart]
    by_cases hstrays : d.strays.isEmpty = true
    · rw [dif_pos hstrays]
      split
      · exact .fits rfl
      · rename_i hgaps
        exact .gaps hstart hstrays hgaps
    · rw [dif_neg hstrays]
      exact .strays hstart hstrays
  · rw [dif_neg hstart]
    exact .startOutside hstart

/-- Data are built just when nothing is wrong with them. -/
theorem exists_build_iff : (∃ A, d.build = .ok A) ↔
    d.start ∈ d.states ∧ d.strays.isEmpty = true ∧ d.gaps = [] := by
  constructor
  · intro h
    obtain ⟨A, hA⟩ := h
    obtain rfl := build_eq_ok_iff.1 hA
    exact ⟨A.start_mem, A.strays_isEmpty, A.gaps_eq_nil⟩
  · intro h
    obtain ⟨hstart, hstrays, hgaps⟩ := h
    exact ⟨⟨d, hstart, hstrays, hgaps⟩, build_eq_ok_iff.2 rfl⟩

end Description

-- ====================================================== presentations

/-- The value that is listed last for a key. -/
def lastListed {β : Type} (k : Symbol) (es : List (Symbol × β)) : Option β :=
  (es.reverse.find? fun e => decide (k ≈ e.1)).map Prod.snd

namespace Presentation

variable {p : Presentation} {s c : Symbol} {g : Gap}

/-- The row that is listed for a symbol. -/
def row? (p : Presentation) (s : Symbol) : Option (List (Symbol × Symbol)) := lastListed s p.delta

/-- The target that is listed for a symbol and a letter. -/
def target? (p : Presentation) (s c : Symbol) : Option Symbol := (p.row? s).bind (lastListed c)

theorem get?_delta (p : Presentation) (s : Symbol) :
    p.description.delta.get? s = (p.row? s).map .ofList := by
  show (SymbolMap.ofList _).get? s = _
  unfold row? lastListed
  rw [SymbolMap.get?_ofList, ← List.map_reverse, List.find?_map, Option.map_map, Option.map_map]
  rfl

theorem move?_description (p : Presentation) (s c : Symbol) :
    p.description.move? s c = p.target? s c := by
  unfold Description.move? target?
  rw [get?_delta]
  cases p.row? s with
  | none => rfl
  | some row => exact SymbolMap.get?_ofList row c

/-- The start and the accepting states are among the states, and so is the
target that is listed for every state and letter. -/
structure FitsByLetter (p : Presentation) : Prop where
  start : p.start.Among p.states
  accepting : ∀ s ∈ p.accepting, s.Among p.states
  targets : ∀ s ∈ p.states, ∀ c ∈ p.alphabet, ∃ t, p.target? s c = some t ∧ t.Among p.states

/-- The same, and a row is listed for every state. -/
structure Fits (p : Presentation) : Prop extends p.FitsByLetter where
  rows : ∀ s ∈ p.states, ∃ row, p.row? s = some row

instance (p : Presentation) : Decidable p.FitsByLetter :=
  decidable_of_iff (p.start.Among p.states ∧ (∀ s ∈ p.accepting, s.Among p.states) ∧
      ∀ s ∈ p.states, ∀ c ∈ p.alphabet, ∃ t ∈ p.target? s c, t.Among p.states)
    ⟨fun ⟨hstart, haccepting, htargets⟩ => ⟨hstart, haccepting, htargets⟩,
      fun h => ⟨h.start, h.accepting, h.targets⟩⟩

instance (p : Presentation) : Decidable p.Fits :=
  decidable_of_iff (p.FitsByLetter ∧ ∀ s ∈ p.states, ∃ row ∈ p.row? s, True)
    ⟨fun ⟨h, hrows⟩ => ⟨h, fun s hs => (hrows s hs).imp fun _ hrow => hrow.1⟩,
      fun h => ⟨h.toFitsByLetter, fun s hs => (h.rows s hs).imp fun _ hrow => ⟨hrow, trivial⟩⟩⟩

/-- Where there are letters, rows need not be asked for. -/
theorem fits_iff (h : p.alphabet ≠ []) : p.Fits ↔ p.FitsByLetter := by
  refine ⟨Fits.toFitsByLetter, fun hfits => ⟨hfits, fun s hs => ?_⟩⟩
  obtain ⟨c, hc⟩ := List.exists_mem_of_ne_nil _ h
  obtain ⟨t, ht, -⟩ := hfits.targets s hs c hc
  obtain ⟨row, hrow, -⟩ := Option.bind_eq_some_iff.1 ht
  exact ⟨row, hrow⟩

/-- What the gap says is so of what is listed. -/
def Lacks (p : Presentation) : Gap → Prop
  | .noRow s => s.Among p.states ∧ p.row? s = none
  | .noEntry s c => s.Among p.states ∧ c.Among p.alphabet ∧
      ∃ row, p.row? s = some row ∧ lastListed c row = none
  | .leaves s c => s.Among p.states ∧ c.Among p.alphabet ∧
      ∃ t, p.target? s c = some t ∧ ¬t.Among p.states

/-- The reasons for which a presentation is refused; each is told only
where those before it do not apply. -/
inductive Refused (p : Presentation) : Fault → Prop
  | startNotState (hstart : ¬p.start.Among p.states) : Refused p (.startNotState p.start)
  | acceptingNotStates {extra : SymbolSet} (hstart : p.start.Among p.states)
      (hextra : ∀ s, s ∈ extra ↔ s.Among p.accepting ∧ ¬s.Among p.states)
      (hsome : ∃ s, s ∈ extra) : Refused p (.acceptingNotStates extra)
  | notTotal {g : Gap} {gs : List Gap} (hstart : p.start.Among p.states)
      (haccepting : ∀ s ∈ p.accepting, s.Among p.states)
      (hgaps : ∀ g' ∈ g :: gs, p.Lacks g') : Refused p (.notTotal g gs)

theorem mem_states_iff : s ∈ p.description.states ↔ s.Among p.states :=
  SymbolSet.mem_ofList_iff_among

theorem mem_alphabet_iff : c ∈ p.description.alphabet ↔ c.Among p.alphabet :=
  SymbolSet.mem_ofList_iff_among

theorem strays_isEmpty_iff :
    p.description.strays.isEmpty = true ↔ ∀ s ∈ p.accepting, s.Among p.states := by
  rw [Description.strays_isEmpty_iff]
  simp only [mem_states_iff]
  exact SymbolSet.forall_mem_ofList_iff Symbol.among_congr

theorem gaps_eq_nil_iff : p.description.gaps = [] ↔
    (∀ s ∈ p.states, ∃ row, p.row? s = some row) ∧
      ∀ s ∈ p.states, ∀ c ∈ p.alphabet, ∃ t, p.target? s c = some t ∧ t.Among p.states := by
  rw [Description.gaps_eq_nil_iff_move?]
  refine and_congr ?_ ?_
  · refine (SymbolSet.forall_mem_ofList_iff fun {x y} hxy => ?_).trans ?_
    · rw [SymbolMap.get?_congr hxy]
    · simp only [get?_delta, ← Option.isSome_iff_exists, Option.isSome_map]
  · refine (SymbolSet.forall_mem_ofList_iff fun {x y} hxy => ?_).trans ?_
    · simp only [Description.move?_congr _ hxy (Setoid.refl _)]
    · refine forall₂_congr fun s _ => ?_
      refine (SymbolSet.forall_mem_ofList_iff fun {x y} hxy => ?_).trans ?_
      · rw [Description.move?_congr _ (Setoid.refl s) hxy]
      · simp only [move?_description, mem_states_iff]

theorem lacks_description_iff : p.description.Lacks g ↔ p.Lacks g := by
  cases g with
  | noRow s =>
      show _ ∧ _ ↔ _ ∧ _
      rw [mem_states_iff, get?_delta, Option.map_eq_none_iff]
  | noEntry s c =>
      show _ ∧ _ ∧ _ ↔ _ ∧ _ ∧ _
      rw [mem_states_iff, mem_alphabet_iff, get?_delta]
      simp only [Option.map_eq_some_iff, exists_exists_and_eq_and, SymbolMap.get?_ofList]
      rfl
  | leaves s c =>
      show _ ∧ _ ∧ _ ↔ _ ∧ _ ∧ _
      simp only [mem_states_iff, mem_alphabet_iff, move?_description]

-- ============================================================ outcomes

/-- A presentation is built when it fits. -/
theorem exists_build_iff_fits : (∃ A, p.build = .ok A) ↔ p.Fits := by
  rw [show p.build = p.description.build from rfl, Description.exists_build_iff, mem_states_iff,
    strays_isEmpty_iff, gaps_eq_nil_iff]
  constructor
  · intro h
    obtain ⟨hstart, haccepting, hrows, htargets⟩ := h
    exact ⟨⟨hstart, haccepting, htargets⟩, hrows⟩
  · intro h
    exact ⟨h.start, h.accepting, h.rows, h.targets⟩

/-- A presentation that is not built is refused for a reason. -/
theorem refused_of_build_eq_error {f : Fault} (h : p.build = .error f) : p.Refused f := by
  have hbuilds := p.description.builds
  rw [show p.description.build = .error f from h] at hbuilds
  cases hbuilds with
  | startOutside hstart => exact .startNotState fun hs => hstart (mem_states_iff.2 hs)
  | strays hstart hstrays =>
      refine .acceptingNotStates (mem_states_iff.1 hstart) (fun s => ?_) ?_
      · rw [Description.strays, SymbolSet.mem_sdiff, mem_states_iff]
        exact and_congr_left fun _ => SymbolSet.mem_ofList_iff_among
      · rw [SymbolSet.isEmpty_iff] at hstrays
        exact not_forall_not.1 hstrays
  | gaps hstart hstrays hgaps =>
      refine .notTotal (mem_states_iff.1 hstart) (strays_isEmpty_iff.1 hstrays) fun g' hg' => ?_
      exact lacks_description_iff.1 (Description.lacks_of_mem_gaps (hgaps ▸ hg'))

/-- A presentation is built just when it fits, for which rows need not be
asked for where there are letters; any other is refused for a reason that
is told truly. Once it is built, words over the alphabet lead to states,
one after the other, and any word follows the table to the end or stops
at the first letter that does not lead on. -/
theorem build_exact (p : Presentation) :
    ((∃ A, p.build = .ok A) ↔ p.Fits) ∧
      (p.alphabet ≠ [] → (p.Fits ↔ p.FitsByLetter)) ∧
      (¬p.Fits → ∃ f, p.build = .error f ∧ p.Refused f) ∧
      ∀ A, p.build = .ok A →
        A.toDescription = p.description ∧ A.RunsOver ∧ ∀ w, A.RunAccount w := by
  refine ⟨exists_build_iff_fits, fits_iff, fun hunfit => ?_, fun A hA => ?_⟩
  · cases hbuild : p.build with
    | error f => exact ⟨f, rfl, refused_of_build_eq_error hbuild⟩
    | ok A => exact absurd (exists_build_iff_fits.1 ⟨A, hbuild⟩) hunfit
  · exact ⟨Description.build_eq_ok_iff.1 hA, A.runsOver, A.runAccount⟩

/-- The letter "a" leads back and forth between 0 and 1. From 1 another
symbol leads out of the states, to a symbol that has a row of its own. -/
def detour : Presentation where
  states := [.int 0, .int 1]
  alphabet := [.str "a"]
  start := .int 0
  accepting := [.int 1]
  delta :=
    [(.int 0, [(.str "a", .int 1)]),
      (.int 1, [(.str "a", .int 0), (.str "c", .str "spare")]),
      (.str "spare", [(.str "a", .int 0), (.str "d", .null)])]

/-- One state without a row, and no letters. -/
def rowless : Presentation where
  states := [.int 0]
  alphabet := []
  start := .int 0
  accepting := []
  delta := []

theorem build_exact_detour :
    detour.Fits ∧ detour.FitsByLetter ∧ (∃ A, detour.build = .ok A ∧ A.RunsOver ∧
        (¬∃ n key, A.StopsAt A.start [.str "a", .str "c", .str "a", .str "a"] n key) ∧
        ∃ n, A.StopsAt A.start [.str "a", .str "c", .str "d", .str "a"] n .null) ∧
      ¬rowless.Fits ∧ ∃ f, rowless.build = .error f ∧ rowless.Refused f := by
  obtain ⟨hbuilt, hletters, -, hruns⟩ := build_exact detour
  obtain ⟨-, -, hrefused, -⟩ := build_exact rowless
  have hfits : detour.Fits := by decide +kernel
  have hunfit : ¬rowless.Fits := by decide +kernel
  obtain ⟨A, hA⟩ := hbuilt.2 hfits
  obtain ⟨-, hover, haccount⟩ := hruns A hA
  have hends : detour.build.toOption.map (fun A =>
      (A.run [.str "a", .str "c", .str "a", .str "a"],
        A.run [.str "a", .str "c", .str "d", .str "a"])) =
      some (.ok (.int 1), .error (.missing .null)) := by decide +kernel
  rw [hA] at hends
  obtain ⟨hok, herror⟩ := Prod.mk.inj (Option.some.inj hends)
  obtain ⟨n, key, hstop, hkey⟩ := ((haccount _).error_iff _).1 herror
  cases hkey
  exact ⟨hfits, (hletters (by decide)).1 hfits,
    ⟨A, hA, hover, (haccount _).ok_iff.1 ⟨_, hok⟩, n, hstop⟩, hunfit, hrefused hunfit⟩

/-- It is not enough that every letter leads from every state to one:
where there are no letters, a state that has no row is refused. -/
theorem not_build_iff_rowless : ¬((∃ A, rowless.build = .ok A) ↔ rowless.FitsByLetter) := by
  intro h
  obtain ⟨A, hA⟩ := h.2 (by decide)
  have herror : rowless.build = .error (.notTotal (.noRow (.int 0)) []) := by decide +kernel
  rw [herror] at hA
  cases hA

end Presentation

end Automata
