/-
The automaton that a listing describes.

`ListedBy` says of an automaton that it is what a listing names: its
states are the numbers below the count, and its table holds the listed
transitions and nothing else. The parts of such a listing fit together
and no transition is missing (`ListedBy.coherent`, `ListedBy.complete`),
and two automata that are listed by one listing are alike
(`ListedBy.alike`). Conversely a listing that fits together with no
transition missing gives an automaton that it lists
(`exists_toAutomaton`), if its states can be counted out; where a
transition is missing the fault names one that is
(`exists_missing`).
-/
import Automata.Proofs.Listing.Format
import Automata.Proofs.Tables

namespace Automata

/-- The automaton is the one that a listing names. -/
structure Automaton.ListedBy (A : Automaton) (l : Listing) : Prop where
  mem_states_iff : ∀ s, s ∈ A.states ↔ ∃ i < l.count, s ≈ .ofNat i
  mem_alphabet_iff : ∀ c, c ∈ A.alphabet ↔ ∃ x ∈ l.letters, c = .str (.singleton x)
  start : A.start ≈ .ofNat l.start
  mem_accepting_iff : ∀ s, s ∈ A.accepting ↔ ∃ i ∈ l.accepting, s ≈ .ofNat i
  exact : A.Exact
  mem_arcs_iff : ∀ a, a ∈ l.arcs ↔
    ∃ t, A.transition (.ofNat a.source) (.str (.singleton a.letter)) = .ok t ∧ t ≈ .ofNat a.target

variable {A B : Automaton} {l k : Listing} {letters : List Char} {arcs : List Arc}
  {room i m n : Nat} {c : Char} {s t : Symbol} {row : Row}

namespace Automaton.ListedBy

-- ================================================ what it is listed by

theorem ofNat_mem (h : A.ListedBy l) (hi : i < l.count) : .ofNat i ∈ A.states :=
  (h.mem_states_iff _).2 ⟨i, hi, Setoid.refl _⟩

theorem lt_of_mem (h : A.ListedBy l) (hs : s ∈ A.states) (hsi : s ≈ .ofNat i) : i < l.count := by
  obtain ⟨j, hj, hsj⟩ := (h.mem_states_iff s).1 hs
  rwa [Symbol.ofNat_alike_iff.1 (Setoid.trans (Setoid.symm hsi) hsj)]

theorem letter_mem (h : A.ListedBy l) (hc : c ∈ l.letters) : .str (.singleton c) ∈ A.alphabet :=
  (h.mem_alphabet_iff _).2 ⟨c, hc, rfl⟩

theorem mem_letters (h : A.ListedBy l) (hc : .str (.singleton c) ∈ A.alphabet) : c ∈ l.letters := by
  obtain ⟨d, hd, hcd⟩ := (h.mem_alphabet_iff _).1 hc
  rwa [String.singleton_inj.1 (Symbol.str.inj hcd)]

/-- The parts of a listing of an automaton fit together. -/
theorem coherent (h : A.ListedBy l) : l.Coherent where
  count_pos := by
    obtain ⟨i, hi, -⟩ := (h.mem_states_iff _).1 A.start_mem
    omega
  start_lt := h.lt_of_mem A.start_mem h.start
  accepting_lt := by
    intro i hi
    have hacc := (h.mem_accepting_iff (.ofNat i)).2 ⟨i, hi, Setoid.refl _⟩
    exact h.lt_of_mem (A.accepting_subset hacc) (Setoid.refl _)
  within := by
    intro a ha
    obtain ⟨t, ht, hta⟩ := (h.mem_arcs_iff a).1 ha
    have hmove := transition_eq_ok_iff.1 ht
    obtain ⟨row, hrow, hentry⟩ := Option.bind_eq_some_iff.1 hmove
    have hsource := h.exact.mem_states hrow
    have hletter := h.exact.mem_alphabet hrow hentry
    have htarget := A.mem_states_of_move? hsource hletter hmove
    exact ⟨h.lt_of_mem hsource (Setoid.refl _), h.mem_letters hletter, h.lt_of_mem htarget hta⟩
  consistent := by
    intro a ha b hb hsource hletter
    obtain ⟨t, ht, hta⟩ := (h.mem_arcs_iff a).1 ha
    obtain ⟨u, hu, hub⟩ := (h.mem_arcs_iff b).1 hb
    rw [hsource, hletter, hu, Except.ok.injEq] at ht
    subst ht
    exact Symbol.ofNat_alike_iff.1 (Setoid.trans (Setoid.symm hta) hub)

/-- A listing of an automaton misses no transition. -/
theorem complete (h : A.ListedBy l) : l.Complete := by
  intro i hi c hc
  have hs := h.ofNat_mem hi
  have hletter := h.letter_mem hc
  obtain ⟨j, -, hj⟩ := (h.mem_states_iff _).1 (next_mem hs hletter)
  exact ⟨⟨i, c, j⟩, (h.mem_arcs_iff _).2 ⟨_, transition_eq_ok hs hletter, hj⟩, rfl, rfl⟩

theorem congr (h : A.ListedBy l) (hlk : l.Same k) : A.ListedBy k where
  mem_states_iff := by
    rw [← hlk.count]
    exact h.mem_states_iff
  mem_alphabet_iff := by
    rw [← hlk.letters]
    exact h.mem_alphabet_iff
  start := by
    rw [← hlk.start]
    exact h.start
  mem_accepting_iff := by
    rw [← hlk.accepting]
    exact h.mem_accepting_iff
  exact := h.exact
  mem_arcs_iff := by
    intro a
    rw [← hlk.mem_arcs_iff]
    exact h.mem_arcs_iff a

/-- A listing lists one automaton only. -/
theorem alike (hA : A.ListedBy l) (hB : B.ListedBy l) : A ≈ B := by
  have hstates : A.states ≈ B.states := SymbolSet.alike_iff.2 fun s => by
    rw [hA.mem_states_iff, hB.mem_states_iff]
  have halphabet : A.alphabet ≈ B.alphabet := SymbolSet.alike_iff.2 fun c => by
    rw [hA.mem_alphabet_iff, hB.mem_alphabet_iff]
  have haccepting : A.accepting ≈ B.accepting := SymbolSet.alike_iff.2 fun s => by
    rw [hA.mem_accepting_iff, hB.mem_accepting_iff]
  refine hA.exact.alike hB.exact hstates halphabet
    (Setoid.trans hA.start (Setoid.symm hB.start)) haccepting fun s hs c hc => ?_
  obtain ⟨i, hi, hsi⟩ := (hA.mem_states_iff s).1 hs
  obtain ⟨x, hx, rfl⟩ := (hA.mem_alphabet_iff c).1 hc
  obtain ⟨j, -, hj⟩ := (hA.mem_states_iff _).1 (next_mem hs hc)
  -- the step of the first is listed, and so it is the step of the second
  have hA' : A.next (.ofNat i) (.str (.singleton x)) ≈ .ofNat j :=
    Setoid.trans (next_congr (Setoid.symm hsi) (Setoid.refl _)) hj
  obtain ⟨t, ht, htj⟩ := (hB.mem_arcs_iff ⟨i, x, j⟩).1
    ((hA.mem_arcs_iff ⟨i, x, j⟩).2 ⟨_, transition_eq_ok (hA.ofNat_mem hi) hc, hA'⟩)
  have hB' : B.next (.ofNat i) (.str (.singleton x)) ≈ .ofNat j := by
    rw [next_eq_of_move? (transition_eq_ok_iff.1 ht)]
    exact htj
  have hback : B.next (.ofNat i) (.str (.singleton x)) ≈ B.next s (.str (.singleton x)) :=
    next_congr (Setoid.symm hsi) (Setoid.refl _)
  exact Setoid.trans hj (Setoid.trans (Setoid.symm hB') hback)

end Automaton.ListedBy

namespace Listing

-- ======================================================== missing ones

theorem targetOf?_isNone_iff :
    (targetOf? arcs m c).isNone = true ↔ ¬∃ a ∈ arcs, a.source = m ∧ a.letter = c := by
  rw [Option.isNone_iff_eq_none, targetOf?_eq_none_iff]
  simp only [not_exists, not_and, ne_eq]

/-- The first element with a property stands no later than another one. -/
theorem idxOf_le_of_find?_eq_some {p : Char → Bool} {d : Char} (h : letters.find? p = some c)
    (hp : p d = true) : letters.idxOf c ≤ letters.idxOf d := by
  obtain ⟨hc, before, after, rfl, hbefore⟩ := List.find?_eq_some_iff_append.1 h
  have hnot : ∀ x, p x = true → x ∉ before := by
    intro x hx hmem
    exact absurd hx (by simpa using hbefore x hmem)
  rw [List.idxOf_append_of_notMem (hnot c hc), List.idxOf_append_of_notMem (hnot d hp),
    List.idxOf_cons_self]
  exact Nat.add_le_add_left (Nat.zero_le _) _

/-- No transition is missing when the states from one on, of so many, have
one for every letter. -/
theorem missingFrom_eq_none_iff : missingFrom letters arcs n m = none ↔
    ∀ i, m ≤ i → i < m + n → ∀ c ∈ letters, ∃ a ∈ arcs, a.source = i ∧ a.letter = c := by
  induction n generalizing m with
  | zero =>
      refine iff_of_true rfl fun i hm hi => ?_
      omega
  | succ n ih =>
      unfold missingFrom
      cases hfind : letters.find? fun c => (targetOf? arcs m c).isNone with
      | some c =>
          refine iff_of_false (fun h => nomatch h) fun h => ?_
          have hnone : (targetOf? arcs m c).isNone = true := by simpa using List.find?_some hfind
          refine targetOf?_isNone_iff.1 hnone ?_
          exact h m (Nat.le_refl m) (by omega) c (List.mem_of_find?_eq_some hfind)
      | none =>
          have hhere : ∀ c ∈ letters, ∃ a ∈ arcs, a.source = m ∧ a.letter = c := by
            intro c hc
            have hnone := List.find?_eq_none.1 hfind c hc
            rwa [targetOf?_isNone_iff, Classical.not_not] at hnone
          rw [ih]
          constructor
          · intro h i hm hi
            rcases Nat.eq_or_lt_of_le hm with rfl | hlt
            · exact hhere
            · exact h i hlt (by omega)
          · intro h i hm hi
            exact h i (by omega) (by omega)

theorem of_missingFrom_eq_some (h : missingFrom letters arcs n m = some (i, c)) :
    m ≤ i ∧ i < m + n ∧ c ∈ letters ∧ ¬∃ a ∈ arcs, a.source = i ∧ a.letter = c := by
  induction n generalizing m with
  | zero => cases h
  | succ n ih =>
      unfold missingFrom at h
      cases hfind : letters.find? fun c => (targetOf? arcs m c).isNone with
      | some d =>
          rw [hfind] at h
          cases h
          have hnone : (targetOf? arcs i c).isNone = true := by simpa using List.find?_some hfind
          exact ⟨Nat.le_refl i, by omega, List.mem_of_find?_eq_some hfind,
            targetOf?_isNone_iff.1 hnone⟩
      | none =>
          rw [hfind] at h
          obtain ⟨hle, hlt, hmissing⟩ := ih h
          exact ⟨by omega, by omega, hmissing⟩

/-- No transition is missing for a state before, nor for a letter before
it with the same state. -/
theorem least_of_missingFrom_eq_some {d : Char} {j : Nat}
    (h : missingFrom letters arcs n m = some (i, c)) (hj : m ≤ j) (hd : d ∈ letters)
    (hnone : ¬∃ a ∈ arcs, a.source = j ∧ a.letter = d) :
    i < j ∨ i = j ∧ letters.idxOf c ≤ letters.idxOf d := by
  rw [← targetOf?_isNone_iff] at hnone
  induction n generalizing m with
  | zero => cases h
  | succ n ih =>
      unfold missingFrom at h
      cases hfind : letters.find? fun c => (targetOf? arcs m c).isNone with
      | some e =>
          rw [hfind] at h
          cases h
          refine (Nat.eq_or_lt_of_le hj).symm.imp_right fun hij => ⟨hij, ?_⟩
          subst hij
          exact idxOf_le_of_find?_eq_some hfind hnone
      | none =>
          rw [hfind] at h
          rcases Nat.eq_or_lt_of_le hj with rfl | hlt
          · exact absurd hnone (List.find?_eq_none.1 hfind d hd)
          · exact ih h hlt

/-- Which transitions are missing depends on which are given only. -/
theorem missingFrom_congr {found : List Arc} (h : ∀ a, a ∈ arcs ↔ a ∈ found) :
    missingFrom letters arcs n m = missingFrom letters found n m := by
  have hnone : ∀ i c, (targetOf? arcs i c).isNone = (targetOf? found i c).isNone := by
    intro i c
    rw [Bool.eq_iff_iff, targetOf?_isNone_iff, targetOf?_isNone_iff]
    simp only [h]
  induction n generalizing m with
  | zero => rfl
  | succ n ih =>
      unfold missingFrom
      simp only [hnone, ih]

theorem complete_iff : l.Complete ↔ missingFrom l.letters l.arcs l.count 0 = none := by
  rw [missingFrom_eq_none_iff]
  simp only [Nat.zero_le, Nat.zero_add, forall_const]
  rfl

-- ========================================================== the table

/-- The row of a state in the table of a listing. -/
def rowOf (l : Listing) (i : Nat) : Row :=
  .ofList (l.arcs.filterMap fun a =>
    if a.source = i then some (.str (.singleton a.letter), .ofNat a.target) else none)

/-- An entry of a row is listed. -/
theorem exists_of_get?_rowOf (h : (l.rowOf i).get? s = some t) :
    ∃ a ∈ l.arcs, a.source = i ∧ s = .str (.singleton a.letter) ∧ t = .ofNat a.target := by
  obtain ⟨j, hj, hsj⟩ := SymbolMap.exists_of_get?_ofList h
  obtain ⟨a, ha, hentry⟩ := List.mem_filterMap.1 hj
  split at hentry
  · rename_i hsource
    cases hentry
    exact ⟨a, ha, hsource, Symbol.alike_str_iff.1 hsj, rfl⟩
  · cases hentry

/-- What consistent transitions list stands in the rows. -/
theorem get?_rowOf (h : Consistent l.arcs) (ha : ⟨m, c, n⟩ ∈ l.arcs) :
    (l.rowOf m).get? (.str (.singleton c)) = some (.ofNat n) := by
  refine SymbolMap.get?_ofList_of_mem (j := .str (.singleton c)) ?_ (Setoid.refl _)
    fun e he halike => ?_
  · exact List.mem_filterMap.2 ⟨_, ha, if_pos rfl⟩
  · obtain ⟨b, hb, hentry⟩ := List.mem_filterMap.1 he
    split at hentry
    · rename_i hsource
      cases hentry
      have hletter := Symbol.str.inj (Symbol.alike_str_iff.1 halike)
      rw [← h _ ha b hb hsource.symm (String.singleton_inj.1 hletter)]
    · cases hentry

theorem mem_states_presentation :
    s ∈ l.presentation.description.states ↔ ∃ i < l.count, s ≈ .ofNat i := by
  show s ∈ SymbolSet.ofList ((List.range l.count).map .ofNat) ↔ _
  rw [SymbolSet.mem_ofList_map]
  simp only [List.mem_range]

theorem mem_alphabet_presentation :
    s ∈ l.presentation.description.alphabet ↔ ∃ x ∈ l.letters, s = .str (.singleton x) := by
  show s ∈ SymbolSet.ofList (l.letters.map fun c => .str (.singleton c)) ↔ _
  rw [SymbolSet.mem_ofList_map]
  simp only [Symbol.alike_str_iff]

theorem mem_accepting_presentation :
    s ∈ l.presentation.description.accepting ↔ ∃ i ∈ l.accepting, s ≈ .ofNat i :=
  SymbolSet.mem_ofList_map

/-- The rows of the table are those of the states. -/
theorem exists_of_get?_delta (h : l.presentation.description.delta.get? s = some row) :
    ∃ i < l.count, s ≈ .ofNat i ∧ row = l.rowOf i := by
  obtain ⟨j, hj, hsj⟩ := SymbolMap.exists_of_get?_ofList h
  unfold presentation at hj
  simp only [List.map_map, List.mem_map, List.mem_range, Function.comp, Prod.mk.injEq] at hj
  obtain ⟨i, hi, rfl, rfl⟩ := hj
  exact ⟨i, hi, hsj, rfl⟩

theorem get?_delta_presentation (hi : i < l.count) :
    l.presentation.description.delta.get? (.ofNat i) = some (l.rowOf i) := by
  have hlisted : ∀ e : Symbol × Row,
      e ∈ l.presentation.delta.map (fun row => (row.1, SymbolMap.ofList row.2)) ↔
        ∃ j < l.count, e = (.ofNat j, l.rowOf j) := by
    intro e
    unfold presentation
    simp only [List.map_map, List.mem_map, List.mem_range, Function.comp]
    exact exists_congr fun j => and_congr_right fun _ => eq_comm
  refine SymbolMap.get?_ofList_of_mem (j := .ofNat i) ?_ (Setoid.refl _) fun e he halike => ?_
  · exact (hlisted _).2 ⟨i, hi, rfl⟩
  · obtain ⟨j, -, rfl⟩ := (hlisted e).1 he
    rw [Symbol.ofNat_alike_iff.1 halike]

/-- The table leads where the transitions say. -/
theorem move?_presentation_iff (h : l.Coherent) :
    l.presentation.description.move? (.ofNat m) (.str (.singleton c)) = some t ↔
      ∃ n, ⟨m, c, n⟩ ∈ l.arcs ∧ t = .ofNat n := by
  unfold Description.move?
  rw [Option.bind_eq_some_iff]
  constructor
  · intro hmove
    obtain ⟨row, hrow, hentry⟩ := hmove
    obtain ⟨i, -, hi, rfl⟩ := exists_of_get?_delta hrow
    obtain ⟨⟨j, d, n⟩, ha, rfl, hletter, rfl⟩ := exists_of_get?_rowOf hentry
    cases Symbol.ofNat_alike_iff.1 hi
    cases String.singleton_inj.1 (Symbol.str.inj hletter)
    exact ⟨n, ha, rfl⟩
  · intro h'
    obtain ⟨n, ha, rfl⟩ := h'
    exact ⟨_, get?_delta_presentation (h.within _ ha).source_lt, get?_rowOf h.consistent ha⟩

-- ====================================================== the automaton

/-- The automaton with the data of a listing is listed by it. -/
theorem listedBy_of_toDescription_eq (h : l.Coherent)
    (hA : A.toDescription = l.presentation.description) : A.ListedBy l := by
  have hexact : A.Exact := by
    constructor
    · intro s row hrow
      rw [hA] at hrow ⊢
      obtain ⟨i, hi, hsi, -⟩ := exists_of_get?_delta hrow
      exact mem_states_presentation.2 ⟨i, hi, hsi⟩
    · intro s row c t hrow ht
      rw [hA] at hrow ⊢
      obtain ⟨i, -, -, rfl⟩ := exists_of_get?_delta hrow
      obtain ⟨a, ha, -, rfl, -⟩ := exists_of_get?_rowOf ht
      exact mem_alphabet_presentation.2 ⟨_, (h.within a ha).letter_mem, rfl⟩
  refine ⟨fun s => ?_, fun c => ?_, ?_, fun s => ?_, hexact, fun a => ?_⟩
  · rw [hA]
    exact mem_states_presentation
  · rw [hA]
    exact mem_alphabet_presentation
  · rw [hA]
    exact Setoid.refl _
  · rw [hA]
    exact mem_accepting_presentation
  · simp only [Automaton.transition_eq_ok_iff]
    rw [hA]
    constructor
    · intro ha
      exact ⟨_, (move?_presentation_iff h).2 ⟨_, ha, rfl⟩, Setoid.refl _⟩
    · intro hmove
      obtain ⟨t, ht, hta⟩ := hmove
      obtain ⟨n, ha, rfl⟩ := (move?_presentation_iff h).1 ht
      rwa [Symbol.ofNat_alike_iff.1 hta] at ha

/-- A listing that fits together and misses no transition is built. -/
theorem exists_build (h : l.Coherent) (hc : l.Complete) :
    ∃ A, l.presentation.build = .ok A ∧ A.ListedBy l := by
  have hstart : l.presentation.description.start ∈ l.presentation.description.states :=
    mem_states_presentation.2 ⟨l.start, h.start_lt, Setoid.refl _⟩
  have haccepting : ∀ s ∈ l.presentation.description.accepting,
      s ∈ l.presentation.description.states := by
    intro s hs
    obtain ⟨i, hi, hsi⟩ := mem_accepting_presentation.1 hs
    exact mem_states_presentation.2 ⟨i, h.accepting_lt i hi, hsi⟩
  obtain ⟨A, hA, hd⟩ := Description.exists_build hstart haccepting fun s hs => by
    obtain ⟨i, hi, hsi⟩ := mem_states_presentation.1 hs
    refine ⟨_, (SymbolMap.get?_congr hsi).trans (get?_delta_presentation hi), fun c hletter => ?_⟩
    obtain ⟨x, hx, rfl⟩ := mem_alphabet_presentation.1 hletter
    obtain ⟨a, ha, rfl, rfl⟩ := hc i hi x hx
    refine ⟨_, get?_rowOf h.consistent ha, ?_⟩
    exact mem_states_presentation.2 ⟨_, (h.within a ha).target_lt, Setoid.refl _⟩
  exact ⟨A, hA, listedBy_of_toDescription_eq h hd⟩

/-- So many states can be counted out: a machine word holds the number,
and memory has room for them. -/
structure Fits (room count : Nat) : Prop where
  lt_wordLimit : count < wordLimit
  le_room : count ≤ room

instance (room count : Nat) : Decidable (Fits room count) :=
  decidable_of_iff (count < wordLimit ∧ count ≤ room)
    ⟨fun h => ⟨h.1, h.2⟩, fun h => ⟨h.lt_wordLimit, h.le_room⟩⟩

/-- If the states can be counted out, the automaton is built where no
transition is missing. -/
theorem toAutomaton_eq_of_fits (h : Fits room l.count) : l.toAutomaton room =
    match missingFrom l.letters l.arcs l.count 0 with
    | some (s, c) => .error (.format ⟨.noTransition s c, none⟩)
    | none => l.presentation.build.mapError .invalid := by
  unfold toAutomaton
  exact (if_neg (Nat.not_le.2 h.lt_wordLimit)).trans (if_neg (Nat.not_lt.2 h.le_room))

theorem exists_toAutomaton (h : l.Coherent) (hc : l.Complete) (hfits : Fits room l.count) :
    ∃ A, l.toAutomaton room = .ok A ∧ A.ListedBy l := by
  obtain ⟨A, hA, hlisted⟩ := exists_build h hc
  refine ⟨A, ?_, hlisted⟩
  rw [toAutomaton_eq_of_fits hfits, complete_iff.1 hc, hA]
  rfl

/-- Where a transition is missing the fault names a state and a letter that
have none. -/
theorem exists_missing (hc : ¬l.Complete) (hfits : Fits room l.count) :
    ∃ i < l.count, ∃ c ∈ l.letters, (¬∃ a ∈ l.arcs, a.source = i ∧ a.letter = c) ∧
      l.toAutomaton room = .error (.format ⟨.noTransition i c, none⟩) := by
  rw [complete_iff] at hc
  obtain ⟨⟨i, c⟩, hmissing⟩ := Option.ne_none_iff_exists'.1 hc
  obtain ⟨-, hi, hletter, hnone⟩ := of_missingFrom_eq_some hmissing
  refine ⟨i, by omega, c, hletter, hnone, ?_⟩
  rw [toAutomaton_eq_of_fits hfits, hmissing]

/-- The fault of a count of states that cannot be counted out. -/
def excess (count : Nat) : Fault := if wordLimit ≤ count then .countOverflow else .outOfMemory

/-- States that cannot be counted out are refused, whatever else the
listing says. -/
theorem toAutomaton_eq_excess (h : ¬Fits room l.count) :
    l.toAutomaton room = .error (excess l.count) := by
  unfold toAutomaton excess
  by_cases hword : wordLimit ≤ l.count
  · rw [if_pos hword, if_pos hword]
  · have hroom : room < l.count :=
      Nat.not_le.1 fun hle => h ⟨Nat.not_le.1 hword, hle⟩
    rw [if_neg hword, if_pos hroom, if_neg hword]

/-- An automaton comes of a listing only if no transition is missing. -/
theorem of_toAutomaton_eq_ok (h : l.Coherent) (hA : l.toAutomaton room = .ok A) :
    l.Complete ∧ Fits room l.count ∧ A.ListedBy l := by
  have hfits : Fits room l.count := by
    by_contra hexcess
    rw [toAutomaton_eq_excess hexcess] at hA
    cases hA
  have hc : l.Complete := by
    by_contra hc
    obtain ⟨_, -, _, -, -, herror⟩ := exists_missing hc hfits
    rw [hA] at herror
    cases herror
  obtain ⟨B, hB, hlisted⟩ := exists_toAutomaton h hc hfits
  rw [hA, Except.ok.injEq] at hB
  exact ⟨hc, hfits, hB ▸ hlisted⟩

end Listing

end Automata
