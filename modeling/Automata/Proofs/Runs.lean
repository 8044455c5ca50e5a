/-
Runs of arbitrary words: where they lead, and at which letter they stop.

A word that is not over the alphabet may still lead somewhere. The table
can have rows of symbols that are no states and entries for other
letters, and a run walks through them as through all others. It is
described by a relation that knows nothing of faults: a `Path` follows
the entries of the table letter by letter. A run that gives a result has
followed a path (`runFrom_eq_ok_iff`); any other has followed one up to a
letter for which there is no entry, and tells what was missing there
(`runFrom_eq_error_iff`). There is one such letter at most, since what
comes after it is not looked at (`StopsAt.unique`).
-/
import Automata.Proofs.Words

namespace Automata.Automaton

variable {A : Automaton} {s t u c key : Symbol} {v w : List Symbol} {f : Fault}

-- =============================================================== paths

/-- The entries of the table lead from one symbol to another, letter by
letter of a word. -/
inductive Path (A : Automaton) : Symbol → List Symbol → Symbol → Prop
  | nil (s : Symbol) : Path A s [] s
  | cons {s c t u : Symbol} {w : List Symbol} (hmove : A.move? s c = some t)
      (hpath : Path A t w u) : Path A s (c :: w) u

/-- The table has no entry for the letter in the row of the symbol, as the
key is missing: the symbol, if it has no row, or else the letter. -/
inductive Misses (A : Automaton) (s c : Symbol) : Symbol → Prop
  | noRow (hrow : A.delta.get? s = none) : Misses A s c s
  | noEntry {row : Row} (hrow : A.delta.get? s = some row) (hentry : row.get? c = none) :
      Misses A s c c

theorem Misses.move?_ne_some (h : A.Misses s c key) : A.move? s c ≠ some t := by
  intro hmove
  cases h with
  | noRow hrow =>
      obtain ⟨row, hrow', -⟩ := Option.bind_eq_some_iff.1 hmove
      rw [hrow] at hrow'
      cases hrow'
  | noEntry hrow hentry =>
      rw [Description.move?_of_row hrow, hentry] at hmove
      cases hmove

theorem Misses.unique {key' : Symbol} (h : A.Misses s c key) (h' : A.Misses s c key') :
    key = key' := by
  cases h with
  | noRow hrow =>
      cases h' with
      | noRow _ => rfl
      | noEntry hrow' _ =>
          rw [hrow] at hrow'
          cases hrow'
  | noEntry hrow _ =>
      cases h' with
      | noRow hrow' =>
          rw [hrow] at hrow'
          cases hrow'
      | noEntry _ _ => rfl

theorem path_nil_iff : A.Path s [] t ↔ t = s := by
  constructor
  · intro h
    cases h
    rfl
  · intro h
    subst h
    exact .nil t

theorem path_cons_iff : A.Path s (c :: w) u ↔ ∃ t, A.move? s c = some t ∧ A.Path t w u := by
  constructor
  · intro h
    cases h with
    | cons hmove hpath => exact ⟨_, hmove, hpath⟩
  · intro h
    obtain ⟨t, hmove, hpath⟩ := h
    exact .cons hmove hpath

-- ================================================================ runs

theorem transition_eq_error_iff :
    A.transition s c = .error f ↔ ∃ key, A.Misses s c key ∧ f = .missing key := by
  unfold transition
  cases hrow : A.delta.fetch s with
  | error g =>
      obtain ⟨hnone, rfl⟩ := SymbolMap.fetch_eq_error_iff.1 hrow
      constructor
      · intro h
        exact ⟨s, .noRow hnone, (Except.error.inj h).symm⟩
      · intro h
        obtain ⟨key, hmisses, rfl⟩ := h
        rw [hmisses.unique (.noRow hnone)]
        rfl
  | ok row =>
      have hsome := SymbolMap.fetch_eq_ok_iff.1 hrow
      show row.fetch c = .error f ↔ _
      rw [SymbolMap.fetch_eq_error_iff]
      constructor
      · intro h
        exact ⟨c, .noEntry hsome h.1, h.2⟩
      · intro h
        obtain ⟨key, hmisses, rfl⟩ := h
        cases hmisses with
        | noRow hnone =>
            rw [hsome] at hnone
            cases hnone
        | noEntry hrow' hentry =>
            rw [hsome, Option.some.injEq] at hrow'
            subst hrow'
            exact ⟨hentry, rfl⟩

theorem runFrom_cons : A.runFrom s (c :: w) = A.transition s c >>= fun t => A.runFrom t w :=
  List.foldlM_cons

/-- A run gives the symbol that a path leads to. -/
theorem runFrom_eq_ok_iff : A.runFrom s w = .ok t ↔ A.Path s w t := by
  induction w generalizing s with
  | nil =>
      rw [path_nil_iff]
      exact ⟨fun h => (Except.ok.inj h).symm, fun h => congrArg Except.ok h.symm⟩
  | cons c w ih =>
      rw [runFrom_cons, bind_eq_ok_iff, path_cons_iff]
      simp only [transition_eq_ok_iff, ih]

theorem runFrom_append (h : A.runFrom s v = .ok t) : A.runFrom s (v ++ w) = A.runFrom t w := by
  unfold runFrom at h ⊢
  rw [List.foldlM_append, h]
  rfl

/-- The letters before the position lead somewhere, and from there the
letter at the position does not lead on, as the key is missing. -/
def StopsAt (A : Automaton) (s : Symbol) (w : List Symbol) (n : Nat) (key : Symbol) : Prop :=
  ∃ t c, A.Path s (w.take n) t ∧ w[n]? = some c ∧ A.Misses t c key

theorem not_stopsAt_nil {n : Nat} : ¬A.StopsAt s [] n key := by
  intro h
  obtain ⟨_, _, -, hletter, -⟩ := h
  simp at hletter

theorem stopsAt_zero_iff : A.StopsAt s (c :: w) 0 key ↔ A.Misses s c key := by
  unfold StopsAt
  simp only [List.take_zero, path_nil_iff, List.getElem?_cons_zero, Option.some.injEq,
    exists_and_left, exists_eq_left, exists_eq_left']

theorem stopsAt_succ_iff {n : Nat} : A.StopsAt s (c :: w) (n + 1) key ↔
    ∃ t, A.move? s c = some t ∧ A.StopsAt t w n key := by
  unfold StopsAt
  simp only [List.take_succ_cons, path_cons_iff, List.getElem?_cons_succ]
  constructor
  · intro h
    obtain ⟨u, d, ⟨t, hmove, hpath⟩, hstop⟩ := h
    exact ⟨t, hmove, u, d, hpath, hstop⟩
  · intro h
    obtain ⟨t, hmove, u, d, hpath, hstop⟩ := h
    exact ⟨u, d, ⟨t, hmove, hpath⟩, hstop⟩

theorem stopsAt_succ_iff_of_move? {n : Nat} (h : A.move? s c = some t) :
    A.StopsAt s (c :: w) (n + 1) key ↔ A.StopsAt t w n key := by
  rw [stopsAt_succ_iff, h]
  simp only [Option.some.injEq, exists_eq_left']

/-- A run stops at one letter at most, and there is one thing missing there. -/
theorem StopsAt.unique {m n : Nat} {key' : Symbol} (h : A.StopsAt s w m key)
    (h' : A.StopsAt s w n key') : m = n ∧ key = key' := by
  induction w generalizing s m n with
  | nil => exact absurd h not_stopsAt_nil
  | cons c w ih =>
      cases m with
      | zero =>
          have hmisses := stopsAt_zero_iff.1 h
          cases n with
          | zero => exact ⟨rfl, hmisses.unique (stopsAt_zero_iff.1 h')⟩
          | succ n =>
              obtain ⟨t, hmove, -⟩ := stopsAt_succ_iff.1 h'
              exact absurd hmove hmisses.move?_ne_some
      | succ m =>
          obtain ⟨t, hmove, hstop⟩ := stopsAt_succ_iff.1 h
          cases n with
          | zero => exact absurd hmove (stopsAt_zero_iff.1 h').move?_ne_some
          | succ n =>
              obtain ⟨rfl, hkey⟩ := ih hstop ((stopsAt_succ_iff_of_move? hmove).1 h')
              exact ⟨rfl, hkey⟩

/-- A run that gives no result has stopped at a letter. -/
theorem runFrom_eq_error_iff : A.runFrom s w = .error f ↔
    ∃ n key, A.StopsAt s w n key ∧ f = .missing key := by
  induction w generalizing s with
  | nil =>
      refine iff_of_false (fun h => nomatch h) fun h => ?_
      obtain ⟨n, key, hstop, -⟩ := h
      exact not_stopsAt_nil hstop
  | cons c w ih =>
      rw [runFrom_cons]
      -- the run stops here, or else where the rest of the word stops, one later
      cases htransition : A.transition s c with
      | error g =>
          obtain ⟨key, hmisses, rfl⟩ := transition_eq_error_iff.1 htransition
          have hstop := stopsAt_zero_iff (w := w) |>.2 hmisses
          constructor
          · intro h
            exact ⟨0, key, hstop, (Except.error.inj h).symm⟩
          · intro h
            obtain ⟨n, key', hstop', rfl⟩ := h
            rw [(hstop.unique hstop').2]
            rfl
      | ok t =>
          have hmove := transition_eq_ok_iff.1 htransition
          show A.runFrom t w = .error f ↔ _
          rw [ih]
          constructor
          · intro h
            obtain ⟨n, key, hstop, rfl⟩ := h
            exact ⟨n + 1, key, (stopsAt_succ_iff_of_move? hmove).2 hstop, rfl⟩
          · intro h
            obtain ⟨n, key, hstop, rfl⟩ := h
            cases n with
            | zero => exact absurd hmove (stopsAt_zero_iff.1 hstop).move?_ne_some
            | succ n => exact ⟨n, key, (stopsAt_succ_iff_of_move? hmove).1 hstop, rfl⟩

/-- Before the letter at which a run stops every letter has led on. -/
theorem StopsAt.exists_move? {m n : Nat} (h : A.StopsAt s w n key) (hm : m < n) :
    ∃ t c u, A.Path s (w.take m) t ∧ w[m]? = some c ∧ A.move? t c = some u := by
  induction w generalizing s m n with
  | nil => exact absurd h not_stopsAt_nil
  | cons c w ih =>
      cases n with
      | zero => exact absurd hm (Nat.not_lt_zero m)
      | succ n =>
          obtain ⟨t, hmove, hstop⟩ := stopsAt_succ_iff.1 h
          cases m with
          | zero => exact ⟨s, c, t, .nil s, rfl, hmove⟩
          | succ m =>
              obtain ⟨r, d, u, hpath, hletter, hnext⟩ := ih hstop (Nat.lt_of_succ_lt_succ hm)
              exact ⟨r, d, u, .cons hmove hpath, hletter, hnext⟩

-- ============================================================ accounts

/-- Words over the alphabet lead to states, and a word after another leads
on from the state that the first leads to. -/
def RunsOver (A : Automaton) : Prop :=
  ∀ u v, A.Over u → A.Over v → ∃ s ∈ A.states, A.run u = .ok s ∧
    ∃ t ∈ A.states, A.runFrom s v = .ok t ∧ A.run (u ++ v) = .ok t

theorem runsOver (A : Automaton) : A.RunsOver := by
  intro u v hu hv
  have hs := after_mem A.start_mem hu
  refine ⟨_, hs, run_eq_ok hu, _, after_mem hs hv, runFrom_eq_ok hs hv, ?_⟩
  exact (runFrom_append (run_eq_ok hu)).trans (runFrom_eq_ok hs hv)

/-- What becomes of the run of an arbitrary word: it follows the table to
the end, or stops at the first letter that does not lead on. -/
structure RunAccount (A : Automaton) (w : List Symbol) : Prop where
  ok_iff_path : ∀ t, A.run w = .ok t ↔ A.Path A.start w t
  ok_iff : (∃ t, A.run w = .ok t) ↔ ¬∃ n key, A.StopsAt A.start w n key
  error_iff : ∀ f, A.run w = .error f ↔ ∃ n key, A.StopsAt A.start w n key ∧ f = .missing key
  unique : ∀ {m n key key'}, A.StopsAt A.start w m key → A.StopsAt A.start w n key' →
    m = n ∧ key = key'
  moves : ∀ {n key}, A.StopsAt A.start w n key → ∀ m < n,
    ∃ s c t, A.Path A.start (w.take m) s ∧ w[m]? = some c ∧ A.move? s c = some t

theorem runAccount (A : Automaton) (w : List Symbol) : A.RunAccount w where
  ok_iff_path := fun _ => runFrom_eq_ok_iff
  ok_iff := by
    cases hrun : A.run w with
    | ok t =>
        refine iff_of_true ⟨t, rfl⟩ fun hstop => ?_
        obtain ⟨n, key, hstop⟩ := hstop
        have herror := runFrom_eq_error_iff.2 ⟨n, key, hstop, rfl⟩
        rw [show A.runFrom A.start w = .ok t from hrun] at herror
        cases herror
    | error f =>
        obtain ⟨n, key, hstop, -⟩ := runFrom_eq_error_iff.1 hrun
        refine iff_of_false (fun hok => ?_) fun hnone => hnone ⟨n, key, hstop⟩
        obtain ⟨t, ht⟩ := hok
        cases ht
  error_iff := fun _ => runFrom_eq_error_iff
  unique := StopsAt.unique
  moves := fun hstop _ hm => hstop.exists_move? hm

end Automata.Automaton
