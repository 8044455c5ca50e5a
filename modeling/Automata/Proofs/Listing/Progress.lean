/-
The reader as a machine over lines.

What the reader carries from one line to the next is what the lines have
said so far (`Progress`): one heading after the other, then a listing
that transitions are added to. A line is refused for what it says and
what is carried, so an error shows at the first line that does not go on,
with that line's number, and what comes behind the line plays no part
(`of_ofLines_eq_error`, `RefusedAfter.ofLines_eq`). That the reader looks
its headings up by their places makes no difference (`ofLines_eq`).
-/
import Automata.Proofs.Listing.Format

namespace Automata

theorem Heading.line_le (h : Heading) : h.line ≤ 4 := by cases h <;> decide

namespace Listing

variable {α β : Type} {x : Except FormatError α} {e : FormatError} {k : Nat}
  {lines : List (List Char)} {line : List Char} {l : Listing}

-- ==================================================== numbers of errors

/-- An operation fails, if at all, with an error of the line. -/
def FailsAt (x : Except FormatError α) (k : Nat) : Prop := ∀ e, x = .error e → e.line? = some k

theorem failsAt_ok (a : α) : FailsAt (.ok a : Except FormatError α) k := fun _ he => nomatch he

theorem failsAt_error (cause : FormatCause) :
    FailsAt (.error ⟨cause, some k⟩ : Except FormatError α) k := by
  intro e he
  cases he
  rfl

theorem FailsAt.bind {f : α → Except FormatError β} (hx : FailsAt x k) (hf : ∀ a, FailsAt (f a) k) :
    FailsAt (x >>= f) k := by
  cases x with
  | error e =>
      intro _ he
      cases he
      exact hx e rfl
  | ok a => exact hf a

theorem FailsAt.map (f : α → β) (hx : FailsAt x k) : FailsAt (f <$> x) k := by
  rw [map_eq_pure_bind]
  exact hx.bind fun a => failsAt_ok (f a)

theorem failsAt_mapM {f : α → Except FormatError β} (hf : ∀ a, FailsAt (f a) k) (xs : List α) :
    FailsAt (xs.mapM f) k := by
  induction xs with
  | nil => exact failsAt_ok []
  | cons x xs ih =>
      rw [List.mapM_cons]
      exact (hf x).bind fun b => ih.bind fun bs => failsAt_ok (b :: bs)

theorem failsAt_readCount (ws : List (List Char)) : FailsAt (readCount ws) 1 := by
  unfold readCount
  split
  · split
    · split
      · exact failsAt_error _
      · exact failsAt_ok _
    · exact failsAt_error _
  · exact failsAt_error _

theorem failsAt_readLetter (w : List Char) : FailsAt (readLetter w) 2 := by
  unfold readLetter
  split
  · exact failsAt_ok _
  · exact failsAt_error _

theorem failsAt_readState (count k : Nat) (w : List Char) : FailsAt (readState count k w) k := by
  unfold readState
  split
  · exact failsAt_error _
  · split
    · exact failsAt_ok _
    · exact failsAt_error _

theorem failsAt_readStart (count : Nat) (ws : List (List Char)) :
    FailsAt (readStart count ws) 3 := by
  unfold readStart
  split
  · exact failsAt_readState count 3 _
  · exact failsAt_error _

theorem failsAt_readArc (count : Nat) (letters : List Char) (given : List Arc) (k : Nat)
    (line : List Char) : FailsAt (readArc count letters given k line) k := by
  unfold readArc
  split
  · exact failsAt_ok _
  · split
    · exact failsAt_error _
    · have hstate := failsAt_readState count k
      refine (hstate _).bind fun s => (hstate _).bind fun t => ?_
      split
      · exact failsAt_ok _
      · exact failsAt_error _
  · exact failsAt_error _

-- ================================================= the reader's progress

/-- What the lines read so far have said. -/
inductive Progress where
  | nothing
  | counted (count : Nat)
  | lettered (count : Nat) (letters : List Char)
  | started (count : Nat) (letters : List Char) (start : Nat)
  | headed (l : Listing)

namespace Progress

/-- The progress that one more line makes, with its number. -/
def next : Progress → Nat → List Char → Except FormatError Progress
  | nothing, _, line => counted <$> readCount (Text.words line)
  | counted n, _, line => lettered n <$> (Text.words line).mapM readLetter
  | lettered n cs, _, line => started n cs <$> readStart n (Text.words line)
  | started n cs s, _, line =>
    (fun fs => headed ⟨n, cs, s, fs, []⟩) <$> (Text.words line).mapM (readState n 4)
  | headed l, number, line =>
    (fun a? => headed { l with arcs := a?.toList ++ l.arcs }) <$>
      readArc l.count l.letters l.arcs number line

/-- The progress through lines, from one number on. -/
def through : Progress → Nat → List (List Char) → Except FormatError Progress
  | p, _, [] => .ok p
  | p, number, line :: rest => do
    let q ← p.next number line
    q.through (number + 1) rest

/-- What has been said when the lines are over. -/
def finish : Progress → Except FormatError Listing
  | nothing => .error ⟨.missing .stateCount, some 1⟩
  | counted .. => .error ⟨.missing .alphabet, some 2⟩
  | lettered .. => .error ⟨.missing .startState, some 3⟩
  | started .. => .error ⟨.missing .acceptingStates, some 4⟩
  | headed l => .ok l

/-- The next line is the one with the number. -/
def Awaits : Progress → Nat → Prop
  | nothing, k => k = 1
  | counted .., k => k = 2
  | lettered .., k => k = 3
  | started .., k => k = 4
  | headed _, k => 5 ≤ k

variable {p q : Progress}

theorem through_headed : (headed l).through k lines =
    (fun arcs => headed { l with arcs }) <$> readArcs l.count l.letters k l.arcs lines := by
  induction lines generalizing l k with
  | nil => rfl
  | cons line rest ih =>
      simp only [through, next, readArcs, map_eq_pure_bind, bind_assoc, pure_bind]
      refine congrArg _ (funext fun a? => ?_)
      rw [ih, map_eq_pure_bind]

end Progress

open Progress

/-- The reader carries its progress from line to line. -/
theorem ofLines_eq (lines : List (List Char)) :
    ofLines lines = nothing.through 1 lines >>= finish := by
  unfold ofLines
  -- fewer than four lines lack a heading, and behind four all are transitions
  rcases lines with _ | ⟨a, _ | ⟨b, _ | ⟨c, _ | ⟨d, rest⟩⟩⟩⟩
  · rfl
  · simp only [heading, through, next, Heading.line, map_eq_pure_bind, bind_assoc, pure_bind]
    rfl
  · simp only [heading, through, next, Heading.line, map_eq_pure_bind, bind_assoc, pure_bind]
    rfl
  · simp only [heading, through, next, Heading.line, map_eq_pure_bind, bind_assoc, pure_bind]
    rfl
  · simp only [through, next, through_headed, map_eq_pure_bind, bind_assoc, pure_bind]
    rfl

namespace Progress

variable {p q : Progress}

-- ============================================================= one line

/-- A line that is refused is refused by its number. -/
theorem failsAt_next (h : p.Awaits k) (line : List Char) : FailsAt (p.next k line) k := by
  cases p with
  | nothing =>
      cases h
      exact (failsAt_readCount _).map _
  | counted n =>
      cases h
      exact (failsAt_mapM failsAt_readLetter _).map _
  | lettered n cs =>
      cases h
      exact (failsAt_readStart n _).map _
  | started n cs s =>
      cases h
      exact (failsAt_mapM (failsAt_readState n 4) _).map _
  | headed l => exact (failsAt_readArc _ _ _ k line).map _

theorem awaits_nothing : nothing.Awaits 1 := rfl

theorem awaits_of_next (h : p.Awaits k) (hq : p.next k line = .ok q) : q.Awaits (k + 1) := by
  cases p with
  | nothing =>
      obtain ⟨n, -, rfl⟩ := map_eq_ok_iff.1 hq
      cases h
      rfl
  | counted n =>
      obtain ⟨cs, -, rfl⟩ := map_eq_ok_iff.1 hq
      cases h
      rfl
  | lettered n cs =>
      obtain ⟨s, -, rfl⟩ := map_eq_ok_iff.1 hq
      cases h
      rfl
  | started n cs s =>
      obtain ⟨fs, -, rfl⟩ := map_eq_ok_iff.1 hq
      cases h
      exact Nat.le_refl 5
  | headed l =>
      obtain ⟨a?, -, rfl⟩ := map_eq_ok_iff.1 hq
      exact Nat.le_succ_of_le h

/-- Where a heading is awaited it is what is missing; behind the headings
nothing is. -/
theorem finish_of_awaits (h : p.Awaits k) :
    (∃ h : Heading, h.line = k ∧ p.finish = .error ⟨.missing h, some k⟩) ∨
      5 ≤ k ∧ ∃ l, p.finish = .ok l := by
  cases p with
  | nothing =>
      cases h
      exact Or.inl ⟨.stateCount, rfl, rfl⟩
  | counted n =>
      cases h
      exact Or.inl ⟨.alphabet, rfl, rfl⟩
  | lettered n cs =>
      cases h
      exact Or.inl ⟨.startState, rfl, rfl⟩
  | started n cs s =>
      cases h
      exact Or.inl ⟨.acceptingStates, rfl, rfl⟩
  | headed l => exact Or.inr ⟨h, l, rfl⟩

-- ============================================================ all lines

theorem through_append (p : Progress) (k : Nat) (before after : List (List Char)) :
    p.through k (before ++ after) =
      p.through k before >>= fun q => q.through (k + before.length) after := by
  induction before generalizing p k with
  | nil => rfl
  | cons line before ih =>
      simp only [List.cons_append, through, ih, bind_assoc, List.length_cons]
      refine congrArg _ (funext fun q => ?_)
      rw [Nat.add_right_comm, Nat.add_assoc]

theorem awaits_of_through (h : p.Awaits k) (hq : p.through k lines = .ok q) :
    q.Awaits (k + lines.length) := by
  induction lines generalizing p k with
  | nil =>
      cases hq
      exact h
  | cons line rest ih =>
      obtain ⟨r, hr, hq⟩ := bind_eq_ok_iff.1 hq
      rw [List.length_cons, ← Nat.succ_add_eq_add_succ]
      exact ih (awaits_of_next h hr) hq

/-- Lines that are not gone through have a first one that is refused. -/
theorem exists_of_through_eq_error (he : p.through k lines = .error e) :
    ∃ before line after q, lines = before ++ line :: after ∧ p.through k before = .ok q ∧
      q.next (k + before.length) line = .error e := by
  induction lines generalizing p k with
  | nil => cases he
  | cons line rest ih =>
      cases hq : p.next k line with
      | error e' =>
          rw [through, hq] at he
          cases he
          exact ⟨[], line, rest, p, rfl, rfl, hq⟩
      | ok q =>
          rw [through, hq] at he
          obtain ⟨before, line', after, r, rfl, hr, herror⟩ := ih he
          refine ⟨line :: before, line', after, r, rfl, ?_, ?_⟩
          · rw [through, hq]
            exact hr
          · rwa [List.length_cons, ← Nat.succ_add_eq_add_succ]

end Progress

-- ================================================= the line of an error

/-- The lines before are gone through, and the line is refused. -/
def RefusedAfter (before : List (List Char)) (line : List Char) (e : FormatError) : Prop :=
  ∃ q, nothing.through 1 before = .ok q ∧ q.next (1 + before.length) line = .error e

namespace RefusedAfter

variable {before : List (List Char)}

/-- What comes behind a line that is refused plays no part. -/
theorem ofLines_eq (h : RefusedAfter before line e) (after : List (List Char)) :
    ofLines (before ++ line :: after) = .error e := by
  obtain ⟨q, hq, herror⟩ := h
  rw [Listing.ofLines_eq, through_append, hq]
  show (q.through (1 + before.length) (line :: after) >>= finish) = .error e
  rw [through, herror]
  rfl

theorem line?_eq (h : RefusedAfter before line e) : e.line? = some (before.length + 1) := by
  obtain ⟨q, hq, herror⟩ := h
  have hawaits : q.Awaits (1 + before.length) := awaits_of_through awaits_nothing hq
  rw [failsAt_next hawaits line e herror, Nat.add_comm]

end RefusedAfter

/-- Lines that are gone through are read, or end before a heading. -/
theorem ofLines_of_through {q : Progress} (hq : nothing.through 1 lines = .ok q) :
    (∃ h : Heading, h.line = lines.length + 1 ∧
      ofLines lines = .error ⟨.missing h, some (lines.length + 1)⟩) ∨
        4 ≤ lines.length ∧ ∃ l, ofLines lines = .ok l := by
  have hawaits : q.Awaits (1 + lines.length) := awaits_of_through awaits_nothing hq
  rw [ofLines_eq, hq]
  show (∃ h : Heading, _ ∧ q.finish = _) ∨ _ ∧ ∃ l, q.finish = _
  rw [Nat.add_comm 1] at hawaits
  exact (finish_of_awaits hawaits).imp_right (And.imp_left Nat.le_of_succ_le_succ)

/-- Before a line that is refused nothing is wrong but that headings may
be missing. -/
theorem RefusedAfter.ofLines_before {before : List (List Char)} (h : RefusedAfter before line e) :
    (∃ h : Heading, h.line = before.length + 1 ∧
      ofLines before = .error ⟨.missing h, some (before.length + 1)⟩) ∨
        4 ≤ before.length ∧ ∃ l, ofLines before = .ok l := by
  obtain ⟨q, hq, -⟩ := h
  exact ofLines_of_through hq

/-- An error shows at the first line that is refused, or, when none is,
where a heading is missing. -/
theorem of_ofLines_eq_error (h : ofLines lines = .error e) :
    (∃ before line after, lines = before ++ line :: after ∧ RefusedAfter before line e) ∨
      ∃ h : Heading, h.line = lines.length + 1 ∧ e = ⟨.missing h, some (lines.length + 1)⟩ := by
  cases hthrough : nothing.through 1 lines with
  | error e' =>
      obtain ⟨before, line, after, q, rfl, hq, herror⟩ := exists_of_through_eq_error hthrough
      have hrefused : RefusedAfter before line e' := ⟨q, hq, herror⟩
      rw [hrefused.ofLines_eq after] at h
      cases h
      exact Or.inl ⟨before, line, after, rfl, hrefused⟩
  | ok q =>
      rcases ofLines_of_through hthrough with ⟨h', hline, herror⟩ | ⟨-, l, hl⟩
      · rw [herror] at h
        cases h
        exact Or.inr ⟨h', hline, rfl⟩
      · rw [hl] at h
        cases h

end Listing

end Automata
