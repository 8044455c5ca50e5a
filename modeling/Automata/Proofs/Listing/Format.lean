/-
The format of listings, as a relation between lines and what they say,
and that reading lines decides it.

`Spells` relates lines to a listing word by word: which words stand in
the four heading lines, and which transitions the others give. It leaves
nothing of the listing open but the order of the transitions and how
often each is given (`Spells.same`). A listing is `Coherent` when its
numbers are states, its transitions use its letters, and no two of them
disagree.

The reader finds nothing that the lines do not spell, and nothing that is
not coherent (`spells_of_ofLines`). In the other direction it refuses no
lines that spell a coherent listing (`exists_ofLines`); which listing it
then returns need not be followed through, since lines spell only one.
Both come down to one transition line (`readArc_eq_ok_iff`), carried on
by induction on the lines with the transitions given so far.
-/
import Automata.Listing.Reader
import Automata.Proofs.Results

namespace Automata

-- ========================================================= the format

/-- The word is a numeral of the number. -/
def Denotes (w : List Char) (n : Nat) : Prop := Text.integer? w = some (n : Int)

/-- A line gives a transition: source, letter and target. -/
def Arc.GivenBy (a : Arc) (line : List Char) : Prop :=
  ∃ s t, Text.words line = [s, [a.letter], t] ∧ Denotes s a.source ∧ Denotes t a.target

/-- The transition is one between so many states, by one of the letters. -/
structure Arc.Within (a : Arc) (count : Nat) (letters : List Char) : Prop where
  source_lt : a.source < count
  letter_mem : a.letter ∈ letters
  target_lt : a.target < count

/-- No two transitions lead from one state by one letter to different
states. -/
def Consistent (arcs : List Arc) : Prop :=
  ∀ a ∈ arcs, ∀ b ∈ arcs, a.source = b.source → a.letter = b.letter → a.target = b.target

namespace Listing

/-- The words of the line at a place, if there is one. -/
def wordsAt (lines : List (List Char)) (i : Nat) : Option (List (List Char)) :=
  lines[i]?.map Text.words

/-- The lines say what the listing holds. -/
structure Spells (lines : List (List Char)) (l : Listing) : Prop where
  count : ∃ w, wordsAt lines 0 = some [w] ∧ Denotes w l.count
  letters : wordsAt lines 1 = some (l.letters.map ([·]))
  start : ∃ w, wordsAt lines 2 = some [w] ∧ Denotes w l.start
  accepting : ∃ ws, wordsAt lines 3 = some ws ∧ List.Forall₂ Denotes ws l.accepting
  mem_arcs_iff : ∀ a, a ∈ l.arcs ↔ ∃ line ∈ lines.drop 4, a.GivenBy line
  blank_or_given : ∀ line ∈ lines.drop 4, Text.words line = [] ∨ ∃ a : Arc, a.GivenBy line

/-- The parts of a listing fit together. -/
structure Coherent (l : Listing) : Prop where
  count_pos : 1 ≤ l.count
  start_lt : l.start < l.count
  accepting_lt : ∀ s ∈ l.accepting, s < l.count
  within : ∀ a ∈ l.arcs, a.Within l.count l.letters
  consistent : Consistent l.arcs

/-- Every state has a transition for every letter. -/
def Complete (l : Listing) : Prop :=
  ∀ s < l.count, ∀ c ∈ l.letters, ∃ a ∈ l.arcs, a.source = s ∧ a.letter = c

/-- The listings differ at most in the order of their transitions and in
how often each is given. -/
structure Same (l k : Listing) : Prop where
  count : l.count = k.count
  letters : l.letters = k.letters
  start : l.start = k.start
  accepting : l.accepting = k.accepting
  mem_arcs_iff : ∀ a, a ∈ l.arcs ↔ a ∈ k.arcs

end Listing

variable {lines : List (List Char)} {l k : Listing} {count number m n : Nat} {letters : List Char}
  {given arcs : List Arc} {line w : List Char} {ws : List (List Char)} {a b : Arc} {c : Char}

theorem Denotes.unique (hm : Denotes w m) (hn : Denotes w n) : m = n := by
  unfold Denotes at hm hn
  rw [hm, Option.some.injEq] at hn
  exact Int.ofNat.inj hn

theorem Arc.GivenBy.unique (ha : a.GivenBy line) (hb : b.GivenBy line) : a = b := by
  obtain ⟨s, t, hw, hs, ht⟩ := ha
  obtain ⟨s', t', hw', hs', ht'⟩ := hb
  rw [hw] at hw'
  simp only [List.cons.injEq, and_true] at hw'
  obtain ⟨rfl, hletter, rfl⟩ := hw'
  obtain ⟨i, c, j⟩ := a
  obtain ⟨i', c', j'⟩ := b
  cases hs.unique hs'
  cases ht.unique ht'
  cases hletter
  rfl

theorem Arc.GivenBy.words_ne_nil (h : a.GivenBy line) : Text.words line ≠ [] := by
  obtain ⟨s, t, hw, -⟩ := h
  rw [hw]
  exact List.cons_ne_nil _ _

namespace Listing

namespace Same

theorem symm (h : l.Same k) : k.Same l :=
  ⟨h.count.symm, h.letters.symm, h.start.symm, h.accepting.symm, fun a => (h.mem_arcs_iff a).symm⟩

theorem complete (h : l.Same k) (hl : l.Complete) : k.Complete := by
  intro s hs c hc
  rw [← h.count] at hs
  rw [← h.letters] at hc
  obtain ⟨a, ha, hsource, hletter⟩ := hl s hs c hc
  exact ⟨a, (h.mem_arcs_iff a).1 ha, hsource, hletter⟩

end Same

theorem map_singleton_inj {cs ds : List Char} (h : cs.map ([·]) = ds.map ([·])) : cs = ds :=
  List.map_injective_iff.2 (fun _ _ h => (List.cons.inj h).1) h

/-- Lines spell one listing, up to the order of its transitions. -/
theorem Spells.same (hl : Spells lines l) (hk : Spells lines k) : l.Same k where
  count := by
    obtain ⟨w, hw, hn⟩ := hl.count
    obtain ⟨w', hw', hn'⟩ := hk.count
    rw [hw] at hw'
    cases hw'
    exact hn.unique hn'
  letters := by
    have hw := hl.letters
    rw [hk.letters, Option.some.injEq] at hw
    exact (map_singleton_inj hw).symm
  start := by
    obtain ⟨w, hw, hn⟩ := hl.start
    obtain ⟨w', hw', hn'⟩ := hk.start
    rw [hw] at hw'
    cases hw'
    exact hn.unique hn'
  accepting := by
    obtain ⟨ws, hws, hall⟩ := hl.accepting
    obtain ⟨ws', hws', hall'⟩ := hk.accepting
    rw [hws] at hws'
    cases hws'
    exact List.right_unique_forall₂' (fun _ _ _ h h' => h.unique h') hall hall'
  mem_arcs_iff := by
    intro a
    rw [hl.mem_arcs_iff, hk.mem_arcs_iff]

-- ================================================= the heading lines

/-- A heading gives the words of its line. -/
theorem heading_eq_ok_iff {h : Heading} :
    heading lines h = .ok ws ↔ wordsAt lines (h.line - 1) = some ws := by
  unfold heading wordsAt
  cases lines[h.line - 1]? <;> simp

theorem readCount_eq_ok_iff : readCount ws = .ok n ↔ ∃ w, ws = [w] ∧ Denotes w n ∧ 1 ≤ n := by
  unfold readCount Denotes
  constructor
  · intro h
    split at h
    · rename_i w
      refine ⟨w, rfl, ?_⟩
      split at h
      · rename_i i hi
        split at h
        · cases h
        · cases h
          rw [hi]
          exact ⟨congrArg some (by omega), by omega⟩
      · cases h
    · cases h
  · intro h
    obtain ⟨w, rfl, hw, hn⟩ := h
    simp only [hw]
    rw [if_neg (by omega), Int.toNat_natCast]

theorem readLetter_eq_ok_iff : readLetter w = .ok c ↔ w = [c] := by
  unfold readLetter
  split
  · simp
  · rename_i hne
    refine iff_of_false (fun h => nomatch h) fun h => hne c h

theorem readState_eq_ok_iff : readState count number w = .ok n ↔ Denotes w n ∧ n < count := by
  unfold readState Denotes
  cases hw : Text.integer? w with
  | none => simp
  | some i =>
      simp only [Option.some.injEq]
      split
      · rw [Except.ok.injEq]
        omega
      · refine iff_of_false (fun h => nomatch h) ?_
        omega

theorem readStart_eq_ok_iff :
    readStart count ws = .ok n ↔ ∃ w, ws = [w] ∧ Denotes w n ∧ n < count := by
  unfold readStart
  split
  · rename_i w
    rw [readState_eq_ok_iff]
    simp
  · rename_i hne
    refine iff_of_false (fun h => nomatch h) fun h => ?_
    obtain ⟨w, hw, -⟩ := h
    exact hne w hw

/-- The letters are read when every word is a single character. -/
theorem mapM_readLetter_eq_ok_iff : ws.mapM readLetter = .ok letters ↔ ws = letters.map ([·]) := by
  rw [mapM_eq_ok_iff]
  simp only [readLetter_eq_ok_iff]
  rw [← List.forall₂_map_right_iff, List.forall₂_eq_eq_eq]

/-- States are read when every word is a numeral of one. -/
theorem mapM_readState_eq_ok_iff {ns : List Nat} : ws.mapM (readState count number) = .ok ns ↔
    List.Forall₂ Denotes ws ns ∧ ∀ n ∈ ns, n < count := by
  rw [mapM_eq_ok_iff]
  simp only [readState_eq_ok_iff]
  exact forall₂_and_right

-- ================================================ transition lines

/-- The target that consistent transitions name is that of any of them. -/
theorem targetOf?_eq_some_iff (h : Consistent arcs) :
    targetOf? arcs m c = some n ↔ ⟨m, c, n⟩ ∈ arcs := by
  unfold targetOf?
  rw [Option.map_eq_some_iff]
  constructor
  · intro hfind
    obtain ⟨a, ha, rfl⟩ := hfind
    have hkey := List.find?_some ha
    simp only [Bool.and_eq_true, decide_eq_true_eq] at hkey
    obtain ⟨rfl, rfl⟩ := hkey
    exact List.mem_of_find?_eq_some ha
  · intro hmem
    obtain ⟨a, ha⟩ : ∃ a, arcs.find? (fun a => a.source = m && a.letter = c) = some a :=
      Option.isSome_iff_exists.1 (List.find?_isSome.2 ⟨_, hmem, by simp⟩)
    have hkey := List.find?_some ha
    simp only [Bool.and_eq_true, decide_eq_true_eq] at hkey
    exact ⟨a, ha, h a (List.mem_of_find?_eq_some ha) _ hmem hkey.1 hkey.2⟩

theorem targetOf?_eq_none_iff :
    targetOf? arcs m c = none ↔ ∀ a ∈ arcs, a.source = m → a.letter ≠ c := by
  unfold targetOf?
  simp

/-- A transition agrees with those given before it when they name no other
target. -/
theorem getD_targetOf?_eq_iff (h : Consistent given) :
    (targetOf? given a.source a.letter).getD a.target = a.target ↔ Consistent (a :: given) := by
  have hnone : (∀ b ∈ given, b.source = a.source → b.letter = a.letter → b.target = a.target) ↔
      Consistent (a :: given) := by
    constructor
    · intro hall x hx y hy hs hc
      rcases List.mem_cons.1 hx with rfl | hx' <;> rcases List.mem_cons.1 hy with rfl | hy'
      · rfl
      · exact (hall y hy' hs.symm hc.symm).symm
      · exact hall x hx' hs hc
      · exact h x hx' y hy' hs hc
    · intro hcons b hb
      exact hcons b (List.mem_cons_of_mem _ hb) a List.mem_cons_self
  rw [← hnone]
  cases ht : targetOf? given a.source a.letter with
  | none =>
      refine iff_of_true rfl fun b hb hs hc => ?_
      exact absurd hc (targetOf?_eq_none_iff.1 ht b hb hs)
  | some n =>
      have hmem := (targetOf?_eq_some_iff h).1 ht
      rw [Option.getD_some]
      constructor
      · intro hn b hb hs hc
        rw [← hn]
        exact h b hb _ hmem hs hc
      · intro hall
        exact hall _ hmem rfl rfl

theorem find?_letter_eq_some_iff :
    letters.find? (fun c => [c] = w) = some c ↔ c ∈ letters ∧ w = [c] := by
  constructor
  · intro h
    have hw := List.find?_some h
    exact ⟨List.mem_of_find?_eq_some h, (of_decide_eq_true hw).symm⟩
  · intro h
    obtain ⟨hc, rfl⟩ := h
    obtain ⟨d, hd⟩ : ∃ d, letters.find? (fun d => [d] = [c]) = some d :=
      Option.isSome_iff_exists.1 (List.find?_isSome.2 ⟨c, hc, by simp⟩)
    have hdc : [d] = [c] := by simpa using List.find?_some hd
    rw [hd, (List.cons.inj hdc).1]

/-- A line is read when it is blank, or when it gives a transition between
states that agrees with those before it. -/
theorem readArc_eq_ok_iff {o : Option Arc} (h : Consistent given) :
    readArc count letters given number line = .ok o ↔
      (o = none ∧ Text.words line = []) ∨
        ∃ a, o = some a ∧ a.GivenBy line ∧ a.Within count letters ∧ Consistent (a :: given) := by
  unfold readArc
  split
  · rename_i hw
    rw [Except.ok.injEq]
    constructor
    · intro ho
      exact Or.inl ⟨ho.symm, hw⟩
    · intro ho
      rcases ho with ⟨rfl, -⟩ | ⟨a, -, hgiven, -⟩
      · rfl
      · exact absurd hw hgiven.words_ne_nil
  · rename_i source letter target hw
    have hblank : ¬Text.words line = [] := by
      rw [hw]
      exact List.cons_ne_nil _ _
    simp only [hblank, and_false, false_or]
    split
    · rename_i hfind
      refine iff_of_false (fun ho => nomatch ho) fun ho => ?_
      obtain ⟨a, -, ⟨s, t, hw', -, -⟩, hwithin, -⟩ := ho
      rw [hw] at hw'
      cases hw'
      rw [find?_letter_eq_some_iff.2 ⟨hwithin.letter_mem, rfl⟩] at hfind
      cases hfind
    · rename_i d hfind
      obtain ⟨hd, rfl⟩ := find?_letter_eq_some_iff.1 hfind
      simp only [bind_eq_ok_iff, readState_eq_ok_iff]
      constructor
      · intro ho
        obtain ⟨m, ⟨hm, hmlt⟩, n, ⟨hn, hnlt⟩, ho⟩ := ho
        split at ho
        · rename_i hsame
          cases ho
          refine ⟨⟨m, d, n⟩, rfl, ⟨_, _, hw, hm, hn⟩, ⟨hmlt, hd, hnlt⟩, ?_⟩
          exact (getD_targetOf?_eq_iff h).1 hsame
        · cases ho
      · intro ho
        obtain ⟨a, rfl, ⟨s, t, hw', hs, ht⟩, hwithin, hcons⟩ := ho
        rw [hw] at hw'
        cases hw'
        refine ⟨_, ⟨hs, hwithin.source_lt⟩, _, ⟨ht, hwithin.target_lt⟩, ?_⟩
        rw [if_pos ((getD_targetOf?_eq_iff h).2 hcons)]
        rfl
  · rename_i hblank hne
    refine iff_of_false (fun ho => nomatch ho) fun ho => ?_
    rcases ho with ⟨-, hw⟩ | ⟨a, -, ⟨s, t, hw, -⟩, -⟩
    · exact hblank hw
    · exact hne _ _ _ hw

/-- The transitions of lines are those given before and those of the lines,
which are blank or give one each. -/
theorem readArcs_sound (hgiven : Consistent given)
    (h : readArcs count letters number given lines = .ok arcs) :
    Consistent arcs ∧
      (∀ line ∈ lines, Text.words line = [] ∨ ∃ a : Arc, a.GivenBy line ∧ a.Within count letters) ∧
      ∀ a, a ∈ arcs ↔ a ∈ given ∨ ∃ line ∈ lines, a.GivenBy line := by
  induction lines generalizing number given with
  | nil =>
      cases h
      refine ⟨hgiven, fun line hline => absurd hline List.not_mem_nil, fun a => ?_⟩
      simp
  | cons line rest ih =>
      obtain ⟨o, ho, h⟩ := bind_eq_ok_iff.1 h
      rcases (readArc_eq_ok_iff hgiven).1 ho with ⟨rfl, hw⟩ | ⟨a, rfl, ha, hwithin, hcons⟩
      · obtain ⟨hconsistent, hlines, hmem⟩ := ih hgiven h
        refine ⟨hconsistent, List.forall_mem_cons.2 ⟨Or.inl hw, hlines⟩, fun b => ?_⟩
        have hnot : ¬b.GivenBy line := fun hb => hb.words_ne_nil hw
        rw [hmem, List.exists_mem_cons_iff, or_iff_right hnot]
      · obtain ⟨hconsistent, hlines, hmem⟩ := ih hcons h
        refine ⟨hconsistent, List.forall_mem_cons.2 ⟨Or.inr ⟨a, ha, hwithin⟩, hlines⟩, fun b => ?_⟩
        have hline : b.GivenBy line ↔ b = a := by
          refine ⟨fun hb => hb.unique ha, fun hb => ?_⟩
          rw [hb]
          exact ha
        rw [hmem, List.exists_mem_cons_iff, hline]
        show b ∈ a :: given ∨ _ ↔ _
        rw [List.mem_cons]
        tauto

/-- Lines are read if all that they give, with what was given before, is
consistent. -/
theorem exists_readArcs (harcs : Consistent arcs) (hgiven : ∀ a ∈ given, a ∈ arcs)
    (hlines : ∀ line ∈ lines,
      Text.words line = [] ∨ ∃ a ∈ arcs, a.GivenBy line ∧ a.Within count letters) :
    ∃ found, readArcs count letters number given lines = .ok found := by
  have hpart : ∀ part : List Arc, (∀ a ∈ part, a ∈ arcs) → Consistent part :=
    fun part hpart a ha b hb => harcs a (hpart a ha) b (hpart b hb)
  induction lines generalizing number given with
  | nil => exact ⟨given, rfl⟩
  | cons line rest ih =>
      obtain ⟨hline, hrest⟩ := List.forall_mem_cons.1 hlines
      rcases hline with hw | ⟨a, ha, hgives, hwithin⟩
      · obtain ⟨found, hfound⟩ : ∃ found,
            readArcs count letters (number + 1) given rest = .ok found := ih hgiven hrest
        refine ⟨found, bind_eq_ok_iff.2 ⟨none, ?_, hfound⟩⟩
        exact (readArc_eq_ok_iff (hpart _ hgiven)).2 (Or.inl ⟨rfl, hw⟩)
      · have hmore : ∀ b ∈ a :: given, b ∈ arcs := List.forall_mem_cons.2 ⟨ha, hgiven⟩
        obtain ⟨found, hfound⟩ : ∃ found,
            readArcs count letters (number + 1) (a :: given) rest = .ok found := ih hmore hrest
        refine ⟨found, bind_eq_ok_iff.2 ⟨some a, ?_, hfound⟩⟩
        refine (readArc_eq_ok_iff (hpart _ hgiven)).2 (Or.inr ⟨a, rfl, hgives, hwithin, ?_⟩)
        exact hpart _ hmore

-- =========================================================== all lines

theorem ofLines_eq_ok_iff : ofLines lines = .ok l ↔
    (∃ ws, wordsAt lines 0 = some ws ∧ readCount ws = .ok l.count) ∧
    (∃ ws, wordsAt lines 1 = some ws ∧ ws.mapM readLetter = .ok l.letters) ∧
    (∃ ws, wordsAt lines 2 = some ws ∧ readStart l.count ws = .ok l.start) ∧
    (∃ ws, wordsAt lines 3 = some ws ∧ ws.mapM (readState l.count 4) = .ok l.accepting) ∧
    readArcs l.count l.letters 5 [] (lines.drop 4) = .ok l.arcs := by
  unfold ofLines
  simp only [bind_eq_ok_iff, heading_eq_ok_iff]
  constructor
  · intro h
    obtain ⟨ws, hws, n, hn, ls, hls, cs, hcs, ss, hss, s, hs, as, has, fs, hfs, ts, hts, h⟩ := h
    cases h
    exact ⟨⟨ws, hws, hn⟩, ⟨ls, hls, hcs⟩, ⟨ss, hss, hs⟩, ⟨as, has, hfs⟩, hts⟩
  · intro h
    obtain ⟨⟨ws, hws, hn⟩, ⟨ls, hls, hcs⟩, ⟨ss, hss, hs⟩, ⟨as, has, hfs⟩, hts⟩ := h
    exact ⟨ws, hws, _, hn, ls, hls, _, hcs, ss, hss, _, hs, as, has, _, hfs, _, hts, rfl⟩

/-- What is read is spelled by the lines, and its parts fit together. -/
theorem spells_of_ofLines (h : ofLines lines = .ok l) : Spells lines l ∧ l.Coherent := by
  obtain ⟨⟨_, hcount, hn⟩, ⟨_, hletters, hcs⟩, ⟨_, hstart, hs⟩, ⟨ws, haccepting, hfs⟩, harcs⟩ :=
    ofLines_eq_ok_iff.1 h
  obtain ⟨w, rfl, hw, hpos⟩ := readCount_eq_ok_iff.1 hn
  obtain ⟨v, rfl, hv, hlt⟩ := readStart_eq_ok_iff.1 hs
  obtain ⟨hnumerals, hall⟩ := mapM_readState_eq_ok_iff.1 hfs
  rw [mapM_readLetter_eq_ok_iff.1 hcs] at hletters
  have hnone : Consistent [] := fun a ha => absurd ha List.not_mem_nil
  obtain ⟨hconsistent, hlines, hmem⟩ := readArcs_sound hnone harcs
  simp only [List.not_mem_nil, false_or] at hmem
  refine ⟨⟨⟨w, hcount, hw⟩, hletters, ⟨v, hstart, hv⟩, ⟨ws, haccepting, hnumerals⟩, hmem, ?_⟩,
    ⟨hpos, hlt, hall, ?_, hconsistent⟩⟩
  · intro line hline
    refine (hlines line hline).imp_right fun h => ?_
    obtain ⟨a, ha, -⟩ := h
    exact ⟨a, ha⟩
  · intro a ha
    obtain ⟨line, hline, hgiven⟩ := (hmem a).1 ha
    rcases hlines line hline with hw | ⟨b, hb, hwithin⟩
    · exact absurd hw hgiven.words_ne_nil
    · rwa [hgiven.unique hb]

/-- Lines that spell a listing whose parts fit together are read. -/
theorem exists_ofLines (hl : Spells lines l) (h : l.Coherent) :
    ∃ k, ofLines lines = .ok k ∧ l.Same k ∧ k.Coherent := by
  obtain ⟨w, hcount, hw⟩ := hl.count
  obtain ⟨v, hstart, hv⟩ := hl.start
  obtain ⟨ws, haccepting, hnumerals⟩ := hl.accepting
  have hlines : ∀ line ∈ lines.drop 4, Text.words line = [] ∨
      ∃ a ∈ l.arcs, a.GivenBy line ∧ a.Within l.count l.letters := by
    intro line hline
    refine (hl.blank_or_given line hline).imp_right fun hgiven => ?_
    obtain ⟨a, ha⟩ := hgiven
    have hmem := (hl.mem_arcs_iff a).2 ⟨line, hline, ha⟩
    exact ⟨a, hmem, ha, h.within a hmem⟩
  obtain ⟨arcs, harcs⟩ : ∃ arcs, readArcs l.count l.letters 5 [] (lines.drop 4) = .ok arcs :=
    exists_readArcs h.consistent (fun a ha => absurd ha List.not_mem_nil) hlines
  have hk : ofLines lines = .ok { l with arcs := arcs } := by
    refine ofLines_eq_ok_iff.2 ⟨⟨_, hcount, ?_⟩, ⟨_, hl.letters, ?_⟩, ⟨_, hstart, ?_⟩,
      ⟨_, haccepting, ?_⟩, harcs⟩
    · exact readCount_eq_ok_iff.2 ⟨w, rfl, hw, h.count_pos⟩
    · exact mapM_readLetter_eq_ok_iff.2 rfl
    · exact readStart_eq_ok_iff.2 ⟨v, rfl, hv, h.start_lt⟩
    · exact mapM_readState_eq_ok_iff.2 ⟨hnumerals, h.accepting_lt⟩
  obtain ⟨hspells, hcoherent⟩ := spells_of_ofLines hk
  exact ⟨_, hk, hl.same hspells, hcoherent⟩

end Listing

end Automata
