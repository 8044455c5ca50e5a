/-
One round of refinement, as a statement about the relation: two states
lie together after it when they did before and every letter leads them
together (`Covers.refine`).

The signature of a state is the list of the numbers of the blocks that
the letters lead to, so on covered states it is a function, `marks`, and
a group of a split holds the states of one block with the same marks.
Groups of one block differ in their marks and groups of different blocks
lie in different blocks, so all groups of a round are disjoint and none
is lost when they are put in order again.
-/
import Automata.Partition.Refinement
import Automata.Proofs.Partition.Blocks
import Automata.Proofs.Words

namespace Automata

namespace Partition

variable {P Q : Partition} {A : Automaton}

-- ======================================================== signatures

/-- The numbers of the blocks that the letters lead to from a state. -/
def marks (P : Partition) (A : Automaton) (letters : List Symbol) (s : Symbol) : List Nat :=
  letters.map fun c => P.number (A.next s c)

theorem marks_congr {letters : List Symbol} {s t : Symbol} (h : s ≈ t) :
    P.marks A letters s = P.marks A letters t := by
  unfold marks
  refine List.map_congr_left fun c _ => ?_
  exact number_congr (Automaton.next_congr h (Setoid.refl c))

theorem marks_eq_iff {letters : List Symbol} {s t : Symbol} :
    P.marks A letters s = P.marks A letters t ↔
      ∀ c ∈ letters, P.number (A.next s c) = P.number (A.next t c) := List.map_inj_left

theorem Covers.blockOf_eq_ok (hP : P.Covers A) {s : Symbol} (hs : s ∈ A.states) :
    P.blockOf s = .ok (P.number s) := SymbolMap.fetch_eq_ok (hP.blockOf?_eq hs)

/-- A state has a row, and a letter an entry in it, that can be fetched. -/
theorem exists_fetch {s : Symbol} (hs : s ∈ A.states) :
    ∃ row, A.delta.fetch s = .ok row ∧ ∀ c ∈ A.alphabet, row.fetch c = .ok (A.next s c) := by
  obtain ⟨row, hrow⟩ := A.exists_row hs
  refine ⟨row, SymbolMap.fetch_eq_ok hrow, fun c hc => SymbolMap.fetch_eq_ok ?_⟩
  have hmove := Automaton.move?_eq_some_next hs hc
  unfold Description.move? at hmove
  rwa [hrow, Option.bind_some] at hmove

/-- The signature of a covered state is the list of its marks. -/
theorem Covers.signature_eq_ok (hP : P.Covers A) {s : Symbol} (hs : s ∈ A.states)
    {letters : List Symbol} (hl : A.Over letters) :
    P.signature A s letters = .ok (P.marks A letters s) := by
  obtain ⟨row, hrow, hentry⟩ := exists_fetch hs
  unfold signature marks
  rw [hrow]
  refine mapM_eq_ok fun c hc => ?_
  rw [hentry c (hl c hc)]
  exact hP.blockOf_eq_ok (Automaton.next_mem hs (hl c hc))

-- ============================================================ groups

/-- The states of a set with the given mark. -/
def group {μ : Type} [DecidableEq μ] (S : SymbolSet) (f : Symbol → μ) (m : μ) : SymbolSet :=
  .ofList (((S.listing.map fun s => (s, f s)).filter fun e => decide (e.2 = m)).map Prod.fst)

theorem mem_group {μ : Type} [DecidableEq μ] {S : SymbolSet} {f : Symbol → μ}
    (hf : ∀ s t, s ≈ t → f s = f t) {m : μ} {s : Symbol} :
    s ∈ group S f m ↔ s ∈ S ∧ f s = m := by
  unfold group
  simp only [SymbolSet.mem_ofList, List.mem_map, List.mem_filter, decide_eq_true_eq,
    SymbolSet.mem_listing]
  constructor
  · intro h
    obtain ⟨_, ⟨e, ⟨⟨t, ht, rfl⟩, rfl⟩, rfl⟩, hst⟩ := h
    exact ⟨⟨t, ht, hst⟩, hf s t hst⟩
  · intro h
    obtain ⟨⟨t, ht, hst⟩, hm⟩ := h
    exact ⟨t, ⟨(t, f t), ⟨⟨t, ht, rfl⟩, (hf s t hst).symm.trans hm⟩, rfl⟩, hst⟩

/-- The groups that a split of a set by letters gives. -/
def groups (P : Partition) (A : Automaton) (letters : List Symbol) (S : SymbolSet) :
    List SymbolSet :=
  gather (S.listing.map fun s => (s, P.marks A letters s))

/-- A set of covered states is split into its groups. -/
theorem Covers.split_eq_ok (hP : P.Covers A) {S : SymbolSet} (hS : ∀ s ∈ S, s ∈ A.states)
    {letters : List Symbol} (hl : A.Over letters) :
    P.split A S letters = .ok (P.groups A letters S) := by
  have hmarked : (S.listing.mapM fun s => return (s, ← P.signature A s letters))
      = (.ok (S.listing.map fun s => (s, P.marks A letters s)) : Except Fault _) := by
    refine mapM_eq_ok fun s hs => ?_
    have hmem := hS s (SymbolSet.mem_of_mem_toList (SymbolSet.mem_listing.1 hs))
    rw [hP.signature_eq_ok hmem hl]
    rfl
  unfold split
  rw [hmarked]
  rfl

variable {letters : List Symbol} {S : SymbolSet}

theorem groups_eq : P.groups A letters S =
    (distinct (S.listing.map (P.marks A letters))).map (group S (P.marks A letters)) := by
  unfold groups gather
  rw [List.map_map]
  rfl

theorem mem_group_marks {m : List Nat} {s : Symbol} :
    s ∈ group S (P.marks A letters) m ↔ s ∈ S ∧ P.marks A letters s = m :=
  mem_group fun _ _ => marks_congr

/-- Every group holds the states of the set with the marks of one of them. -/
theorem exists_of_mem_groups {g : SymbolSet} (h : g ∈ P.groups A letters S) :
    ∃ s ∈ S, ∀ t, t ∈ g ↔ t ∈ S ∧ P.marks A letters t = P.marks A letters s := by
  rw [groups_eq] at h
  obtain ⟨m, hm, rfl⟩ := List.mem_map.1 h
  obtain ⟨s, hs, rfl⟩ := List.mem_map.1 (mem_distinct.1 hm)
  exact ⟨s, SymbolSet.mem_of_mem_toList (SymbolSet.mem_listing.1 hs), fun _ => mem_group_marks⟩

theorem exists_group {s : Symbol} (hs : s ∈ S) : ∃ g ∈ P.groups A letters S, s ∈ g := by
  obtain ⟨t, ht, hst⟩ := hs
  refine ⟨group S (P.marks A letters) (P.marks A letters t), ?_, ?_⟩
  · rw [groups_eq]
    exact List.mem_map_of_mem
      (mem_distinct.2 (List.mem_map_of_mem (SymbolSet.mem_listing.2 ht)))
  · exact mem_group_marks.2 ⟨⟨t, ht, hst⟩, marks_congr hst⟩

theorem pairwise_groups : (P.groups A letters S).Pairwise SymbolSet.Disjoint := by
  rw [groups_eq]
  refine List.pairwise_map.2 ((nodup_distinct _).imp fun {m n} hne s hm hn => hne ?_)
  rw [← (mem_group_marks.1 hm).2, ← (mem_group_marks.1 hn).2]

/-- Two states share a group when both lie in the set with the same marks. -/
theorem exists_groups_iff {s t : Symbol} : (∃ g ∈ P.groups A letters S, s ∈ g ∧ t ∈ g) ↔
    s ∈ S ∧ t ∈ S ∧ P.marks A letters s = P.marks A letters t := by
  constructor
  · intro h
    obtain ⟨g, hg, hsg, htg⟩ := h
    obtain ⟨r, -, hr⟩ := exists_of_mem_groups hg
    obtain ⟨hs, hsr⟩ := (hr s).1 hsg
    obtain ⟨ht, htr⟩ := (hr t).1 htg
    exact ⟨hs, ht, hsr.trans htr.symm⟩
  · intro h
    obtain ⟨hs, ht, hst⟩ := h
    obtain ⟨g, hg, hsg⟩ : ∃ g ∈ P.groups A letters S, s ∈ g := exists_group hs
    obtain ⟨r, -, hr⟩ := exists_of_mem_groups hg
    exact ⟨g, hg, hsg, (hr t).2 ⟨ht, hst.symm.trans ((hr s).1 hsg).2⟩⟩

-- ========================================================= the round

/-- Covered states have the same marks for all letters when every letter
leads them together. -/
theorem Covers.marks_letters_eq_iff (hP : P.Covers A) {s t : Symbol} (hs : s ∈ A.states)
    (ht : t ∈ A.states) : P.marks A A.letters s = P.marks A A.letters t ↔
      ∀ c ∈ A.alphabet, P.Together (A.next s c) (A.next t c) := by
  rw [marks_eq_iff]
  constructor
  · intro h c hc
    refine (hP.together_iff (Automaton.next_mem hs hc) (Automaton.next_mem ht hc)).2 ?_
    obtain ⟨d, hd, hcd⟩ := hc
    have hnumber := h d (Automaton.mem_letters.2 hd)
    rw [number_congr (Automaton.next_congr (Setoid.refl s) hcd), hnumber]
    exact number_congr (Automaton.next_congr (Setoid.refl t) (Setoid.symm hcd))
  · intro h c hc
    have hmem := Automaton.over_letters c hc
    exact (hP.together_iff (Automaton.next_mem hs hmem) (Automaton.next_mem ht hmem)).1 (h c hmem)

/-- The groups of all blocks. -/
def regrouped (P : Partition) (A : Automaton) : List SymbolSet :=
  P.blocks.flatMap (P.groups A A.letters)

theorem pairwise_regrouped : (P.regrouped A).Pairwise SymbolSet.Disjoint := by
  refine List.pairwise_flatMap.2 ⟨fun b _ => pairwise_groups, ?_⟩
  have hblocks := (List.pairwise_flatMap.1 P.areBlocks.distinct).2
  refine hblocks.imp fun {b c} hbc g hg k hk s hsg hsk => ?_
  obtain ⟨_, -, hgb⟩ := exists_of_mem_groups hg
  obtain ⟨_, -, hkc⟩ := exists_of_mem_groups hk
  obtain ⟨x, hx, hsx⟩ := ((hgb s).1 hsg).1
  obtain ⟨y, hy, hsy⟩ := ((hkc s).1 hsk).1
  exact hbc x hx y hy (Setoid.trans (Setoid.symm hsx) hsy)

theorem Covers.mem_states_of_mem (hP : P.Covers A) {b : SymbolSet} (hb : b ∈ P.blocks)
    {s : Symbol} (hs : s ∈ b) : s ∈ A.states := (hP s).1 ⟨b, hb, hs⟩

theorem Covers.mem_states_of_mem_regrouped (hP : P.Covers A) :
    ∀ g ∈ P.regrouped A, ∀ s ∈ g, s ∈ A.states := by
  intro g hg s hs
  obtain ⟨b, hb, hgb⟩ := List.mem_flatMap.1 hg
  obtain ⟨_, -, hmem⟩ := exists_of_mem_groups hgb
  exact hP.mem_states_of_mem hb ((hmem s).1 hs).1

/-- Two states share a group of a block when they lay together and every
letter leads them together. -/
theorem Covers.exists_regrouped_iff (hP : P.Covers A) {s t : Symbol} :
    (∃ g ∈ P.regrouped A, s ∈ g ∧ t ∈ g) ↔
      P.Together s t ∧ ∀ c ∈ A.alphabet, P.Together (A.next s c) (A.next t c) := by
  constructor
  · intro h
    obtain ⟨g, hg, hst⟩ := h
    obtain ⟨b, hb, hgb⟩ := List.mem_flatMap.1 hg
    obtain ⟨hs, ht, hmarks⟩ := exists_groups_iff.1 ⟨g, hgb, hst⟩
    have hs' := hP.mem_states_of_mem hb hs
    have ht' := hP.mem_states_of_mem hb ht
    exact ⟨⟨b, hb, hs, ht⟩, (hP.marks_letters_eq_iff hs' ht').1 hmarks⟩
  · intro h
    obtain ⟨⟨b, hb, hs, ht⟩, hnext⟩ := h
    have hmarks := (hP.marks_letters_eq_iff (hP.mem_states_of_mem hb hs)
      (hP.mem_states_of_mem hb ht)).2 hnext
    obtain ⟨g, hg, hst⟩ := exists_groups_iff.2 ⟨hs, ht, hmarks⟩
    exact ⟨g, List.mem_flatMap.2 ⟨b, hb, hg⟩, hst⟩

/-- A round against a partition of the states gives a partition of the
states, and says when two of them lie together in it. -/
theorem Covers.exists_refine (hP : P.Covers A) :
    ∃ Q, P.refine A = .ok Q ∧ Q.Covers A ∧ ∀ s t, Q.Together s t ↔
      P.Together s t ∧ ∀ c ∈ A.alphabet, P.Together (A.next s c) (A.next t c) := by
  have hsplit : (P.blocks.mapM fun b => P.split A b A.letters)
      = .ok (P.blocks.map (P.groups A A.letters)) :=
    mapM_eq_ok fun b hb => hP.split_eq_ok (fun _ => hP.mem_states_of_mem hb) Automaton.over_letters
  obtain ⟨Q, hQ, hblocks⟩ := exists_ofBlocks hP.comparable_states
    hP.mem_states_of_mem_regrouped pairwise_regrouped
  have htogether : ∀ s t, Q.Together s t ↔
      P.Together s t ∧ ∀ c ∈ A.alphabet, P.Together (A.next s c) (A.next t c) := by
    intro s t
    rw [together_of_mem_blocks_iff hblocks, hP.exists_regrouped_iff]
  refine ⟨Q, ?_, ?_, htogether⟩
  · unfold refine
    rw [hsplit]
    exact hQ
  · refine covers_iff.2 fun s => ?_
    rw [htogether, covers_iff.1 hP s]
    refine and_iff_left_of_imp fun hs c hc => ?_
    exact hP.together_refl (Automaton.next_mem hs hc)

theorem Covers.refine (hP : P.Covers A) (hQ : P.refine A = .ok Q) :
    Q.Covers A ∧ ∀ s t, Q.Together s t ↔
      P.Together s t ∧ ∀ c ∈ A.alphabet, P.Together (A.next s c) (A.next t c) := by
  obtain ⟨R, hR, hspec⟩ := hP.exists_refine
  rw [hQ, Except.ok.injEq] at hR
  exact hR ▸ hspec

theorem Covers.finer_refine (hP : P.Covers A) (hQ : P.refine A = .ok Q) : Q.Finer P :=
  fun s t hst => (((hP.refine hQ).2 s t).1 hst).1

end Partition

end Automata
