/-
What splitting a set of states by letters depends on: the letters, but not
how they are listed.

A state is marked by the row of the blocks that the letters lead to, so
other letters, or the same in another order, give other marks and meet
them in another order. But states have equal marks just when each letter
leads them to one block (`marks_eq_iff`), and there the order of the
letters is gone, and how often each is listed. A group is the part of the
set that has the marks of one of its members (`mem_groups_iff`), so from
equal kernels of marks come the same groups (`perm_groups`), and from more
letters smaller ones (`exists_groups_superset`).

This holds of any set of states and any partition of them, and in
whatever order the set is gone through.
-/
import Automata.Proofs.Enumeration
import Automata.Proofs.Partition.Greatest

namespace Automata.Partition

variable {P : Partition} {A : Automaton} {S : SymbolSet} {letters more : List Symbol}

-- ============================================================ groups

/-- The groups are the parts of the set of which the members have the
marks of one of them. -/
theorem mem_groups_iff {g : SymbolSet} : g ∈ P.groups A letters S ↔ ∃ s ∈ S.toList,
    g = S.filter fun t => decide (P.marks A letters t = P.marks A letters s) := by
  unfold groups
  rw [gather_eq S.perm_listing]
  simp only [List.mem_map, mem_distinct, SymbolSet.mem_listing, exists_exists_and_eq_and]
  exact exists_congr fun s => and_congr_right fun _ => eq_comm

theorem exists_mem_of_mem_groups {g : SymbolSet} (hg : g ∈ P.groups A letters S) : ∃ s, s ∈ g := by
  obtain ⟨s, hs, hmem⟩ := exists_of_mem_groups hg
  exact ⟨s, (hmem s).2 ⟨hs, rfl⟩⟩

/-- No group comes twice: it would have a member in common with itself. -/
theorem nodup_groups : (P.groups A letters S).Nodup := by
  refine pairwise_groups.imp_of_mem fun {g h} hg _ hdisjoint heq => ?_
  subst heq
  obtain ⟨s, hs⟩ := exists_mem_of_mem_groups hg
  exact hdisjoint s hs hs

theorem parts_groups : SymbolSet.Parts (P.groups A letters S) S where
  nonempty := fun _ => exists_mem_of_mem_groups
  disjoint := pairwise_groups
  covers := by
    intro s
    have hshared : (∃ g ∈ P.groups A letters S, s ∈ g ∧ s ∈ g) ↔ _ := exists_groups_iff
    simp only [and_self, and_true] at hshared
    exact hshared

-- =========================================================== letters

/-- States with the same marks for some letters have them for letters that
are among these. -/
theorem marks_eq_of_among (h : ∀ c ∈ letters, c.Among more) {s t : Symbol}
    (hst : P.marks A more s = P.marks A more t) : P.marks A letters s = P.marks A letters t := by
  rw [marks_eq_iff] at hst ⊢
  intro c hc
  obtain ⟨d, hd, hcd⟩ := h c hc
  have hleads : ∀ u : Symbol, P.number (A.next u c) = P.number (A.next u d) :=
    fun u => number_congr (Automaton.next_congr (Setoid.refl u) hcd)
  rw [hleads s, hleads t]
  exact hst d hd

/-- The same letters, in whatever order and however often, leave the same
states with equal marks. -/
theorem marks_eq_iff_of_sameElements (h : Symbol.SameElements letters more) {s t : Symbol} :
    P.marks A letters s = P.marks A letters t ↔ P.marks A more s = P.marks A more t := by
  refine ⟨marks_eq_of_among fun d hd => ?_, marks_eq_of_among h.1⟩
  obtain ⟨c, hc, hcd⟩ := h.2 d hd
  exact ⟨c, hc, Setoid.symm hcd⟩

/-- The same letters give the same groups, perhaps in another order. -/
theorem perm_groups (h : Symbol.SameElements letters more) :
    (P.groups A letters S).Perm (P.groups A more S) := by
  refine (List.perm_ext_iff_of_nodup nodup_groups nodup_groups).2 fun g => ?_
  simp only [mem_groups_iff, marks_eq_iff_of_sameElements h]

/-- More letters give groups that lie in those that fewer give. -/
theorem exists_groups_superset (h : ∀ c ∈ letters, c.Among more) {g : SymbolSet}
    (hg : g ∈ P.groups A more S) : ∃ f ∈ P.groups A letters S, ∀ s ∈ g, s ∈ f := by
  obtain ⟨r, hr, hgr⟩ := exists_of_mem_groups hg
  obtain ⟨f, hf, hrf⟩ : ∃ f ∈ P.groups A letters S, r ∈ f := exists_group hr
  refine ⟨f, hf, fun s hs => ?_⟩
  obtain ⟨hsS, hmarks⟩ := (hgr s).1 hs
  obtain ⟨_, -, hmem⟩ := exists_of_mem_groups hf
  exact (hmem s).2 ⟨hsS, (marks_eq_of_among h hmarks).trans ((hmem r).1 hrf).2⟩

-- =========================================================== the split

/-- The groups are parts of the set, and two of its members share a group
just when every letter leads them to states with the same number. -/
structure SplitBy (P : Partition) (A : Automaton) (letters : List Symbol) (S : SymbolSet)
    (gs : List SymbolSet) : Prop where
  parts : SymbolSet.Parts gs S
  shared : ∀ s ∈ S, ∀ t ∈ S, (∃ g ∈ gs, s ∈ g ∧ t ∈ g) ↔ ∀ c ∈ letters, ∃ u v i,
    A.transition s c = .ok u ∧ A.transition t c = .ok v ∧ P.blockOf u = .ok i ∧ P.blockOf v = .ok i

theorem Covers.splitBy_groups (hP : P.Covers A) (hS : ∀ s ∈ S, s ∈ A.states)
    (hl : A.Over letters) : P.SplitBy A letters S (P.groups A letters S) where
  parts := parts_groups
  shared := by
    intro s hs t ht
    rw [exists_groups_iff, and_iff_right hs, and_iff_right ht, marks_eq_iff]
    refine forall_congr' fun c => imp_congr_right fun hc => ?_
    have hu := hP.blockOf_eq_ok (Automaton.next_mem (hS s hs) (hl c hc))
    have hv := hP.blockOf_eq_ok (Automaton.next_mem (hS t ht) (hl c hc))
    rw [Automaton.transition_eq_ok (hS s hs) (hl c hc),
      Automaton.transition_eq_ok (hS t ht) (hl c hc)]
    constructor
    · intro h
      exact ⟨_, _, _, rfl, rfl, hu, h ▸ hv⟩
    · intro h
      obtain ⟨u, v, i, hu', hv', hui, hvi⟩ := h
      rw [← Except.ok.inj hu', hu] at hui
      rw [← Except.ok.inj hv', hv] at hvi
      exact (Except.ok.inj hui).trans (Except.ok.inj hvi).symm

/-- A set of states is split by letters into parts. Two states share a part
just when every letter leads them to one block. The same letters in
another order, or listed again, give the same parts up to order, and so
does another order of the states; more letters give parts of these. -/
theorem split_exact (hP : P.Covers A) (hS : ∀ s ∈ S, s ∈ A.states) (hl : A.Over letters)
    (hm : A.Over more) :
    ∃ gs hs, P.split A S letters = .ok gs ∧ P.split A S more = .ok hs ∧
      P.SplitBy A letters S gs ∧ (Symbol.SameElements letters more → gs.Perm hs) ∧
      ((∀ c ∈ letters, c.Among more) → ∀ h ∈ hs, ∃ g ∈ gs, ∀ s ∈ h, s ∈ g) ∧
      ∀ e, ∃ gs', P.splitIn e A S letters = .ok gs' ∧ gs.Perm gs' :=
  ⟨_, _, hP.split_eq_ok hS hl, hP.split_eq_ok hS hm, hP.splitBy_groups hS hl, perm_groups,
    fun h _ => exists_groups_superset h, fun _ => ⟨_, hP.splitIn_eq_ok hS hl, perm_groupsIn⟩⟩

/-- Every state in a block of its own. -/
def oddCountApart : Partition where
  blocks := [.ofList [.int 0], .ofList [.int 1], .ofList [.int 2]]
  index := numbering [.ofList [.int 0], .ofList [.int 1], .ofList [.int 2]]
  areBlocks := ⟨by decide, by decide, by decide, by decide⟩
  index_eq := rfl

/-- By "a" alone 1 and 2 stay together; "b" parts them, wherever it is
listed. -/
theorem split_exact_oddCount :
    oddCountApart.Covers .oddCount ∧
      (∀ s ∈ Automaton.oddCount.states, s ∈ Automaton.oddCount.states) ∧
      Automaton.oddCount.Over [.str "a"] ∧ Automaton.oddCount.Over [.str "b", .str "a", .str "b"] ∧
      Automaton.oddCount.Over [.str "a", .str "b"] ∧
      (∃ gs hs, oddCountApart.split .oddCount Automaton.oddCount.states [.str "a"] = .ok gs ∧
        oddCountApart.split .oddCount Automaton.oddCount.states [.str "b", .str "a", .str "b"] =
          .ok hs ∧
        oddCountApart.SplitBy .oddCount [.str "a"] Automaton.oddCount.states gs ∧
        ∀ h ∈ hs, ∃ g ∈ gs, ∀ s ∈ h, s ∈ g) ∧
      ∃ gs hs,
        oddCountApart.split .oddCount Automaton.oddCount.states [.str "a", .str "b"] = .ok gs ∧
        oddCountApart.split .oddCount Automaton.oddCount.states [.str "b", .str "a", .str "b"] =
          .ok hs ∧
        gs.Perm hs := by
  have hP : oddCountApart.Covers .oddCount := by decide +kernel
  have hS : ∀ s ∈ Automaton.oddCount.states, s ∈ Automaton.oddCount.states := fun _ => id
  have ha : .str "a" ∈ Automaton.oddCount.alphabet := by decide
  have hb : .str "b" ∈ Automaton.oddCount.alphabet := by decide
  have hone : Automaton.oddCount.Over [.str "a"] := by simp [ha]
  have hboth : Automaton.oddCount.Over [.str "a", .str "b"] := by simp [ha, hb]
  have hagain : Automaton.oddCount.Over [.str "b", .str "a", .str "b"] := by simp [ha, hb]
  obtain ⟨gs, hs, hgs, hhs, hsplit, -, hfiner, -⟩ := split_exact hP hS hone hagain
  obtain ⟨gs', hs', hgs', hhs', -, hperm, -⟩ := split_exact hP hS hboth hagain
  exact ⟨hP, hS, hone, hagain, hboth, ⟨gs, hs, hgs, hhs, hsplit, hfiner (by decide)⟩,
    gs', hs', hgs', hhs', hperm (by decide)⟩

example : (do
    let gs ← oddCountApart.split .oddCount Automaton.oddCount.states [.str "a"]
    let hs ← oddCountApart.split .oddCount Automaton.oddCount.states [.str "b", .str "a", .str "b"]
    return (gs.map SymbolSet.toList, hs.map SymbolSet.toList)) =
      .ok ([[.int 0], [.int 1, .int 2]], [[.int 0], [.int 1], [.int 2]]) := by
  decide +kernel

end Automata.Partition
