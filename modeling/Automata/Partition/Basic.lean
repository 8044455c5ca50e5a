/-
Partitions: disjoint, nonempty blocks, in the order of their least
members by size.

That order is part of the type, so a partition has one representation,
and the number of a block depends on nothing but the members of the
blocks. Least members exist by size only among comparable symbols, so
comparability of all members is part of it too. The numbers of the
blocks are kept in an index, which the blocks determine.

Main statements: listed blocks overlap just when fewer symbols are
numbered than they have members (`size_numbering_iff`), and the number of
a symbol is that of the block that it lies in (`blockOf?_eq_some_iff`).
-/
import Automata.Fault

namespace Automata

-- ==================================================== distinct symbols

/-- No two of the symbols are alike. -/
def Symbol.Distinct (xs : List Symbol) : Prop := xs.Pairwise fun x y => ¬x ≈ y

theorem SymbolSet.distinct_toList (s : SymbolSet) : Symbol.Distinct s.toList :=
  s.increasing.imp Symbol.not_alike_of_lt

theorem SymbolSet.distinct_listing (s : SymbolSet) : Symbol.Distinct s.listing :=
  (s.perm_listing.pairwise_iff fun {_ _} h h' => h (Setoid.symm h')).2 s.distinct_toList

theorem Symbol.size_foldl_insert_le (xs : List Symbol) (t : Std.TreeSet Symbol Symbol.order) :
    (xs.foldl .insert t).size ≤ t.size + xs.length := by
  induction xs generalizing t with
  | nil => simp
  | cons x xs ih =>
    refine Nat.le_trans (ih _) ?_
    rw [Std.TreeSet.size_insert, List.length_cons]
    split <;> omega

theorem Symbol.size_foldl_insert_eq_iff (xs : List Symbol) (t : Std.TreeSet Symbol Symbol.order) :
    (xs.foldl .insert t).size = t.size + xs.length ↔ (∀ x ∈ xs, ¬x ∈ t) ∧ Distinct xs := by
  induction xs generalizing t with
  | nil => simp [Distinct]
  | cons x xs ih =>
    have hs : (t.insert x).size = if x ∈ t then t.size else t.size + 1 := by
      simp only [Std.TreeSet.size_insert, Std.TreeSet.mem_iff_contains]
    rw [List.foldl_cons, List.length_cons, List.forall_mem_cons, Distinct, List.pairwise_cons]
    by_cases hx : x ∈ t
    · have hle := size_foldl_insert_le xs (t.insert x)
      rw [if_pos hx] at hs
      refine iff_of_false (by omega) fun h => h.1.1 hx
    · rw [if_neg hx] at hs
      have := ih (t.insert x)
      rw [hs, Nat.add_right_comm, Nat.add_assoc] at this
      rw [this]
      simp only [Std.TreeSet.mem_insert, not_or, order_eq_iff, hx, not_false_eq_true, true_and]
      exact ⟨fun ⟨h, hd⟩ => ⟨fun y hy => (h y hy).2, fun y hy => (h y hy).1, hd⟩,
        fun ⟨h, h', hd⟩ => ⟨fun y hy => ⟨h' y hy, h y hy⟩, hd⟩⟩

/-- Symbols are distinct when as many are left in a set of them. -/
theorem Symbol.size_ofList_eq_length_iff {xs : List Symbol} :
    (SymbolSet.ofList xs).size = xs.length ↔ Distinct xs := by
  have := size_foldl_insert_eq_iff xs ∅
  rw [← SymbolSet.length_toList, SymbolSet.ofList, SymbolSet.toList_ofTree,
    Std.TreeSet.length_toList]
  simpa using this

instance (xs : List Symbol) : Decidable (Symbol.Distinct xs) :=
  decidable_of_iff _ Symbol.size_ofList_eq_length_iff

-- ============================================================== blocks

/-- Whether the first symbol is smaller than the second, or only the
second is there. -/
def Symbol.precedes : Option Symbol → Option Symbol → Bool
  | some x, some y => decide (x < y)
  | none, some _ => true
  | _, none => false

/-- Whether the least member of the first set is smaller than that of
the second; an empty set comes first. -/
def SymbolSet.leads (b c : SymbolSet) : Bool := Symbol.precedes b.least? c.least?

/-- The members of blocks, block by block. -/
def membersOf (bs : List SymbolSet) : List Symbol := bs.flatMap SymbolSet.toList

/-- How many members blocks have, counted block by block. -/
def memberCount (bs : List SymbolSet) : Nat := bs.foldr (fun b n => b.size + n) 0

theorem memberCount_eq_length (bs : List SymbolSet) : memberCount bs = (membersOf bs).length := by
  induction bs with
  | nil => rfl
  | cons b bs ih =>
    rw [membersOf, List.flatMap_cons, List.length_append, SymbolSet.length_toList]
    exact congrArg (b.size + ·) ih

/-- The number of its block for each member of numbered blocks. -/
def numbering (bs : List SymbolSet) : SymbolMap Nat :=
  .ofList (bs.zipIdx.flatMap fun (b, i) => b.toList.map (·, i))

/-- As many symbols are numbered as there are different members. -/
theorem size_numbering (bs : List SymbolSet) :
    (numbering bs).size = (SymbolSet.ofList (membersOf bs)).size := by
  have hkeys : (bs.zipIdx.flatMap fun e => e.1.toList.map (·, e.2)).map Prod.fst =
      membersOf bs := by
    unfold membersOf
    conv => rhs; rw [← List.zipIdx_map_fst 0 bs, List.flatMap_map]
    simp only [List.map_flatMap, List.map_map, Function.comp_def, List.map_id']
  have hsize : (numbering bs).keys.size = (numbering bs).size := Array.size_map
  rw [← hsize, ← hkeys]
  exact SymbolSet.size_eq_of_alike (SymbolMap.keys_ofList_alike _)

/-- As many symbols are numbered as members are counted, block by block,
just when no two members are alike: a later block takes over the numbers
of the members that it shares with earlier ones. -/
theorem size_numbering_iff {bs : List SymbolSet} :
    (numbering bs).size = memberCount bs ↔ Symbol.Distinct (membersOf bs) := by
  rw [memberCount_eq_length, size_numbering, Symbol.size_ofList_eq_length_iff]

/-- What makes blocks a partition: they are nonempty and disjoint, their
least members increase, and all members can be compared by size. -/
structure AreBlocks (bs : List SymbolSet) : Prop where
  nonempty : ∀ b ∈ bs, b.isEmpty = false
  distinct : Symbol.Distinct (membersOf bs)
  leading : bs.Pairwise fun b c => b.leads c = true
  comparable : Symbol.Comparable (membersOf bs)

/-- A partition of a set of symbols into numbered blocks. -/
structure Partition where
  blocks : List SymbolSet
  index : SymbolMap Nat
  areBlocks : AreBlocks blocks
  index_eq : index = numbering blocks
  deriving DecidableEq

namespace Partition

/-- Whether blocks can be put in order: in each the sizes of members can
be compared, and so can the least members. -/
def Sortable (bs : List SymbolSet) : Prop :=
  (∀ b ∈ bs, Symbol.Comparable b.toList) ∧ Symbol.Comparable (bs.filterMap SymbolSet.least?)

instance (bs : List SymbolSet) : Decidable (Sortable bs) :=
  inferInstanceAs (Decidable (_ ∧ _))

theorem leads_asymm (b c : SymbolSet) (h : b.leads c = true) : ¬c.leads b = true := by
  rw [SymbolSet.leads] at h ⊢
  cases hb : b.least? <;> cases hc : c.least? <;> rw [hb, hc] at h <;>
    simp only [Symbol.precedes, decide_eq_true_eq, Bool.false_eq_true, not_false_eq_true] at h ⊢
  exact Symbol.lt_asymm h

theorem not_leads_trans (b c d : SymbolSet) (h : ¬c.leads b = true) (h' : ¬d.leads c = true) :
    ¬d.leads b = true := by
  rw [SymbolSet.leads] at h h' ⊢
  cases hb : b.least? <;> cases hc : c.least? <;> cases hd : d.least? <;>
    rw [hb, hc] at h <;> rw [hc, hd] at h' <;>
    simp only [Symbol.precedes, decide_eq_true_eq, Bool.false_eq_true, not_false_eq_true,
      not_true_eq_false] at h h' ⊢
  exact Symbol.not_lt_trans h h'

theorem exists_least {b : SymbolSet} (h : b.isEmpty = false) :
    ∃ m ∈ b.toList, b.least? = some m := by
  cases hm : b.least? with
  | none =>
    rw [SymbolSet.least?_eq_none_iff, h] at hm
    cases hm
  | some m => exact ⟨m, (SymbolSet.least?_eq_some_iff.1 hm).1, rfl⟩

/-- A member of a block is its least one or can be compared with it. -/
theorem eq_or_comparable_least {b : SymbolSet} (h : Symbol.Comparable b.toList) {m x : Symbol}
    (hm : b.least? = some m) (hx : x ∈ b.toList) : x = m ∨ m.comparable x = true := by
  have hc := Symbol.comparable_iff.1 h
  rw [SymbolSet.least?, ← Array.getElem?_toList, ← SymbolSet.toList] at hm
  cases hb : b.toList with
  | nil => rw [hb] at hx; cases hx
  | cons y ys =>
    rw [hb] at hm hx hc
    cases hm
    rcases List.mem_cons.1 hx with rfl | hx
    · exact Or.inl rfl
    · exact Or.inr (hc x hx)

theorem comparable_membersOf {bs : List SymbolSet} (hn : ∀ b ∈ bs, b.isEmpty = false)
    (hs : Sortable bs) : Symbol.Comparable (membersOf bs) := by
  refine List.pairwise_flatMap.2 ⟨hs.1, ?_⟩
  have hl := List.pairwise_filterMap.1 hs.2
  refine hl.imp_of_mem fun {b c} hb hc hbc x hx y hy => ?_
  obtain ⟨m, -, hm⟩ := exists_least (hn b hb)
  obtain ⟨n, -, hmn⟩ := exists_least (hn c hc)
  have hxn : x.comparable n = true := by
    rcases eq_or_comparable_least (hs.1 b hb) hm hx with rfl | h
    · exact hbc _ hm _ hmn
    · exact Symbol.comparable_trans h (hbc _ hm _ hmn)
  rcases eq_or_comparable_least (hs.1 c hc) hmn hy with rfl | h
  · exact hxn
  · exact Symbol.comparable_trans (by rwa [Symbol.comparable_comm]) h

theorem perm_membersOf_sortBy (bs : List SymbolSet) :
    (membersOf (sortBy SymbolSet.leads bs)).Perm (membersOf bs) :=
  (perm_sortBy _ bs).flatMap_right _

/-- Blocks that have been put in order and are disjoint are a partition. -/
theorem areBlocks_sortBy {bs : List SymbolSet} (hn : ∀ b ∈ bs, b.isEmpty = false)
    (hs : Sortable bs) (hd : Symbol.Distinct (membersOf (sortBy SymbolSet.leads bs))) :
    AreBlocks (sortBy SymbolSet.leads bs) := by
  have hn' : ∀ b ∈ sortBy SymbolSet.leads bs, b.isEmpty = false := fun b hb =>
    hn b (mem_sortBy.1 hb)
  refine ⟨hn', hd, ?_, ?_⟩
  · have h1 := pairwise_sortBy leads_asymm not_leads_trans bs
    have h2 := (List.pairwise_flatMap.1 hd).2
    refine (h1.and h2).imp_of_mem fun {b c} hb hc h => ?_
    obtain ⟨m, hmb, hm⟩ := exists_least (hn' b hb)
    obtain ⟨n, hnc, hnn⟩ := exists_least (hn' c hc)
    have h1 := h.1
    simp only [SymbolSet.leads, hm, hnn, Symbol.precedes, decide_eq_true_eq] at h1 ⊢
    rcases Symbol.lt_trichotomy m n with hlt | heq | hlt
    · exact hlt
    · exact absurd heq (h.2 m hmb n hnc)
    · exact absurd hlt h1
  · exact ((perm_membersOf_sortBy bs).pairwise_iff fun {x y} h => by
      rwa [Symbol.comparable_comm]).2 (comparable_membersOf hn hs)

/-- The partition into the given blocks, of which empty ones do not count.
They are numbered in their order, and they overlap if fewer symbols are
numbered than the blocks have members. -/
def ofBlocks (bs : List SymbolSet) : Except Fault Partition :=
  if hs : Sortable (bs.filter fun b => !b.isEmpty) then
    let ordered := sortBy SymbolSet.leads (bs.filter fun b => !b.isEmpty)
    let index := numbering ordered
    if hsize : index.size = memberCount ordered then
      .ok ⟨ordered, index, areBlocks_sortBy (fun _ hb => by simpa using (List.mem_filter.1 hb).2)
        hs (size_numbering_iff.1 hsize), rfl⟩
    else .error .overlap
  else .error .incomparable

/-- Partitions are alike when they differ at most in how members are written. -/
def Alike (P Q : Partition) : Prop := P.blocks.map SymbolSet.plain = Q.blocks.map SymbolSet.plain

instance : Setoid Partition where
  r := Alike
  iseqv := ⟨fun _ => rfl, Eq.symm, Eq.trans⟩

instance (P Q : Partition) : Decidable (P ≈ Q) :=
  inferInstanceAs (Decidable (P.blocks.map SymbolSet.plain = Q.blocks.map SymbolSet.plain))

/-- The number of blocks. -/
def size (P : Partition) : Nat := P.blocks.length

/-- The number of the block that a symbol lies in. -/
def blockOf? (P : Partition) (s : Symbol) : Option Nat := P.index.get? s

/-- The number of the block that a symbol lies in, or the fault that it
lies in none. -/
def blockOf (P : Partition) (s : Symbol) : Except Fault Nat := P.index.fetch s

/-- All members of blocks. -/
def members (P : Partition) : SymbolSet := P.index.keys

/-- The least member of each block. -/
def representatives (P : Partition) : List Symbol :=
  P.blocks.filterMap SymbolSet.least?

/-- A symbol has the number of the block that it lies in. -/
theorem blockOf?_eq_some_iff {P : Partition} {s : Symbol} {i : Nat} :
    P.blockOf? s = some i ↔ ∃ b, P.blocks[i]? = some b ∧ s ∈ b := by
  have mem : ∀ e : Symbol × Nat, e ∈ (P.blocks.zipIdx.flatMap fun (b, i) => b.toList.map (·, i)) ↔
      ∃ b, P.blocks[e.2]? = some b ∧ e.1 ∈ b.toList := by
    rintro ⟨x, j⟩
    simp only [List.mem_flatMap, List.mem_map, Prod.exists, List.mem_zipIdx_iff_getElem?,
      Prod.mk.injEq]
    constructor
    · intro h
      obtain ⟨b, k, hb, y, hy, rfl, rfl⟩ := h
      exact ⟨b, hb, hy⟩
    · intro h
      obtain ⟨b, hb, hx⟩ := h
      exact ⟨b, j, hb, x, hx, rfl, rfl⟩
  have unique : ∀ e f : Symbol × Nat, e.1 ≈ f.1 →
      (∃ b, P.blocks[e.2]? = some b ∧ e.1 ∈ b.toList) →
      (∃ b, P.blocks[f.2]? = some b ∧ f.1 ∈ b.toList) → e.2 = f.2 := by
    rintro ⟨x, j⟩ ⟨y, k⟩ hxy ⟨b, hb, hx⟩ ⟨c, hc, hy⟩
    have hd := List.pairwise_iff_getElem.1 (List.pairwise_flatMap.1 P.areBlocks.distinct).2
    obtain ⟨hj, rfl⟩ := List.getElem?_eq_some_iff.1 hb
    obtain ⟨hk, rfl⟩ := List.getElem?_eq_some_iff.1 hc
    rcases Nat.lt_trichotomy j k with h | h | h
    · exact absurd hxy (hd j k hj hk h x hx y hy)
    · exact h
    · exact absurd (Setoid.symm hxy) (hd k j hk hj h y hy x hx)
  rw [blockOf?, P.index_eq, numbering, SymbolMap.get?_ofList, Option.map_eq_some_iff]
  constructor
  · intro h
    obtain ⟨e, he, rfl⟩ := h
    obtain ⟨b, hb, hx⟩ := (mem e).1 (List.mem_reverse.1 (List.mem_of_find?_eq_some he))
    exact ⟨b, hb, e.1, hx, by simpa using List.find?_some he⟩
  · intro h
    obtain ⟨b, hb, x, hx, hsx⟩ := h
    have hxm := (mem (x, i)).2 ⟨b, hb, hx⟩
    cases h : (P.blocks.zipIdx.flatMap fun (b, i) => b.toList.map (·, i)).reverse.find?
        fun e => decide (s ≈ e.1) with
    | none =>
      have := List.find?_eq_none.1 h _ (List.mem_reverse.2 hxm)
      exact absurd hsx (by simpa using this)
    | some f =>
      refine ⟨f, rfl, ?_⟩
      have hsf : s ≈ f.1 := by simpa using List.find?_some h
      exact unique f (x, i) (Setoid.trans (Setoid.symm hsf) hsx)
        ((mem f).1 (List.mem_reverse.1 (List.mem_of_find?_eq_some h))) ⟨b, hb, hx⟩

end Partition

/-- The member of a block that stands for it: the smallest. -/
def SymbolSet.representative (b : SymbolSet) : Except Fault Symbol :=
  match b.least? with
  | none => .error .emptyBlock
  | some m => if Symbol.Comparable b.toList then .ok m else .error .incomparable

end Automata
