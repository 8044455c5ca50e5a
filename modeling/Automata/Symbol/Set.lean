/-
Finite sets of symbols.

A set holds its members in order of size, and of alike symbols at most
one. The order is part of the type, so a set has one representation: two
sets that give the same member for every symbol are equal
(`eq_of_find?_eq`), whatever lists they were made from. A symbol lies in
a set when it is alike to a member; the set knows how the member was
written (`find?`), and sets that differ in that only are alike.

Main statements: `find?_eq_some_iff` says which member is found,
`find?_ofList` and the lemmas on membership say what each operation
gives, and `alike_iff` that alike sets are those with the same members
up to writing.
-/
import Automata.Bisection
import Automata.Sorting
import Automata.Symbol.Basic

namespace Automata

/-- A finite set of symbols, held in order of size. -/
@[ext] structure SymbolSet where
  members : Array Symbol
  increasing : members.toList.Pairwise (· < ·)
  deriving DecidableEq

/-- An increasing list can be searched for a symbol by bisection. -/
theorem Symbol.bisectable {α : Type} {name : α → Symbol} {xs : List α}
    (h : xs.Pairwise fun x y => name x < name y) (x : Symbol) :
    Bisectable (fun y => x.order (name y)) xs :=
  h.imp fun {y z} hyz hxz => by
    refine Std.OrientedCmp.gt_iff_lt.2 ?_
    rcases Symbol.lt_trichotomy x (name z) with h | h | h
    · exact absurd h hxz
    · rwa [Symbol.order_congr (Symbol.alike_refl (name y)) h]
    · exact Symbol.lt_trans hyz h

namespace SymbolSet

-- ========================================================= membership

/-- The members in order of size. -/
def toList (s : SymbolSet) : List Symbol := s.members.toList

/-- The place among the members of the one that a symbol is alike to. -/
def position? (s : SymbolSet) (x : Symbol) : Option Nat := bisect (x.order ·) s.members

/-- The member that a symbol is alike to. -/
def find? (s : SymbolSet) (x : Symbol) : Option Symbol :=
  (s.position? x).bind fun i => s.members[i]?

instance : Membership Symbol SymbolSet where
  mem s x := ∃ y ∈ s.toList, x ≈ y

theorem mem_def {x : Symbol} {s : SymbolSet} : x ∈ s ↔ ∃ y ∈ s.toList, x ≈ y := Iff.rfl

/-- The place of a symbol is that of the member that it is alike to. -/
theorem position?_eq_some_iff {s : SymbolSet} {x : Symbol} {i : Nat} :
    s.position? x = some i ↔ ∃ y, s.members[i]? = some y ∧ x ≈ y := by
  refine (bisect_eq_some_iff (Symbol.bisectable s.increasing x)).trans ?_
  rw [Option.map_eq_some_iff]
  exact exists_congr fun y => and_congr_right fun _ => Symbol.order_eq_iff

/-- The symbol is found as the one member that it is alike to. -/
theorem find?_eq_some_iff {s : SymbolSet} {x y : Symbol} :
    s.find? x = some y ↔ y ∈ s.toList ∧ x ≈ y := by
  rw [find?, Option.bind_eq_some_iff]
  constructor
  · intro h
    obtain ⟨i, hi, hy⟩ := h
    obtain ⟨z, hz, hxz⟩ := position?_eq_some_iff.1 hi
    rw [hy, Option.some.injEq] at hz
    subst hz
    exact ⟨Array.mem_toList_iff.2 (Array.mem_of_getElem? hy), hxz⟩
  · intro h
    obtain ⟨hy, hxy⟩ := h
    obtain ⟨i, hi⟩ := Array.mem_iff_getElem?.1 (Array.mem_toList_iff.1 hy)
    exact ⟨i, position?_eq_some_iff.2 ⟨y, hi, hxy⟩, hi⟩

theorem mem_iff_isSome_find? {s : SymbolSet} {x : Symbol} :
    x ∈ s ↔ (s.find? x).isSome = true := by
  rw [Option.isSome_iff_exists]
  exact ⟨fun ⟨y, hy⟩ => ⟨y, find?_eq_some_iff.2 hy⟩, fun ⟨y, hy⟩ => ⟨y, find?_eq_some_iff.1 hy⟩⟩

instance (x : Symbol) (s : SymbolSet) : Decidable (x ∈ s) :=
  decidable_of_iff _ mem_iff_isSome_find?.symm

theorem mem_of_mem_toList {x : Symbol} {s : SymbolSet} (h : x ∈ s.toList) : x ∈ s :=
  ⟨x, h, rfl⟩

theorem mem_congr {x y : Symbol} {s : SymbolSet} (h : x ≈ y) : x ∈ s ↔ y ∈ s :=
  ⟨fun ⟨z, hz, hxz⟩ => ⟨z, hz, Setoid.trans (Setoid.symm h) hxz⟩,
    fun ⟨z, hz, hyz⟩ => ⟨z, hz, Setoid.trans h hyz⟩⟩

/-- A member is found as it is written. -/
theorem mem_toList_iff {x : Symbol} {s : SymbolSet} : x ∈ s.toList ↔ s.find? x = some x := by
  rw [find?_eq_some_iff]
  simp

/-- Alike members are one. -/
theorem eq_of_alike {x y : Symbol} {s : SymbolSet} (hx : x ∈ s.toList) (hy : y ∈ s.toList)
    (h : x ≈ y) : x = y := by
  have := find?_eq_some_iff.2 ⟨hy, h⟩
  rw [mem_toList_iff.1 hx, Option.some.injEq] at this
  exact this

theorem nodup_toList (s : SymbolSet) : s.toList.Nodup := by
  refine s.increasing.imp fun {x y} hlt heq => ?_
  subst heq
  exact Symbol.lt_irrefl x hlt

/-- The number of members. -/
def size (s : SymbolSet) : Nat := s.members.size

/-- Whether there is no member. -/
def isEmpty (s : SymbolSet) : Bool := s.members.isEmpty

instance : EmptyCollection SymbolSet where
  emptyCollection := ⟨#[], .nil⟩

@[simp] theorem length_toList (s : SymbolSet) : s.toList.length = s.size := Array.length_toList

theorem isEmpty_iff {s : SymbolSet} : s.isEmpty = true ↔ ∀ x, ¬x ∈ s := by
  rw [isEmpty, Array.isEmpty_iff, ← Array.toList_eq_nil_iff]
  refine ⟨fun h x ⟨y, hy, _⟩ => ?_, fun h => List.eq_nil_iff_forall_not_mem.2 fun x hx => ?_⟩
  · rw [toList, h] at hy
    cases hy
  · exact h x ⟨x, hx, rfl⟩

-- ======================================================== extensionality

/-- Two increasing lists with the same elements are the same list. -/
theorem eq_of_increasing {α : Type} {name : α → Symbol} {xs ys : List α}
    (hx : xs.Pairwise fun x y => name x < name y) (hy : ys.Pairwise fun x y => name x < name y)
    (h : ∀ x, x ∈ xs ↔ x ∈ ys) : xs = ys := by
  induction xs generalizing ys with
  | nil =>
    cases ys with
    | nil => rfl
    | cons y ys => exact absurd ((h y).2 List.mem_cons_self) List.not_mem_nil
  | cons x xs ih =>
    cases ys with
    | nil => exact absurd ((h x).1 List.mem_cons_self) List.not_mem_nil
    | cons y ys =>
      obtain ⟨hx1, hx2⟩ := List.pairwise_cons.1 hx
      obtain ⟨hy1, hy2⟩ := List.pairwise_cons.1 hy
      have e : x = y := by
        rcases List.mem_cons.1 ((h x).1 List.mem_cons_self) with e | hxy
        · exact e
        · rcases List.mem_cons.1 ((h y).2 List.mem_cons_self) with e | hyx
          · exact e.symm
          · exact absurd (hy1 x hxy) (Symbol.lt_asymm (hx1 y hyx))
      subst e
      refine congrArg (x :: ·) (ih hx2 hy2 fun z => ⟨fun hz => ?_, fun hz => ?_⟩)
      · rcases List.mem_cons.1 ((h z).1 (List.mem_cons_of_mem _ hz)) with rfl | hz'
        · exact absurd (hx1 z hz) (Symbol.lt_irrefl _)
        · exact hz'
      · rcases List.mem_cons.1 ((h z).2 (List.mem_cons_of_mem _ hz)) with rfl | hz'
        · exact absurd (hy1 z hz) (Symbol.lt_irrefl _)
        · exact hz'

theorem eq_of_toList_eq {s t : SymbolSet} (h : s.toList = t.toList) : s = t :=
  SymbolSet.ext (Array.toList_inj.1 h)

/-- A set is determined by what is found in it. -/
theorem eq_of_find?_eq {s t : SymbolSet} (h : ∀ x, s.find? x = t.find? x) : s = t :=
  eq_of_toList_eq <| eq_of_increasing s.increasing t.increasing fun x => by
    rw [mem_toList_iff, mem_toList_iff, h]

-- ======================================================= construction

/-- The set of the elements of a search tree. -/
def ofTree (t : Std.TreeSet Symbol Symbol.order) : SymbolSet :=
  ⟨t.toList.toArray, Std.TreeSet.ordered_toList⟩

theorem toList_ofTree (t : Std.TreeSet Symbol Symbol.order) : (ofTree t).toList = t.toList := rfl

theorem find?_ofTree (t : Std.TreeSet Symbol Symbol.order) (x : Symbol) :
    (ofTree t).find? x = t.get? x := by
  have self : ∀ z, z ∈ t.toList ↔ t.get? z = some z := fun z => by
    rw [show t.toList = t.inner.keys from rfl, ← Std.TreeMap.map_fst_toList_eq_keys, List.mem_map]
    constructor
    · intro h
      obtain ⟨⟨k, u⟩, hk, rfl⟩ := h
      exact (Std.TreeMap.mem_toList_iff_getKey?_eq_some_and_getElem?_eq_some.1 hk).1
    · intro h
      have hz : z ∈ t.inner := Std.TreeSet.mem_of_get?_eq_some h
      refine ⟨(z, ()), ?_, rfl⟩
      rw [Std.TreeMap.mem_toList_iff_getKey?_eq_some_and_getElem?_eq_some,
        Std.TreeMap.getElem?_eq_some_getElem hz]
      exact ⟨h, rfl⟩
  refine Option.ext fun y => ?_
  rw [find?_eq_some_iff, toList_ofTree, self]
  constructor
  · intro h
    obtain ⟨h, hxy⟩ := h
    rw [Std.TreeSet.get?_congr (Symbol.order_eq_iff.2 hxy), h]
  · intro h
    have hyx := Std.TreeSet.compare_getKey?_self (t := t) (k := x)
    rw [h, Option.all_some, decide_eq_true_eq] at hyx
    rw [Std.TreeSet.get?_congr hyx, h]
    exact ⟨rfl, Setoid.symm (Symbol.order_eq_iff.1 hyx)⟩

theorem mem_ofTree {t : Std.TreeSet Symbol Symbol.order} {x : Symbol} : x ∈ ofTree t ↔ x ∈ t := by
  rw [mem_iff_isSome_find?, find?_ofTree, Std.TreeSet.isSome_get?_iff_mem]

/-- The set of the listed symbols; of alike ones the first is a member. -/
def ofList (xs : List Symbol) : SymbolSet := ofTree (xs.foldl .insert ∅)

theorem get?_foldl_insert (xs : List Symbol) (t : Std.TreeSet Symbol Symbol.order) (x : Symbol) :
    (xs.foldl .insert t).get? x = (t.get? x).or (xs.find? fun y => decide (x ≈ y)) := by
  induction xs generalizing t with
  | nil => simp
  | cons y ys ih =>
    rw [List.foldl_cons, ih, Std.TreeSet.get?_insert, List.find?_cons]
    by_cases h : x ≈ y
    · have hyx := Symbol.order_eq_iff.2 (Setoid.symm h)
      by_cases hm : y ∈ t
      · obtain ⟨z, hz⟩ := Option.isSome_iff_exists.1 (Std.TreeSet.mem_iff_isSome_get?.1 hm)
        rw [Std.TreeSet.get?_congr hyx] at hz
        simp [hm, hz]
      · rw [if_pos ⟨hyx, hm⟩, ← Std.TreeSet.get?_congr hyx, Std.TreeSet.get?_eq_none hm]
        simp [h]
    · have hyx : ¬y.order x = .eq := fun e => h (Setoid.symm (Symbol.order_eq_iff.1 e))
      simp [h, hyx]

theorem find?_ofList (xs : List Symbol) (x : Symbol) :
    (ofList xs).find? x = xs.find? fun y => decide (x ≈ y) := by
  rw [ofList, find?_ofTree, get?_foldl_insert]
  simp

@[simp] theorem mem_ofList {xs : List Symbol} {x : Symbol} : x ∈ ofList xs ↔ ∃ y ∈ xs, x ≈ y := by
  rw [mem_iff_isSome_find?, find?_ofList]
  simp

theorem mem_ofList_map {α : Type} {g : α → Symbol} {xs : List α} {x : Symbol} :
    x ∈ ofList (xs.map g) ↔ ∃ y ∈ xs, x ≈ g y := by
  rw [mem_ofList]
  constructor
  · intro h
    obtain ⟨_, hmem, hx⟩ := h
    obtain ⟨y, hy, rfl⟩ := List.mem_map.1 hmem
    exact ⟨y, hy, hx⟩
  · intro h
    obtain ⟨y, hy, hx⟩ := h
    exact ⟨_, List.mem_map_of_mem hy, hx⟩

/-- A list of the members, in any order and repeated at will, gives the set. -/
theorem ofList_eq {xs : List Symbol} {s : SymbolSet} (h : ∀ x, x ∈ xs ↔ x ∈ s.toList) :
    ofList xs = s :=
  eq_of_find?_eq fun x => Option.ext fun y => by
    rw [find?_ofList, find?_eq_some_iff]
    constructor
    · intro hy
      exact ⟨(h y).1 (List.mem_of_find?_eq_some hy), by simpa using List.find?_some hy⟩
    · intro h
      obtain ⟨hy, hxy⟩ := h
      cases hz : xs.find? fun y => decide (x ≈ y) with
      | none => exact absurd hxy (by simpa using List.find?_eq_none.1 hz y ((h y).2 hy))
      | some z =>
        have hxz : x ≈ z := by simpa using List.find?_some hz
        rw [eq_of_alike ((h z).1 (List.mem_of_find?_eq_some hz)) hy
          (Setoid.trans (Setoid.symm hxz) hxy)]

@[simp] theorem ofList_toList (s : SymbolSet) : ofList s.toList = s := ofList_eq fun _ => Iff.rfl

/-- An increasing list is that of the members of its set. -/
theorem toList_ofList {xs : List Symbol} (h : xs.Pairwise (· < ·)) : (ofList xs).toList = xs := by
  have hset : ofList xs = ⟨xs.toArray, h⟩ := ofList_eq fun x => Iff.rfl
  rw [hset]
  rfl

-- ========================================================= operations

/-- The members that pass a test. -/
def filter (p : Symbol → Bool) (s : SymbolSet) : SymbolSet :=
  ⟨s.members.filter p, by rw [Array.toList_filter]; exact s.increasing.filter p⟩

@[simp] theorem toList_filter (p : Symbol → Bool) (s : SymbolSet) :
    (s.filter p).toList = s.toList.filter p := Array.toList_filter

/-- For a test that does not tell alike symbols apart. -/
theorem mem_filter {p : Symbol → Bool} (hp : ∀ x y, x ≈ y → p x = p y) {s : SymbolSet}
    {x : Symbol} : x ∈ s.filter p ↔ x ∈ s ∧ p x = true := by
  simp only [mem_def, toList_filter, List.mem_filter]
  constructor
  · intro h
    obtain ⟨y, ⟨hy, hpy⟩, hxy⟩ := h
    exact ⟨⟨y, hy, hxy⟩, by rw [hp x y hxy, hpy]⟩
  · intro h
    obtain ⟨⟨y, hy, hxy⟩, hpx⟩ := h
    exact ⟨y, ⟨hy, by rw [← hp x y hxy, hpx]⟩, hxy⟩

/-- The members that lie in the second set too. -/
def restrict (s t : SymbolSet) : SymbolSet := s.filter fun x => decide (x ∈ t)

/-- What the sets have in common, written as in the one with fewer members,
and as in the second if they have equally many. -/
def inter (s t : SymbolSet) : SymbolSet :=
  if s.size < t.size then s.restrict t else t.restrict s

/-- The members that do not lie in the second set. -/
def sdiff (s t : SymbolSet) : SymbolSet := s.filter fun x => decide (¬x ∈ t)

@[simp] theorem mem_restrict {s t : SymbolSet} {x : Symbol} :
    x ∈ s.restrict t ↔ x ∈ s ∧ x ∈ t := by
  rw [restrict, mem_filter fun x y h => by simp [mem_congr h]]
  simp

@[simp] theorem mem_inter {s t : SymbolSet} {x : Symbol} : x ∈ s.inter t ↔ x ∈ s ∧ x ∈ t := by
  rw [inter]
  split
  · exact mem_restrict
  · rw [mem_restrict, and_comm]

@[simp] theorem mem_sdiff {s t : SymbolSet} {x : Symbol} : x ∈ s.sdiff t ↔ x ∈ s ∧ ¬x ∈ t := by
  rw [sdiff, mem_filter fun x y h => by simp [mem_congr h]]
  simp

/-- Whether the sets have no member in common. -/
def Disjoint (s t : SymbolSet) : Prop := ∀ x, x ∈ s → ¬x ∈ t

/-- The smallest member, if there is a member. -/
def least? (s : SymbolSet) : Option Symbol := s.members[0]?

theorem least?_eq_none_iff {s : SymbolSet} : s.least? = none ↔ s.isEmpty = true := by
  simp [least?, isEmpty]

/-- The least member is a member, and no member is smaller. -/
theorem least?_eq_some_iff {s : SymbolSet} {m : Symbol} :
    s.least? = some m ↔ m ∈ s.toList ∧ ∀ x ∈ s, ¬x < m := by
  have h0 : s.least? = s.toList.head? := by rw [least?, toList, ← Array.getElem?_toList,
    List.head?_eq_getElem?]
  have hs := s.increasing
  rw [h0, List.head?_eq_some_iff]
  constructor
  · intro h
    obtain ⟨ys, hys⟩ := h
    rw [show s.members.toList = _ from hys, List.pairwise_cons] at hs
    refine ⟨hys ▸ List.mem_cons_self, fun x ⟨y, hy, hxy⟩ hlt => ?_⟩
    rw [Symbol.lt_congr hxy rfl] at hlt
    rcases List.mem_cons.1 (hys ▸ hy) with rfl | hy
    · exact Symbol.lt_irrefl _ hlt
    · exact Symbol.lt_asymm hlt (hs.1 y hy)
  · intro h
    obtain ⟨hm, hmin⟩ := h
    cases h : s.toList with
    | nil => rw [h] at hm; cases hm
    | cons k ys =>
      rw [show s.members.toList = _ from h, List.pairwise_cons] at hs
      rcases List.mem_cons.1 (h ▸ hm) with rfl | hm'
      · exact ⟨ys, rfl⟩
      · exact absurd (hs.1 m hm') (hmin k ⟨k, h ▸ List.mem_cons_self, rfl⟩)

/-- The members as they are written down: by kind, and then by size. -/
def listing (s : SymbolSet) : List Symbol := sortBy Symbol.listedBefore s.toList

theorem perm_listing (s : SymbolSet) : s.listing.Perm s.toList := perm_sortBy _ s.toList

@[simp] theorem mem_listing {s : SymbolSet} {x : Symbol} : x ∈ s.listing ↔ x ∈ s.toList := by
  simp [listing]

@[simp] theorem ofList_listing (s : SymbolSet) : ofList s.listing = s :=
  ofList_eq fun _ => mem_listing

/-- The members can be compared by size when any two different elements can. -/
theorem comparable_toList_iff {s : SymbolSet} :
    Symbol.Comparable s.toList ↔ ∀ x ∈ s, ∀ y ∈ s, ¬x ≈ y → x.comparable y = true := by
  constructor
  · intro h x hx y hy hxy
    obtain ⟨x', hx', hxx'⟩ := hx
    obtain ⟨y', hy', hyy'⟩ := hy
    have hne : x' ≠ y' := by
      intro e
      subst e
      exact hxy (Setoid.trans hxx' (Setoid.symm hyy'))
    rw [Symbol.comparable_congr hxx' hyy']
    exact h.comparable_of_ne hx' hy' hne
  · intro h
    unfold Symbol.Comparable
    refine s.increasing.imp_of_mem fun {x y} hx hy hlt => ?_
    exact h x (mem_of_mem_toList hx) y (mem_of_mem_toList hy) (Symbol.not_alike_of_lt hlt)

theorem comparable_of_subset {s t : SymbolSet} (h : Symbol.Comparable t.toList)
    (hsub : ∀ x ∈ s, x ∈ t) : Symbol.Comparable s.toList := by
  refine comparable_toList_iff.2 fun x hx y hy hne => ?_
  exact comparable_toList_iff.1 h x (hsub x hx) y (hsub y hy) hne

-- ========================================================== alike sets

/-- The set with its members written plainly. -/
def plain (s : SymbolSet) : SymbolSet where
  members := s.members.map Symbol.plain
  increasing := by
    rw [Array.toList_map, List.pairwise_map]
    refine s.increasing.imp fun {x y} h => ?_
    rwa [Symbol.lt_congr (Symbol.plain_alike x) (Symbol.plain_alike y)]

/-- Sets are alike when they differ at most in how members are written. -/
def Alike (s t : SymbolSet) : Prop := s.plain = t.plain

instance : Setoid SymbolSet where
  r := Alike
  iseqv := ⟨fun _ => rfl, Eq.symm, Eq.trans⟩

instance (s t : SymbolSet) : Decidable (s ≈ t) :=
  inferInstanceAs (Decidable (s.plain = t.plain))

theorem alike_of_eq {s t : SymbolSet} (h : s = t) : s ≈ t := h ▸ Setoid.refl s

@[simp] theorem mem_plain {s : SymbolSet} {x : Symbol} : x ∈ s.plain ↔ x ∈ s := by
  simp only [mem_def, plain, toList, Array.toList_map, List.mem_map]
  constructor
  · intro h
    obtain ⟨_, ⟨y, hy, rfl⟩, h⟩ := h
    exact ⟨y, hy, Setoid.trans h (Symbol.plain_alike y)⟩
  · intro h
    obtain ⟨y, hy, h⟩ := h
    exact ⟨y.plain, ⟨y, hy, rfl⟩, Setoid.trans h (Setoid.symm (Symbol.plain_alike y))⟩

theorem find?_plain (s : SymbolSet) (x : Symbol) :
    s.plain.find? x = if x ∈ s then some x.plain else none := by
  refine Option.ext fun y => ?_
  rw [find?_eq_some_iff]
  simp only [plain, toList, Array.toList_map, List.mem_map]
  constructor
  · intro h
    obtain ⟨⟨z, hz, rfl⟩, h⟩ := h
    rw [if_pos ⟨z, hz, Setoid.trans h (Symbol.plain_alike z)⟩, Symbol.alike_def.1 h,
      Symbol.plain_plain]
  · intro h
    split at h
    · rename_i hx
      obtain ⟨z, hz, hxz⟩ := hx
      cases h
      exact ⟨⟨z, hz, (Symbol.alike_def.1 hxz).symm⟩, Setoid.symm (Symbol.plain_alike x)⟩
    · cases h

theorem size_eq_of_alike {s t : SymbolSet} (h : s ≈ t) : s.size = t.size := by
  have hmembers : s.members.map Symbol.plain = t.members.map Symbol.plain :=
    congrArg SymbolSet.members h
  have hsize := congrArg Array.size hmembers
  rwa [Array.size_map, Array.size_map] at hsize

/-- Alike sets are those in which the same symbols lie. -/
theorem alike_iff {s t : SymbolSet} : s ≈ t ↔ ∀ x, x ∈ s ↔ x ∈ t := by
  constructor
  · intro h x
    rw [← mem_plain, show s.plain = t.plain from h, mem_plain]
  · intro h
    exact eq_of_find?_eq fun x => by simp only [find?_plain, h x]

theorem comparable_congr {s t : SymbolSet} (h : s ≈ t) :
    Symbol.Comparable s.toList ↔ Symbol.Comparable t.toList :=
  ⟨fun hs => comparable_of_subset hs fun x => (alike_iff.1 h x).2,
    fun ht => comparable_of_subset ht fun x => (alike_iff.1 h x).1⟩

end SymbolSet

end Automata
