/-
Finite maps keyed by symbols.

A map holds its entries in order of the size of their keys, and of alike
keys at most one. As with the sets of symbols, the order is part of the
type, so two maps that give the same entry for every symbol are equal
(`eq_of_find?_eq`): the order in which entries were inserted leaves no
trace. A look-up does not tell alike symbols apart.

Main statements: `find?_eq_some_iff` says which entry is found, and
`get?_ofList`, `get?_tabulate` and `get?_filterMap` give the look-ups in
a built map.
-/
import Automata.Symbol.Set

namespace Automata

/-- A finite map from symbols, held in order of the size of its keys. -/
@[ext] structure SymbolMap (β : Type) where
  entries : Array (Symbol × β)
  increasing : entries.toList.Pairwise fun e e' => e.1 < e'.1
  deriving DecidableEq

namespace SymbolMap

variable {β γ : Type}

-- ============================================================ look-up

/-- The entries in order of the size of their keys. -/
def toList (m : SymbolMap β) : List (Symbol × β) := m.entries.toList

/-- The entry of a symbol, with the key as the map holds it. -/
def find? (m : SymbolMap β) (k : Symbol) : Option (Symbol × β) :=
  (bisect (fun e => k.order e.1) m.entries).bind fun i => m.entries[i]?

/-- The value of a symbol. -/
def get? (m : SymbolMap β) (k : Symbol) : Option β := (m.find? k).map Prod.snd

/-- The number of entries. -/
def size (m : SymbolMap β) : Nat := m.entries.size

instance : EmptyCollection (SymbolMap β) where
  emptyCollection := ⟨#[], .nil⟩

/-- Look-up finds the one entry whose key the symbol is alike to. -/
theorem find?_eq_some_iff {m : SymbolMap β} {k : Symbol} {e : Symbol × β} :
    m.find? k = some e ↔ e ∈ m.toList ∧ k ≈ e.1 := by
  have h : ∀ i, bisect (fun e => k.order e.1) m.entries = some i ↔
      m.entries[i]?.map (fun e => k.order e.1) = some .eq := fun i =>
    bisect_eq_some_iff (Symbol.bisectable m.increasing k)
  rw [find?, Option.bind_eq_some_iff]
  constructor
  · intro h
    obtain ⟨i, hi, he⟩ := h
    have := (h i).1 hi
    rw [he, Option.map_some, Option.some.injEq, Symbol.order_eq_iff] at this
    exact ⟨Array.mem_toList_iff.2 (Array.mem_of_getElem? he), this⟩
  · intro h
    obtain ⟨he, hk⟩ := h
    obtain ⟨i, hi⟩ := Array.mem_iff_getElem?.1 (Array.mem_toList_iff.1 he)
    exact ⟨i, (h i).2 (by rw [hi, Option.map_some, Symbol.order_eq_iff.2 hk]), hi⟩

theorem get?_eq_some_iff {m : SymbolMap β} {k : Symbol} {v : β} :
    m.get? k = some v ↔ ∃ j, (j, v) ∈ m.toList ∧ k ≈ j := by
  rw [get?, Option.map_eq_some_iff]
  constructor
  · intro h
    obtain ⟨⟨j, w⟩, he, rfl⟩ := h
    exact ⟨j, find?_eq_some_iff.1 he⟩
  · intro h
    obtain ⟨j, hj, hk⟩ := h
    exact ⟨(j, v), find?_eq_some_iff.2 ⟨hj, hk⟩, rfl⟩

theorem mem_toList_iff {m : SymbolMap β} {e : Symbol × β} :
    e ∈ m.toList ↔ m.find? e.1 = some e := by
  rw [find?_eq_some_iff]
  simp

theorem find?_congr {m : SymbolMap β} {j k : Symbol} (h : j ≈ k) : m.find? j = m.find? k :=
  Option.ext fun e => by
    rw [find?_eq_some_iff, find?_eq_some_iff]
    exact ⟨fun ⟨he, hj⟩ => ⟨he, Setoid.trans (Setoid.symm h) hj⟩,
      fun ⟨he, hk⟩ => ⟨he, Setoid.trans h hk⟩⟩

/-- Alike symbols have the same value. -/
theorem get?_congr {m : SymbolMap β} {j k : Symbol} (h : j ≈ k) : m.get? j = m.get? k := by
  rw [get?, get?, find?_congr h]

/-- The keys. -/
def keys (m : SymbolMap β) : SymbolSet where
  members := m.entries.map Prod.fst
  increasing := by
    rw [Array.toList_map, List.pairwise_map]
    exact m.increasing

@[simp] theorem mem_keys {m : SymbolMap β} {k : Symbol} :
    k ∈ m.keys ↔ (m.get? k).isSome = true := by
  rw [Option.isSome_iff_exists]
  simp only [get?_eq_some_iff, SymbolSet.mem_def, SymbolSet.toList, keys, Array.toList_map,
    List.mem_map]
  constructor
  · intro h
    obtain ⟨_, ⟨⟨j, v⟩, he, rfl⟩, hk⟩ := h
    exact ⟨v, j, he, hk⟩
  · intro h
    obtain ⟨v, j, he, hk⟩ := h
    exact ⟨j, ⟨(j, v), he, rfl⟩, hk⟩

/-- A map is determined by the entries that are found in it. -/
theorem eq_of_find?_eq {m n : SymbolMap β} (h : ∀ k, m.find? k = n.find? k) : m = n :=
  SymbolMap.ext <| Array.toList_inj.1 <|
    SymbolSet.eq_of_increasing m.increasing n.increasing fun e => by
      rw [← toList, ← toList, mem_toList_iff, mem_toList_iff, h]

-- ======================================================= construction

/-- The map of the members of a set for which there is a value. -/
def tabulate (s : SymbolSet) (f : Symbol → Option β) : SymbolMap β where
  entries := s.members.filterMap fun k => (f k).map (k, ·)
  increasing := by
    rw [Array.toList_filterMap]
    refine List.pairwise_filterMap.2 (s.increasing.imp ?_)
    intro k k' h e he e' he'
    obtain ⟨_, _, rfl⟩ := Option.map_eq_some_iff.1 he
    obtain ⟨_, _, rfl⟩ := Option.map_eq_some_iff.1 he'
    exact h

theorem mem_toList_tabulate {s : SymbolSet} {f : Symbol → Option β} {e : Symbol × β} :
    e ∈ (tabulate s f).toList ↔ e.1 ∈ s.toList ∧ f e.1 = some e.2 := by
  obtain ⟨k, v⟩ := e
  simp only [toList, tabulate, Array.toList_filterMap, List.mem_filterMap, Option.map_eq_some_iff,
    Prod.mk.injEq]
  constructor
  · intro h
    obtain ⟨_, hk, _, hv, rfl, rfl⟩ := h
    exact ⟨hk, hv⟩
  · intro h
    obtain ⟨hk, hv⟩ := h
    exact ⟨k, hk, v, hv, rfl, rfl⟩

theorem find?_tabulate (s : SymbolSet) (f : Symbol → Option β) (k : Symbol) :
    (tabulate s f).find? k = (s.find? k).bind fun j => (f j).map (j, ·) := by
  refine Option.ext fun e => ?_
  obtain ⟨j, v⟩ := e
  rw [find?_eq_some_iff, mem_toList_tabulate, Option.bind_eq_some_iff]
  simp only [SymbolSet.find?_eq_some_iff, Option.map_eq_some_iff, Prod.mk.injEq]
  constructor
  · intro h
    obtain ⟨⟨hj, hv⟩, hk⟩ := h
    exact ⟨j, ⟨hj, hk⟩, v, hv, rfl, rfl⟩
  · intro h
    obtain ⟨_, ⟨hj, hk⟩, _, hv, rfl, rfl⟩ := h
    exact ⟨⟨hj, hv⟩, hk⟩

theorem get?_tabulate (s : SymbolSet) (f : Symbol → Option β) (k : Symbol) :
    (tabulate s f).get? k = (s.find? k).bind f := by
  rw [get?, find?_tabulate]
  cases s.find? k with
  | none => rfl
  | some j => cases h : f j <;> simp [h]

/-- For values that do not tell alike symbols apart. -/
theorem get?_tabulate_of_mem {s : SymbolSet} {f : Symbol → Option β}
    (hf : ∀ j k, j ≈ k → f j = f k) {k : Symbol} (hk : k ∈ s) : (tabulate s f).get? k = f k := by
  obtain ⟨j, hj⟩ := Option.isSome_iff_exists.1 (SymbolSet.mem_iff_isSome_find?.1 hk)
  rw [get?_tabulate, hj, Option.bind_some]
  exact hf j k (Setoid.symm (SymbolSet.find?_eq_some_iff.1 hj).2)

theorem mem_of_get?_tabulate {s : SymbolSet} {f : Symbol → Option β} {k : Symbol} {v : β}
    (h : (tabulate s f).get? k = some v) : k ∈ s := by
  rw [get?_tabulate, Option.bind_eq_some_iff] at h
  obtain ⟨j, hj, -⟩ := h
  exact ⟨j, SymbolSet.find?_eq_some_iff.1 hj⟩

/-- The last values of the listed keys. -/
def lastValues (es : List (Symbol × β)) : Std.TreeMap Symbol β Symbol.order :=
  es.foldl (fun t e => t.insert e.1 e.2) ∅

/-- The map of the listed pairs. Of two pairs with alike keys the key of
the first and the value of the second count. -/
def ofList (es : List (Symbol × β)) : SymbolMap β :=
  let values := lastValues es
  tabulate (.ofList (es.map Prod.fst)) fun k => values[k]?

theorem getElem?_foldl_insert (es : List (Symbol × β)) (t : Std.TreeMap Symbol β Symbol.order)
    (k : Symbol) :
    (es.foldl (fun t e => t.insert e.1 e.2) t)[k]? =
      ((es.reverse.find? fun e => decide (k ≈ e.1)).map Prod.snd).or t[k]? := by
  induction es generalizing t with
  | nil => simp
  | cons e es ih =>
    rw [List.foldl_cons, ih, List.reverse_cons, List.find?_append, Std.TreeMap.getElem?_insert,
      List.find?_singleton]
    by_cases h : k ≈ e.1
    · rw [if_pos (Symbol.order_eq_iff.2 (Setoid.symm h))]
      cases es.reverse.find? fun e => decide (k ≈ e.1) <;> simp [h]
    · rw [if_neg fun e' => h (Setoid.symm (Symbol.order_eq_iff.1 e'))]
      cases es.reverse.find? fun e => decide (k ≈ e.1) <;> simp [h]

/-- The last listed value of a key is looked up. -/
theorem get?_ofList (es : List (Symbol × β)) (k : Symbol) :
    (ofList es).get? k = (es.reverse.find? fun e => decide (k ≈ e.1)).map Prod.snd := by
  rw [ofList, get?_tabulate, SymbolSet.find?_ofList]
  have hv : ∀ j, (lastValues es)[j]? =
      (es.reverse.find? fun e : Symbol × β => decide (j ≈ e.1)).map Prod.snd := fun j => by
    rw [lastValues, getElem?_foldl_insert]
    simp
  cases h : (es.map Prod.fst).find? fun j => decide (k ≈ j) with
  | none =>
    have hn : es.reverse.find? (fun e => decide (k ≈ e.1)) = none := by
      rw [List.find?_eq_none]
      intro e he
      simpa using List.find?_eq_none.1 h e.1 (List.mem_map_of_mem (List.mem_reverse.1 he))
    rw [hn]
    rfl
  | some j =>
    have hkj : k ≈ j := by simpa using List.find?_some h
    rw [Option.bind_some, hv]
    have : (fun e : Symbol × β => decide (j ≈ e.1)) = fun e => decide (k ≈ e.1) := by
      funext e
      exact decide_eq_decide.2 ⟨Setoid.trans hkj, Setoid.trans (Setoid.symm hkj)⟩
    rw [this]

/-- A value that is looked up was listed for the key. -/
theorem exists_of_get?_ofList {es : List (Symbol × β)} {k : Symbol} {v : β}
    (h : (ofList es).get? k = some v) : ∃ j, (j, v) ∈ es ∧ k ≈ j := by
  rw [get?_ofList, Option.map_eq_some_iff] at h
  obtain ⟨e, he, rfl⟩ := h
  refine ⟨e.1, List.mem_reverse.1 (List.mem_of_find?_eq_some he), ?_⟩
  simpa using List.find?_some he

/-- Something is looked up for a listed key. -/
theorem exists_get?_ofList {es : List (Symbol × β)} {k : Symbol} (h : ∃ e ∈ es, k ≈ e.1) :
    ∃ e ∈ es, k ≈ e.1 ∧ (ofList es).get? k = some e.2 := by
  obtain ⟨e, he, hk⟩ := h
  rw [get?_ofList]
  cases hfind : es.reverse.find? fun e => decide (k ≈ e.1) with
  | none => exact absurd hk (by simpa using List.find?_eq_none.1 hfind _ (List.mem_reverse.2 he))
  | some f =>
    exact ⟨f, List.mem_reverse.1 (List.mem_of_find?_eq_some hfind),
      by simpa using List.find?_some hfind, rfl⟩

/-- A listed value is looked up if all that are listed for the key agree. -/
theorem get?_ofList_of_mem {es : List (Symbol × β)} {j k : Symbol} {v : β} (hv : (j, v) ∈ es)
    (hk : k ≈ j) (h : ∀ e ∈ es, k ≈ e.1 → e.2 = v) : (ofList es).get? k = some v := by
  obtain ⟨e, he, hke, hget⟩ := exists_get?_ofList ⟨_, hv, hk⟩
  rw [hget, h e he hke]

/-- The keys of the map are those of the entries. -/
theorem keys_ofList_alike (es : List (Symbol × β)) :
    (ofList es).keys ≈ SymbolSet.ofList (es.map Prod.fst) := by
  refine SymbolSet.alike_iff.2 fun k => ?_
  rw [mem_keys, SymbolSet.mem_ofList, get?_ofList, Option.isSome_map, List.find?_isSome]
  simp

-- ========================================================= operations

/-- The entries whose value is kept, with what becomes of it. -/
def filterMap (f : Symbol → β → Option γ) (m : SymbolMap β) : SymbolMap γ where
  entries := m.entries.filterMap fun e => (f e.1 e.2).map (e.1, ·)
  increasing := by
    rw [Array.toList_filterMap]
    refine List.pairwise_filterMap.2 (m.increasing.imp ?_)
    intro e e' h a ha b hb
    obtain ⟨_, _, rfl⟩ := Option.map_eq_some_iff.1 ha
    obtain ⟨_, _, rfl⟩ := Option.map_eq_some_iff.1 hb
    exact h

theorem find?_filterMap (f : Symbol → β → Option γ) (m : SymbolMap β) (k : Symbol) :
    (m.filterMap f).find? k = (m.find? k).bind fun e => (f e.1 e.2).map (e.1, ·) := by
  refine Option.ext fun e => ?_
  obtain ⟨j, v⟩ := e
  rw [find?_eq_some_iff, Option.bind_eq_some_iff]
  simp only [find?_eq_some_iff, toList, filterMap, Array.toList_filterMap, List.mem_filterMap,
    Option.map_eq_some_iff, Prod.mk.injEq]
  constructor
  · intro h
    obtain ⟨⟨e, he, w, hw, rfl, rfl⟩, hk⟩ := h
    exact ⟨e, ⟨he, hk⟩, w, hw, rfl, rfl⟩
  · intro h
    obtain ⟨e, ⟨he, hk⟩, w, hw, rfl, rfl⟩ := h
    exact ⟨⟨e, he, w, hw, rfl, rfl⟩, hk⟩

theorem get?_filterMap (f : Symbol → β → Option γ) (m : SymbolMap β) (k : Symbol) :
    (m.filterMap f).get? k = (m.find? k).bind fun e => f e.1 e.2 := by
  rw [get?, find?_filterMap]
  cases m.find? k with
  | none => rfl
  | some e => cases h : f e.1 e.2 <;> simp [h]

/-- The entries as they are written down: by kind of key, and then by size. -/
def listing (m : SymbolMap β) : List (Symbol × β) :=
  sortBy (fun e e' => e.1.listedBefore e'.1) m.toList

/-- The map with its keys written plainly, and its values as told. -/
def plain (f : β → γ) (m : SymbolMap β) : SymbolMap γ where
  entries := m.entries.map fun e => (e.1.plain, f e.2)
  increasing := by
    rw [Array.toList_map, List.pairwise_map]
    refine m.increasing.imp fun {e e'} h => ?_
    rwa [Symbol.lt_congr (Symbol.plain_alike e.1) (Symbol.plain_alike e'.1)]

theorem get?_plain (f : β → γ) (m : SymbolMap β) (k : Symbol) :
    (m.plain f).get? k = (m.get? k).map f := by
  refine Option.ext fun v => ?_
  simp only [get?_eq_some_iff, toList, plain, Array.toList_map, List.mem_map, Prod.mk.injEq,
    Option.map_eq_some_iff]
  constructor
  · intro h
    obtain ⟨_, ⟨⟨j, w⟩, he, rfl, rfl⟩, hk⟩ := h
    exact ⟨w, ⟨j, he, Setoid.trans hk (Symbol.plain_alike j)⟩, rfl⟩
  · intro h
    obtain ⟨w, ⟨j, he, hk⟩, rfl⟩ := h
    exact ⟨j.plain, ⟨(j, w), he, rfl, rfl⟩, Setoid.trans hk (Setoid.symm (Symbol.plain_alike j))⟩

theorem find?_plain (f : β → γ) (m : SymbolMap β) (k : Symbol) :
    (m.plain f).find? k = (m.get? k).map fun v => (k.plain, f v) := by
  refine Option.ext fun e => ?_
  obtain ⟨j, w⟩ := e
  rw [find?_eq_some_iff, Option.map_eq_some_iff]
  simp only [get?_eq_some_iff, toList, plain, Array.toList_map, List.mem_map, Prod.mk.injEq]
  constructor
  · intro h
    obtain ⟨⟨⟨i, v⟩, he, rfl, rfl⟩, hk⟩ := h
    have hki : k ≈ i := Setoid.trans hk (Symbol.plain_alike i)
    exact ⟨v, ⟨i, he, hki⟩, Symbol.alike_def.1 hki, rfl⟩
  · intro h
    obtain ⟨v, ⟨i, he, hki⟩, rfl, rfl⟩ := h
    exact ⟨⟨(i, v), he, (Symbol.alike_def.1 hki).symm, rfl⟩, Setoid.symm (Symbol.plain_alike k)⟩

/-- Written plainly, maps are the same when their look-ups are. -/
theorem plain_eq_iff {f : β → γ} {m n : SymbolMap β} :
    m.plain f = n.plain f ↔ ∀ k, (m.get? k).map f = (n.get? k).map f := by
  constructor
  · intro h k
    rw [← get?_plain, h, get?_plain]
  · intro h
    refine eq_of_find?_eq fun k => ?_
    have hpair : ∀ o : Option β,
        o.map (fun v => (k.plain, f v)) = (o.map f).map (Prod.mk k.plain) := fun o => by
      rw [Option.map_map]
      rfl
    rw [find?_plain, find?_plain, hpair, hpair, h]

end SymbolMap

end Automata
